import Vhdl93.Store.Basic

set_option autoImplicit false

namespace Vhdl93.Store

/-- The location whose file a path names. A path that asks for a directory names no file. -/
def place? (s : Store) (path : String) : Option Location :=
  if (Path.ofText path).slashed then none else (s.locate (Path.ofText path)).toOption.join

def contents? (s : Store) (path : String) : Option ByteArray :=
  (s.read (Path.ofText path)).toOption

theorem contents?_eq (s : Store) (path : String) :
    s.contents? path = (s.place? path).bind fun location =>
      match s.get? location with
      | some (.file bytes) => some bytes
      | _ => none := by
  simp only [contents?, read, place?]
  cases s.locate (Path.ofText path) with
  | error e => cases (Path.ofText path).slashed <;> rfl
  | ok found =>
    cases found with
    | none => cases (Path.ofText path).slashed <;> rfl
    | some location =>
      cases slashed : (Path.ofText path).slashed <;> rcases entry : s.get? location with
        _ | ⟨bytes⟩ | _ <;> simp [entry, bind, Except.bind, Except.toOption]

def SameDirectories (s t : Store) : Prop :=
  ∀ location, t.get? location = some .directory ↔ s.get? location = some .directory

theorem walk_blocked {s : Store} {here : Location} {name : String} {rest : List String}
    (plain : name ≠ "." ∧ name ≠ "..") (blocked : s.get? (here ++ [name]) ≠ some .directory) :
    (s.walk here (name :: rest)).toOption = none := by
  rw [walk, if_neg plain.1, if_neg plain.2]
  rcases entry : s.get? (here ++ [name]) with _ | ⟨bytes⟩ | _
  · rfl
  · rfl
  · exact absurd entry blocked

section SameDirectories

variable {s t : Store} (same : s.SameDirectories t)

include same

theorem walk_toOption (here : Location) (names : List String) :
    (t.walk here names).toOption = (s.walk here names).toOption := by
  induction names generalizing here with
  | nil => rfl
  | cons name rest ih =>
    by_cases stays : name = "."
    · simp only [walk, stays, if_true, ih]
    by_cases back : name = ".."
    · subst back
      simp only [walk, stays, if_true, if_false, ih]
    by_cases directory : s.get? (here ++ [name]) = some .directory
    · have directory' := (same _).mpr directory
      simp only [walk, stays, back, if_false, directory, directory', ih]
    · have blocked : t.get? (here ++ [name]) ≠ some .directory := mt (same _).mp directory
      rw [walk_blocked ⟨stays, back⟩ directory, walk_blocked ⟨stays, back⟩ blocked]

theorem locate_toOption (path : Path) : (t.locate path).toOption = (s.locate path).toOption := by
  have walked := walk_toOption same [] path.names.dropLast
  simp only [locate]
  cases before : s.walk [] path.names.dropLast with
  | error e =>
    cases after : t.walk [] path.names.dropLast with
    | error e' => rfl
    | ok here' => simp [before, after, Except.toOption] at walked
  | ok here =>
    cases after : t.walk [] path.names.dropLast with
    | error e' => simp [before, after, Except.toOption] at walked
    | ok here' =>
      obtain rfl : here' = here := by simpa [before, after, Except.toOption] using walked
      rfl

theorem place?_eq (path : String) : t.place? path = s.place? path := by
  rw [place?, place?, locate_toOption same]

end SameDirectories

/-- A file is made exactly where a path names a file and no directory stands there. All other
entries stay. -/
theorem create_iff {s t : Store} {path : String} {bytes : ByteArray} :
    s.create (Path.ofText path) bytes = .ok t ↔
      ∃ location, s.place? path = some location ∧ s.get? location ≠ some .directory ∧
        t = s.insert location (.file bytes) := by
  simp only [create, place?]
  cases s.locate (Path.ofText path) with
  | error e => simp [bind, Except.bind, Except.toOption]
  | ok found =>
    cases found with
    | none => simp [bind, Except.bind, Except.toOption]
    | some location =>
      cases (Path.ofText path).slashed with
      | true => simp [bind, Except.bind]
      | false =>
        rcases entry : s.get? location with _ | ⟨old⟩ | _ <;>
          simp [bind, Except.bind, Except.toOption, entry, eq_comm]

theorem get?_insert_free {s : Store} {location : Location} (entry : Entry) (other : Location)
    (free : s.get? location ≠ some .directory) :
    (s.insert location entry).get? other =
      if location = other then some entry else s.get? other :=
  -- The root is a directory.
  get?_insert s location other entry fun root => free (by simp [root, get?])

theorem sameDirectories_insert {s : Store} {location : Location} {bytes : ByteArray}
    (free : s.get? location ≠ some .directory) :
    s.SameDirectories (s.insert location (.file bytes)) := by
  intro other
  rw [get?_insert_free _ _ free]
  by_cases same : location = other
  · subst same
    simp [free]
  · simp [same]

end Vhdl93.Store
