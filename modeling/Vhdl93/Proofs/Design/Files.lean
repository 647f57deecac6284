import Vhdl93.Design.File
import Vhdl93.Proofs.Layout.Unitwise
import Vhdl93.Proofs.Store.Paths

set_option autoImplicit false

namespace Vhdl93

/-- A request to write a design. The system may refuse it for reasons that a store does not show. -/
structure Request where
  design : Design
  config : Config := {}
  path : String
  refused : Bool := false

def Request.text (r : Request) : String := Design.fileText (r.design.render r.config)

namespace Store

def serve (s : Store) (r : Request) : Store × Bool :=
  if r.refused then (s, false)
  else
    match (r.design.write r.config r.path s).1 with
    | .error _ => (s, false)
    | .ok t => (t, true)

def serveAll (s : Store) : List Request → Store × List Bool
  | [] => (s, [])
  | first :: rest =>
      let (t, granted) := s.serve first
      let (u, later) := t.serveAll rest
      (u, granted :: later)

def lastTo (s : Store) (location : Location) (served : List (Request × Bool)) : Option Request :=
  (served.reverse.find? fun (r, granted) => granted && s.place? r.path = some location).map Prod.fst

theorem lastTo_cons (s : Store) (location : Location) (r : Request) (granted : Bool)
    (served : List (Request × Bool)) :
    s.lastTo location ((r, granted) :: served) =
      (s.lastTo location served).or
        (if granted ∧ s.place? r.path = some location then some r else none) := by
  simp only [lastTo, List.reverse_cons, List.find?_append, List.find?_singleton]
  cases served.reverse.find? _ with
  | some _ => rfl
  | none =>
    by_cases hit : granted ∧ s.place? r.path = some location
    · simp [hit]
    · simp_all

section Serve

variable (s : Store) (r : Request)

theorem serve_cases :
    ((s.serve r).2 = true ∧ r.refused = false ∧ ∃ location, s.place? r.path = some location ∧
        s.get? location ≠ some .directory ∧
        (s.serve r).1 = s.insert location (.file r.text.toUTF8)) ∨
      s.serve r = (s, false) ∧ ¬(r.refused = false ∧ ∃ location, s.place? r.path = some location ∧
        s.get? location ≠ some .directory) := by
  cases refused : r.refused with
  | true => exact .inr ⟨by simp [serve, refused], by simp⟩
  | false =>
    cases made : s.create (Path.ofText r.path) r.text.toUTF8 with
    | error e =>
      have failed : (r.design.write r.config r.path s).1 = .error e := by
        rw [Design.write, ← Request.text, made]
      refine .inr ⟨by simp [serve, refused, failed], ?_⟩
      rintro ⟨-, location, named, free⟩
      have possible : s.create (Path.ofText r.path) r.text.toUTF8 = .ok _ :=
        create_iff.mpr ⟨location, named, free, rfl⟩
      rw [made] at possible
      cases possible
    | ok t =>
      have written : (r.design.write r.config r.path s).1 = .ok t := by
        rw [Design.write, ← Request.text, made]
      obtain ⟨location, named, free, same⟩ := create_iff.mp made
      exact .inl ⟨by simp [serve, refused, written], rfl, location, named, free,
        by simp [serve, refused, written, same]⟩

theorem granted_iff : (s.serve r).2 = true ↔ r.refused = false ∧
    ∃ location, s.place? r.path = some location ∧ s.get? location ≠ some .directory := by
  rcases s.serve_cases r with ⟨granted, open_, location, named, free, -⟩ | ⟨failed, not⟩
  · exact iff_of_true granted ⟨open_, location, named, free⟩
  · exact iff_of_false (by simp [failed]) not

theorem get?_serve (location : Location) :
    (s.serve r).1.get? location =
      if (s.serve r).2 = true ∧ s.place? r.path = some location then
        some (.file r.text.toUTF8)
      else s.get? location := by
  rcases s.serve_cases r with ⟨granted, -, found, named, free, made⟩ | ⟨failed, -⟩
  · rw [made, get?_insert_free _ _ free, granted, named]
    simp
  · simp [failed]

theorem place?_serve (path : String) : (s.serve r).1.place? path = s.place? path := by
  rcases s.serve_cases r with ⟨-, -, location, -, free, made⟩ | ⟨failed, -⟩
  · rw [made]
    exact place?_eq (sameDirectories_insert free) path
  · rw [failed]

end Serve

theorem length_serveAll (s : Store) (rs : List Request) :
    (s.serveAll rs).2.length = rs.length := by
  induction rs generalizing s with
  | nil => rfl
  | cons r rs ih => simp [serveAll, ih]

theorem place?_serveAll (s : Store) (rs : List Request) (path : String) :
    (s.serveAll rs).1.place? path = s.place? path := by
  induction rs generalizing s with
  | nil => rfl
  | cons r rs ih => exact (ih (s.serve r).1).trans (s.place?_serve r path)

theorem get?_serveAll (s : Store) (rs : List Request) (location : Location) :
    (s.serveAll rs).1.get? location =
      ((s.lastTo location (rs.zip (s.serveAll rs).2)).map fun r => .file r.text.toUTF8).or
        (s.get? location) := by
  induction rs generalizing s with
  | nil => simp [serveAll, lastTo]
  | cons r rs ih =>
    have places : ∀ path, (s.serve r).1.place? path = s.place? path := s.place?_serve r
    have later := ih (s.serve r).1
    rw [s.get?_serve r location] at later
    simp only [lastTo, places] at later
    show ((s.serve r).1.serveAll rs).1.get? location = _
    rw [later]
    show _ = ((s.lastTo location ((r, (s.serve r).2) ::
      rs.zip ((s.serve r).1.serveAll rs).2)).map _).or _
    rw [lastTo_cons]
    simp only [lastTo]
    split <;> cases List.find? _ _ <;> simp

theorem contents?_serveAll (s : Store) (rs : List Request) (path : String) :
    (s.serveAll rs).1.contents? path =
      (((s.place? path).bind fun location => s.lastTo location (rs.zip (s.serveAll rs).2)).map
        fun r => r.text.toUTF8).or (s.contents? path) := by
  rw [contents?_eq, contents?_eq, s.place?_serveAll rs path]
  cases s.place? path with
  | none => rfl
  | some location =>
    simp only [Option.bind_some, s.get?_serveAll rs location]
    cases s.lastTo location (rs.zip (s.serveAll rs).2) <;> rfl

end Store

theorem ContextItem.text_ne_empty (i : ContextItem) : i.text ≠ "" := by
  cases i <;> simp [text, String.append_eq_empty_iff]

theorem LibraryUnit.render_ne_empty (u : LibraryUnit) (config : Config) (depth column : Nat) :
    u.doc.render config depth column ≠ "" := by
  cases u <;>
    simp [doc, Entity.doc, Architecture.doc, Package.doc, PackageBody.doc, Doc.block, Doc.region,
      Doc.render, String.append_eq_empty_iff]

theorem Design.render_eq_empty_iff (d : Design) (config : Config) :
    d.render config = "" ↔ d.context = [] ∧ d.units = [] := by
  obtain ⟨context, units⟩ := d
  cases units with
  | cons u us =>
    rw [Design.render_units context config (by simp), List.map_cons, ← append_join_eq_intercalate,
      LibraryUnit.textIn_eq]
    simp [String.append_eq_empty_iff, u.render_ne_empty]
  | nil =>
    cases context with
    | nil => simp [render, doc, ContextItem.clauseDoc, Doc.joined, Doc.empty, Doc.render]
    | cons item items =>
      have first := item.text_ne_empty
      simp [render, doc, ContextItem.clauseDoc, Doc.joined, Doc.render, first,
        String.append_eq_empty_iff]

def Text.behindLine (text : String) : List Char := (text.toList.dropWhile (· ≠ '\n')).drop 1

theorem Design.behindLine_fileText (rendered : String) :
    Text.behindLine (fileText rendered) =
      if rendered = "" then [] else rendered.toList ++ ['\n'] := by
  have line : ∀ c ∈ header.toList, decide (c ≠ '\n') = true :=
    List.all_eq_true.mp (by decide +kernel)
  have text : (fileText rendered).toList =
      header.toList ++ '\n' :: if rendered = "" then [] else rendered.toList ++ ['\n'] := by
    by_cases none : rendered = "" <;> simp [fileText, none]
  rw [Text.behindLine, text, List.dropWhile_append_of_pos line]
  simp

theorem Design.behindLine_inj (t u : String) :
    Text.behindLine (fileText t) = Text.behindLine (fileText u) ↔ t = u := by
  -- The rendered text is all but the last character.
  have told (t : String) : (Text.behindLine (fileText t)).dropLast = t.toList := by
    rw [behindLine_fileText]
    by_cases none : t = "" <;> simp [none]
  refine ⟨?_, fun same => same ▸ rfl⟩
  intro same
  rw [← String.toList_inj, ← told t, same, told]

/-- Each request is granted unless it is refused or its path names no file that could be made. After
all of them a location has the file of the last request granted for it, or else what it had before,
and so it is read at every path. A file is the header line and what was rendered, each with a line
break behind it. From what stands behind the header line the rendered text can be told, and it is
nothing exactly for the designs without context and units. -/
theorem Design.files_of_requests (s : Store) (rs : List Request) :
    let t := (s.serveAll rs).1
    let served := rs.zip (s.serveAll rs).2
    ((s.serveAll rs).2.length = rs.length ∧
      ∀ (u : Store) (r : Request), (u.serve r).2 = true ↔ r.refused = false ∧
        ∃ location, u.place? r.path = some location ∧ u.get? location ≠ some .directory) ∧
    (∀ location, t.get? location =
      ((s.lastTo location served).map fun r => .file r.text.toUTF8).or (s.get? location)) ∧
    (∀ path, t.contents? path =
      (((s.place? path).bind fun location => s.lastTo location served).map fun r =>
        r.text.toUTF8).or (s.contents? path)) ∧
    (∀ r : Request, r.text = header ++ "\n" ++
      if r.design.render r.config = "" then "" else r.design.render r.config ++ "\n") ∧
    (∀ a b, Text.behindLine (fileText a) = Text.behindLine (fileText b) ↔ a = b) ∧
    ∀ r : Request, r.text = header ++ "\n" ↔ r.design.context = [] ∧ r.design.units = [] := by
  intro t served
  have text (r : Request) : r.text = header ++ "\n" ++
      if r.design.render r.config = "" then "" else r.design.render r.config ++ "\n" := by
    simp [Request.text, fileText, String.isEmpty_iff]
  refine ⟨⟨s.length_serveAll rs, fun u r => u.granted_iff r⟩, s.get?_serveAll rs,
    s.contents?_serveAll rs, text, behindLine_inj, ?_⟩
  intro r
  rw [← render_eq_empty_iff r.design r.config, text]
  by_cases none : r.design.render r.config = "" <;> simp [none, ← String.toList_inj]

end Vhdl93
