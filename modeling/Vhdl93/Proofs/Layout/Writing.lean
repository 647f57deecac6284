import Vhdl93.Design.Layout
import Vhdl93.Layout.Step

set_option autoImplicit false

namespace Vhdl93

namespace Layout

inductive Kind where
  | fragment | list
  | design | context | unit
  | portClause | ports | portMap
  | object | typeDecl | subtypeDecl
  | blockItem | packageItem | packageBodyItem | subprogramItem | subprogram
  | sequential | alternative | concurrent
  -- Constructs of one kind, each on a line of its own.
  | many (kind : Kind)

namespace Kind

@[reducible] def Tree : Kind → Type
  | fragment => String
  | list => String × List String × String
  | design => Design
  | context => List ContextItem
  | unit => LibraryUnit
  | portClause => List Port
  -- The ports of a block or an entity that has any.
  | ports => { ps : List Port // ps ≠ [] }
  | portMap => List Association
  | object => ObjectClass × ObjectDecl
  | typeDecl => TypeDecl
  | subtypeDecl => SubtypeDecl
  | blockItem => BlockItem
  | packageItem => PackageItem
  | packageBodyItem => PackageBodyItem
  | subprogramItem => SubprogramItem
  | subprogram => SubprogramBody
  | sequential => Sequential
  | alternative => Alternative
  | concurrent => Concurrent
  | many κ => List κ.Tree

def doc : (κ : Kind) → κ.Tree → Doc
  | fragment => .text
  | list => fun (opening, items, closing) => .list opening items closing
  | design => Design.doc
  | context => ContextItem.clauseDoc
  | unit => LibraryUnit.doc
  | portClause => Port.clauseDoc
  | ports => fun ps => Port.clauseDoc ps.val
  | portMap => Association.mapDoc
  | object => fun (kind, d) => d.doc kind
  | typeDecl => TypeDecl.doc
  | subtypeDecl => SubtypeDecl.doc
  | blockItem => BlockItem.doc
  | packageItem => PackageItem.doc
  | packageBodyItem => PackageBodyItem.doc
  | subprogramItem => SubprogramItem.doc
  | subprogram => SubprogramBody.doc
  | sequential => Sequential.doc
  | alternative => Alternative.doc
  | concurrent => Concurrent.doc
  | many κ => fun xs => .lines (xs.map κ.doc)

def text (config : Config) (depth : Nat) (κ : Kind) (x : κ.Tree) : String :=
  (κ.doc x).render config depth (config.indentSize * depth)

end Kind

end Layout

namespace Doc

variable (config : Config) (depth column : Nat)

@[simp] theorem render_line :
    line.render config depth column = Text.breakWith (config.indentSize * depth) := rfl

theorem render_lines (ds : List Doc) :
    (lines ds).render config depth column =
      String.join (ds.map fun d => Text.breakWith (config.indentSize * depth) ++
        d.render config depth (config.indentSize * depth)) := by
  induction ds generalizing column with
  | nil => rfl
  | cons d ds ih =>
    have later := ih (Text.advance column ((Doc.line ++ d).render config depth column))
    have unfolded : lines (d :: ds) = (Doc.line ++ d) ++ lines ds := rfl
    rw [unfolded, render_append, later]
    simp [String.append_assoc]

end Doc

namespace Session

open Layout

theorem write_lines (s : Session) (ds : List Doc) :
    s.write (.lines ds) =
      .ok (s.push (String.join (ds.map fun d => Text.breakWith (s.config.indentSize * s.depth) ++
        d.render s.config s.depth (s.config.indentSize * s.depth)))) := by
  rw [write_eq, Doc.render_lines]

theorem depth_write {s t : Session} {doc : Doc} (written : s.write doc = .ok t) :
    t.depth = s.depth := by
  rw [write_eq, Except.ok.injEq] at written
  rw [← written]
  rfl

def indents (steps : List Step) : Nat :=
  steps.countP fun
    | .indent => true
    | _ => false

/-- The steps that dedent and were not refused. -/
def dedents (answered : List (Step × Reply)) : Nat :=
  answered.countP fun
    | (.dedent, .added _) => true
    | _ => false

theorem step_dedent (s : Session) :
    s.depth = 0 ∧ s.step .dedent = (s, .fault .outermost) ∨
      ∃ t, s.depth = t.depth + 1 ∧ s.step .dedent = (t, .added (t.addedSince s)) := by
  obtain ⟨config, depth, buffer⟩ := s
  cases depth with
  | zero => exact .inl ⟨rfl, rfl⟩
  | succ depth => exact .inr ⟨⟨config, depth, buffer⟩, rfl, rfl⟩

theorem step_depth (s : Session) (step : Step) :
    (s.step step).1.depth + dedents [(step, (s.step step).2)] = s.depth + indents [step] := by
  cases step with
  | push text => rfl
  | newline => rfl
  | indent => rfl
  | dedent =>
    rcases s.step_dedent with ⟨outermost, refused⟩ | ⟨t, deeper, done⟩
    · simp [refused, dedents, indents]
    · simp [done, deeper, dedents, indents]
  | fits text => rfl
  | write doc => rw [step_write]; rfl

theorem run_depth (s : Session) (steps : List Step) :
    (s.run steps).1.depth + dedents (steps.zip (s.run steps).2) = s.depth + indents steps := by
  induction steps generalizing s with
  | nil => rfl
  | cons first rest ih =>
    have one := s.step_depth first
    have later := ih (s.step first).1
    have earned : indents (first :: rest) = indents [first] + indents rest := by
      simp only [indents, List.countP_cons, List.countP_nil]
      omega
    have paid : dedents ((first :: rest).zip (s.run (first :: rest)).2) =
        dedents [(first, (s.step first).2)] +
          dedents (rest.zip ((s.step first).1.run rest).2) := by
      simp only [run, dedents, List.zip_cons_cons, List.countP_cons, List.countP_nil]
      omega
    have reached : (s.run (first :: rest)).1 = ((s.step first).1.run rest).1 := rfl
    rw [reached, earned, paid]
    omega

theorem length_run (s : Session) (steps : List Step) :
    (s.run steps).2.length = steps.length := by
  induction steps generalizing s with
  | nil => rfl
  | cons first rest ih => simp [run, ih]

/-- Every document is written in full and leaves the depth as it was. A dedent is refused exactly at
depth zero, where it changes nothing. A run gives an answer to each of its steps, and it moves the
depth, which a fresh session has at zero, by its indents less its dedents. -/
theorem run_balanced (s : Session) :
    (∀ doc : Doc, ∃ t, s.step (.write doc) = (t, .added (t.addedSince s)) ∧ t.depth = s.depth) ∧
      ((∃ fault, (s.step .dedent).2 = .fault fault) ↔ s.depth = 0) ∧
      (s.depth = 0 → (s.step .dedent).1 = s) ∧
      ∀ steps : List Step, (s.run steps).2.length = steps.length ∧
        ((s.run steps).1.depth : Int) =
          s.depth + indents steps - dedents (steps.zip (s.run steps).2) := by
  refine ⟨?_, ?_, ?_, ?_⟩
  · intro doc
    obtain ⟨t, written⟩ : ∃ t, s.write doc = .ok t := ⟨_, s.write_eq doc⟩
    exact ⟨t, by simp [step, written, attempt], depth_write written⟩
  · rcases s.step_dedent with ⟨outermost, refused⟩ | ⟨t, deeper, done⟩
    · exact ⟨fun _ => outermost, fun _ => ⟨.outermost, by rw [refused]⟩⟩
    · simp [done, deeper]
  · intro outermost
    rcases s.step_dedent with ⟨-, refused⟩ | ⟨t, deeper, -⟩
    · rw [refused]
    · omega
  · intro steps
    have balance := s.run_depth steps
    exact ⟨s.length_run steps, by omega⟩

end Session

/-- A construct is appended to what is written already, and texts that end in the same column get
the same addition. Constructs on lines of their own get one that no text before them changes: each
is a line break, the blanks of the depth, and a text that depends on the construct alone. -/
theorem Layout.writing_appends (config : Config) (depth : Nat) (b b' : String)
    (same : Text.column b = Text.column b') :
    (∀ (κ : Kind) (x : κ.Tree), ∃ added,
        Session.write ⟨config, depth, b⟩ (κ.doc x) = .ok ⟨config, depth, b ++ added⟩ ∧
        Session.write ⟨config, depth, b'⟩ (κ.doc x) = .ok ⟨config, depth, b' ++ added⟩) ∧
      ∀ (κ : Kind) (xs : List κ.Tree),
        Session.write ⟨config, depth, b⟩ (κ.many.doc xs) =
          .ok ⟨config, depth, b ++ String.join (xs.map fun x =>
            Text.breakWith (config.indentSize * depth) ++ κ.text config depth x)⟩ := by
  refine ⟨?_, ?_⟩
  · intro κ x
    refine ⟨(κ.doc x).render config depth (Text.column b), Session.write_eq _ _, ?_⟩
    rw [Session.write_eq, same]
    rfl
  · intro κ xs
    have written := Session.write_lines ⟨config, depth, b⟩ (xs.map κ.doc)
    rw [List.map_map] at written
    exact written

theorem Layout.same_addition_of_call :
    let argument := fun s => Association.positional (.name (.simple (.basic s)))
    let call := Sequential.call (.simple (.basic "put")) (["first", "second"].map argument)
    Text.column "begin\n  " = Text.column "  " ∧
      ∃ added,
        Session.write ⟨⟨12, 2⟩, 1, "begin\n  "⟩ call.doc = .ok ⟨⟨12, 2⟩, 1, "begin\n  " ++ added⟩ ∧
        Session.write ⟨⟨12, 2⟩, 1, "  "⟩ call.doc = .ok ⟨⟨12, 2⟩, 1, "  " ++ added⟩ := by
  intro argument call
  have same : Text.column "begin\n  " = Text.column "  " := by decide
  exact ⟨same, (Layout.writing_appends ⟨12, 2⟩ 1 _ _ same).1 .sequential call⟩

end Vhdl93
