import Vhdl93.Proofs.Layout.Lines

set_option autoImplicit false

namespace Vhdl93

namespace Text

def breaks (t : String) : Nat := t.toList.count '\n'

@[simp] theorem breaks_append (s t : String) : breaks (s ++ t) = breaks s + breaks t := by
  simp [breaks]

@[simp] theorem breaks_breakWith (n : Nat) : breaks (breakWith n) = 1 := by
  simp [breaks, breakWith, List.count_replicate]

theorem breaks_join_le {α : Type} {f g : α → String} {xs : List α}
    (each : ∀ x ∈ xs, breaks (f x) ≤ breaks (g x)) :
    breaks (String.join (xs.map f)) ≤ breaks (String.join (xs.map g)) := by
  induction xs with
  | nil => exact Nat.le_refl _
  | cons x xs ih =>
    have first := each x List.mem_cons_self
    have later := ih fun y member => each y (List.mem_cons_of_mem _ member)
    simp only [List.map_cons, String.join_cons, breaks_append]
    omega

theorem breaks_intercalate_le {α : Type} {f g : α → String} (s : String) {xs : List α}
    (each : ∀ x ∈ xs, breaks (f x) ≤ breaks (g x)) :
    breaks (s.intercalate (xs.map f)) ≤ breaks (s.intercalate (xs.map g)) := by
  cases xs with
  | nil => exact Nat.le_refl _
  | cons x xs =>
    have first := each x List.mem_cons_self
    have later : breaks (String.join (xs.map fun x => s ++ f x)) ≤
        breaks (String.join (xs.map fun x => s ++ g x)) :=
      breaks_join_le fun y member => by
        have next := each y (List.mem_cons_of_mem _ member)
        simp only [breaks_append]
        omega
    simp only [List.map_cons, ← append_join_eq_intercalate, List.map_map, breaks_append]
    exact Nat.add_le_add first later

theorem advance_oneLine (column : Nat) {t : String} (line : '\n' ∉ t.toList) :
    advance column t = column + t.length := by
  rw [← String.length_toList, advance]
  generalize t.toList = cs at line
  induction cs generalizing column with
  | nil => rfl
  | cons c cs ih =>
    simp only [List.mem_cons, not_or] at line
    have step : advanceChar column c = column + 1 := by simp [advanceChar, Ne.symm line.1]
    rw [List.foldl_cons, ih _ line.2, step, List.length_cons]
    omega

theorem foldl_advanceChar_le {w : Nat} {line : List Char} {lines : List (List Char)}
    (front back : List Char) (column : Nat) (cut : (front ++ back).splitOn '\n' = line :: lines)
    (first : column + line.length ≤ w) (later : ∀ l ∈ lines, l.length ≤ w) :
    front.foldl advanceChar column ≤ w := by
  induction front generalizing column line lines with
  | nil =>
    show column ≤ w
    omega
  | cons c front ih =>
    obtain ⟨next, rest, tail⟩ := List.exists_cons_of_ne_nil
      (List.splitOn_ne_nil '\n' (front ++ back))
    rw [List.cons_append, List.splitOn_cons_eq_if_modifyHead, tail] at cut
    rw [List.foldl_cons]
    by_cases newline : c = '\n'
    · simp only [newline, beq_self_eq_true, if_true, List.cons.injEq] at cut
      obtain ⟨rfl, rfl⟩ := cut
      have fits := later next List.mem_cons_self
      apply ih _ tail
      · simpa [advanceChar, newline] using fits
      · exact fun l member => later l (List.mem_cons_of_mem _ member)
    · simp only [beq_iff_eq, newline, if_false, List.modifyHead_cons, List.cons.injEq] at cut
      obtain ⟨rfl, rfl⟩ := cut
      apply ih _ tail
      · simp only [advanceChar, newline, if_false, List.length_cons] at first ⊢
        omega
      · exact later

theorem column_le_of_lines {w : Nat} {t : String} (each : ∀ l ∈ lines t, l.length ≤ w)
    {front back : String} (split : t = front ++ back) : column front ≤ w := by
  obtain ⟨line, rest, cut⟩ := List.exists_cons_of_ne_nil
    (List.splitOn_ne_nil '\n' (front.toList ++ back.toList))
  have bounded : ∀ l ∈ line :: rest, l.length ≤ w := by
    intro l member
    have whole := each (String.ofList l)
    rw [lines, split, String.toList_append, cut] at whole
    simpa using whole (List.mem_map_of_mem member)
  refine foldl_advanceChar_le front.toList back.toList 0 cut ?_ ?_
  · simpa using bounded line List.mem_cons_self
  · exact fun l member => bounded l (List.mem_cons_of_mem _ member)

end Text

namespace Doc

theorem breaks_flat_le (config : Config) (depth column : Nat) (d : Doc) :
    Text.breaks d.flat ≤ Text.breaks (d.render config depth column) := by
  induction d generalizing depth column with
  | text s => exact Nat.le_refl _
  | line =>
    have one : Text.breaks "\n" = 1 := rfl
    simp [flat, render, one]
  | space => simp [flat, Text.breaks]
  | soft => simp [flat, Text.breaks]
  | nest d ih => exact ih (depth + 1) column
  | cat a b first second =>
    have left := first depth column
    have right := second depth (Text.advance column (a.render config depth column))
    simp only [flat, render, Text.breaks_append]
    omega
  | group d ih =>
    rw [render]
    split
    · exact Nat.le_refl _
    · exact ih depth column

/-- Of a document of rows, a wider line has no more line breaks, and both widths come to the same
column where the next row starts. -/
theorem Rows.breaks_le {T : String → Prop} {p q : Cursor} {d : Doc} {narrow wide : Config}
    (rows : d.Rows T p q) (same : narrow.indentSize = wide.indentSize)
    (le : narrow.lineWidth ≤ wide.lineWidth) (depth : Nat) {column column' : Nat}
    (start : p = .start → column = column') :
    Text.breaks (d.render wide depth column') ≤ Text.breaks (d.render narrow depth column) ∧
      (q = .start → Text.advance column (d.render narrow depth column) =
        Text.advance column' (d.render wide depth column')) := by
  induction rows generalizing depth column column' with
  | none p => exact ⟨Nat.le_refl _, by simpa [empty, render] using start⟩
  | row => exact ⟨Nat.le_refl _, by simp⟩
  | line => simp [render, same]
  | body _ _ _ each =>
    refine ⟨?_, by simp⟩
    simp only [render, render_lines, same]
    apply Text.breaks_join_le
    intro d member
    -- Each row starts behind the indentation, at both widths.
    have inner := @each d member (depth + 1) (wide.indentSize * (depth + 1)) _ fun _ => rfl
    simpa using inner.1
  | @group d opened slack written _ _ broken =>
    obtain rfl := start rfl
    refine ⟨?_, by simp⟩
    rw [render, render]
    split
    · split
      · exact Nat.le_refl _
      · exact breaks_flat_le narrow depth column d
    · rw [if_neg (by omega), written, written]
      exact (broken depth fun _ => rfl).1
  | cat _ _ first second =>
    obtain ⟨left, behind⟩ := first depth start
    obtain ⟨right, last⟩ := second depth behind
    simp only [render_append, Text.breaks_append, Text.advance_append]
    exact ⟨by omega, last⟩
  | loosen _ _ ih => exact ⟨(ih depth start).1, by simp⟩

def Unbroken (config : Config) (depth column : Nat) : Doc → Prop
  | .text _ | .line | .space | .soft => True
  | .nest d => d.Unbroken config (depth + 1) column
  | .cat a b =>
      a.Unbroken config depth column ∧
        b.Unbroken config depth (Text.advance column (a.render config depth column))
  | .group d => column + d.flat.length ≤ config.lineWidth

instance Unbroken.decidable (config : Config) :
    (depth column : Nat) → (d : Doc) → Decidable (d.Unbroken config depth column)
  | _, _, .text _ | _, _, .line | _, _, .space | _, _, .soft => .isTrue trivial
  | depth, column, .nest d => Unbroken.decidable config (depth + 1) column d
  | depth, column, .cat a b =>
      have := Unbroken.decidable config depth column a
      have := Unbroken.decidable config depth
        (Text.advance column (a.render config depth column)) b
      inferInstanceAs (Decidable (_ ∧ _))
  | _, _, .group _ => inferInstanceAs (Decidable (_ ≤ _))

/-- The one-line texts of the groups that are in no other group. -/
def EachGroup (T : String → Prop) : Doc → Prop
  | .text _ | .line | .space | .soft => True
  | .nest d => d.EachGroup T
  | .cat a b => a.EachGroup T ∧ b.EachGroup T
  | .group d => T d.flat

variable {size depth column w wide : Nat} {d : Doc}

theorem Unbroken.wider (unbroken : d.Unbroken ⟨w, size⟩ depth column) (le : w ≤ wide) :
    d.Unbroken ⟨wide, size⟩ depth column ∧
      d.render ⟨wide, size⟩ depth column = d.render ⟨w, size⟩ depth column := by
  induction d generalizing depth column with
  | text s => exact ⟨trivial, rfl⟩
  | line => exact ⟨trivial, rfl⟩
  | space => exact ⟨trivial, rfl⟩
  | soft => exact ⟨trivial, rfl⟩
  | nest d ih => exact ih unbroken
  | cat a b first second =>
    obtain ⟨left, sameLeft⟩ := first unbroken.1
    obtain ⟨right, sameRight⟩ := second unbroken.2
    simp only [Unbroken, render, sameLeft]
    exact ⟨⟨left, right⟩, by rw [sameRight]⟩
  | group d ih =>
    have fits : column + d.flat.length ≤ w := unbroken
    have fits' : column + d.flat.length ≤ wide := by omega
    exact ⟨fits', by simp [render, fits, fits']⟩

theorem exists_unbroken (size depth column : Nat) (d : Doc) :
    ∃ w, d.Unbroken ⟨w, size⟩ depth column := by
  induction d generalizing depth column with
  | text s => exact ⟨0, trivial⟩
  | line => exact ⟨0, trivial⟩
  | space => exact ⟨0, trivial⟩
  | soft => exact ⟨0, trivial⟩
  | nest d ih => exact ih (depth + 1) column
  | cat a b first second =>
    obtain ⟨w, left⟩ := first depth column
    obtain ⟨w', right⟩ := second depth (Text.advance column (a.render ⟨w, size⟩ depth column))
    obtain ⟨left', same⟩ := left.wider (Nat.le_max_left w w')
    obtain ⟨right', -⟩ := right.wider (Nat.le_max_right w w')
    exact ⟨max w w', left', by rwa [same]⟩
  | group d ih => exact ⟨column + d.flat.length, Nat.le_refl _⟩

theorem Unbroken.render_eq (unbroken : d.Unbroken ⟨wide, size⟩ depth column)
    (lines : d.EachGroup (Care.Row .oneLine))
    (bounded : ∀ front back, d.render ⟨wide, size⟩ depth column = front ++ back →
      Text.advance column front ≤ w) :
    d.render ⟨w, size⟩ depth column = d.render ⟨wide, size⟩ depth column := by
  induction d generalizing depth column with
  | text s => rfl
  | line => rfl
  | space => rfl
  | soft => rfl
  | nest d ih => exact ih unbroken lines bounded
  | cat a b first second =>
    have left := first unbroken.1 lines.1 fun front back split => by
      apply bounded front (back ++ _)
      rw [render, split, String.append_assoc]
    have right := second unbroken.2 lines.2 fun front back split => by
      rw [← Text.advance_append]
      apply bounded _ back
      rw [render, split, String.append_assoc]
    simp only [render, left, right]
  | group d ih =>
    have fits : column + d.flat.length ≤ wide := unbroken
    have chosen : (group d).render ⟨wide, size⟩ depth column = d.flat := by simp [render, fits]
    have narrow : column + d.flat.length ≤ w := by
      rw [← Text.advance_oneLine column lines.oneLine]
      exact bounded d.flat "" (by simp [chosen])
    rw [chosen]
    simp [render, narrow]

theorem eachGroup_concat {T : String → Prop} {ds : List Doc} (each : ∀ d ∈ ds, d.EachGroup T) :
    (concat ds).EachGroup T := by
  induction ds with
  | nil => trivial
  | cons d ds ih =>
    exact ⟨each d List.mem_cons_self, ih fun e member => each e (List.mem_cons_of_mem _ member)⟩

theorem Rows.eachGroup {T : String → Prop} {p q : Cursor} (rows : d.Rows T p q) :
    d.EachGroup T := by
  induction rows with
  | none => trivial
  | row => trivial
  | line => trivial
  | body _ _ _ each =>
    exact eachGroup_concat (List.forall_mem_map.mpr fun d member => ⟨trivial, each d member⟩)
  | group _ _ flat => exact flat
  | cat _ _ first second => exact ⟨first, second⟩
  | loosen _ _ ih => exact ih

end Doc

open Doc

theorem ContextItem.rows_clause {care : Care} {items : List ContextItem}
    (ok : ∀ i ∈ items, care.Trusts (i.passes care.checks)) :
    ∃ q, Rows care.Row .start (ContextItem.clauseDoc items) q := by
  cases items with
  | nil => exact ⟨_, .none .start⟩
  | cons item items => exact ⟨_, ContextItem.rows_clauseDoc (by simp) ok⟩

theorem Design.breaks_le (d : Design) {narrow wide : Config}
    (same : narrow.indentSize = wide.indentSize) (le : narrow.lineWidth ≤ wide.lineWidth) :
    Text.breaks (d.render wide) ≤ Text.breaks (d.render narrow) := by
  obtain ⟨context, units⟩ := d
  have free : ∀ outcome, Care.free.Trusts outcome := fun _ asked => absurd rfl asked
  by_cases none : units = []
  · subst none
    obtain ⟨q, rows⟩ := ContextItem.rows_clause fun i (_ : i ∈ context) => free _
    exact (rows.breaks_le same le 0 fun _ => rfl).1
  · rw [Design.render_units context wide none, Design.render_units context narrow none]
    apply Text.breaks_intercalate_le
    intro u _
    have rows := LibraryUnit.rows_docIn (fun i (_ : i ∈ context) => free _) (free (u.passes _))
    exact (rows.breaks_le same le 0 fun _ => rfl).1

theorem Design.eachGroup {d : Design} (ok : d.passes Checks.oneLine = true) :
    d.doc.EachGroup (Care.Row .oneLine) := by
  obtain ⟨context, units⟩ := d
  simp only [Design.passes, Bool.and_eq_true, List.all_eq_true] at ok
  have items : ∀ i ∈ context, Care.oneLine.Trusts (i.passes Care.oneLine.checks) :=
    fun i member _ => ok.1 i member
  have unit : ∀ u ∈ units, (u.docIn context).EachGroup (Care.Row .oneLine) :=
    fun u member => (LibraryUnit.rows_docIn items fun _ => ok.2 u member).eachGroup
  cases units with
  | nil =>
    obtain ⟨q, rows⟩ := ContextItem.rows_clause items
    exact rows.eachGroup
  | cons first rest =>
    refine ⟨unit first List.mem_cons_self, eachGroup_concat (List.forall_mem_map.mpr ?_)⟩
    intro u member
    exact ⟨⟨trivial, trivial⟩, unit u (List.mem_cons_of_mem _ member)⟩

/-- A wider line does not add line breaks. From some width on no group is broken, and if no text has
a line break of its own, this layout stays as it is at every width that holds each of its lines. -/
theorem Design.render_wider (d : Design) (size : Nat) :
    (∀ w w', w ≤ w' → Text.breaks (d.render ⟨w', size⟩) ≤ Text.breaks (d.render ⟨w, size⟩)) ∧
      (∃ wide, ∀ w, wide ≤ w → d.doc.Unbroken ⟨w, size⟩ 0 0) ∧
      ∀ wide w, d.doc.Unbroken ⟨wide, size⟩ 0 0 → d.passes Checks.oneLine = true →
        (∀ line ∈ Text.lines (d.render ⟨wide, size⟩), line.length ≤ w) →
        d.render ⟨w, size⟩ = d.render ⟨wide, size⟩ := by
  refine ⟨fun w w' le => d.breaks_le rfl le, ?_, ?_⟩
  · obtain ⟨wide, unbroken⟩ := exists_unbroken size 0 0 d.doc
    exact ⟨wide, fun w le => (unbroken.wider le).1⟩
  · intro wide w unbroken ok bounded
    exact unbroken.render_eq (Design.eachGroup ok) fun front back split =>
      Text.column_le_of_lines bounded split

/-- The longest line of this package has 21 characters, and at that width nothing breaks yet. -/
theorem Design.render_at_longest_line :
    let d : Design := ⟨[], [.package ⟨.basic "p", [.typeDecl ⟨.basic "t",
      .enumeration [.ident (.basic "a"), .ident (.basic "b")]⟩]⟩]⟩
    Text.breaks (d.render ⟨80, 4⟩) ≤ Text.breaks (d.render ⟨20, 4⟩) ∧
      d.render ⟨20, 4⟩ ≠ d.render ⟨80, 4⟩ ∧ d.render ⟨21, 4⟩ = d.render ⟨80, 4⟩ := by
  intro d
  have unbroken : d.doc.Unbroken ⟨80, 4⟩ 0 0 := by decide +kernel
  have ok : d.passes Checks.oneLine = true := by decide +kernel
  have lines : ∀ line ∈ Text.lines (d.render ⟨80, 4⟩), line.length ≤ 21 := by decide +kernel
  obtain ⟨fewer, -, kept⟩ := Design.render_wider d 4
  exact ⟨fewer 20 80 (by decide), by decide +kernel, kept 80 21 unbroken ok lines⟩

end Vhdl93
