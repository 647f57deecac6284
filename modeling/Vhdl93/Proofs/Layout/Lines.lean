import Mathlib.Data.List.Chain
import Vhdl93.Proofs.Layout.Rows
import Vhdl93.Proofs.Layout.Unitwise

set_option autoImplicit false

namespace Vhdl93

namespace Text

def lines (t : String) : List String := (t.toList.splitOn '\n').map String.ofList

theorem lines_gap (s t : String) : lines (s ++ "\n\n" ++ t) = lines s ++ "" :: lines t := by
  simp [lines, List.splitOn_append_cons_self, List.splitOn_cons_eq_if_modifyHead]

theorem lines_intercalate {ls : List String} (some : ls ≠ [])
    (each : ∀ l ∈ ls, '\n' ∉ l.toList) : lines ("\n".intercalate ls) = ls := by
  have parts : ("\n".intercalate ls).toList.splitOn '\n' = ls.map String.toList := by
    rw [String.toList_intercalate]
    exact List.splitOn_intercalate '\n' (List.forall_mem_map.mpr each) (by simpa using some)
  rw [lines, parts, List.map_map]
  simp [Function.comp_def]

end Text

namespace Layout

structure Line where
  depth : Nat
  text : String

def Line.render (size : Nat) (l : Line) : String :=
  String.ofList (List.replicate (size * l.depth) ' ') ++ l.text

/-- From a line to the next the depth rises by at most one and falls by at most two. -/
def Line.Step (l m : Line) : Prop := m.depth ≤ l.depth + 1 ∧ l.depth ≤ m.depth + 2

def page (size : Nat) (ls : List Line) : String := "\n".intercalate (ls.map (Line.render size))

structure Begun (ls : List Line) : Prop where
  tidy : ∀ l ∈ ls, Text.Tidy l.text
  first : ls.head?.map Line.depth = some 0
  steps : ls.IsChain Line.Step

structure Paragraph (ls : List Line) : Prop extends Begun ls where
  last : ls.getLast?.map Line.depth = some 0

variable {size depth slack : Nat} {t s : String} {ls : List Line} {l : Line}

theorem Begun.ne_nil (begun : Begun ls) : ls ≠ [] := by
  rintro rfl
  cases begun.first

theorem Line.render_ne_empty (tidy : Text.Tidy l.text) : l.render size ≠ "" := by
  simp [Line.render, tidy.nonempty]

theorem Line.render_oneLine (tidy : Text.Tidy l.text) : '\n' ∉ (l.render size).toList := by
  simp [Line.render, tidy.oneLine]

theorem page_append {ms : List Line} (front : ls ≠ []) (back : ms ≠ []) :
    page size (ls ++ ms) = page size ls ++ "\n" ++ page size ms := by
  rw [page, List.map_append]
  exact String.intercalate_append_of_ne_nil (by simpa using front) (by simpa using back)

theorem page_singleton (l : Line) : page size [l] = l.render size := by
  simp [page]

theorem lines_page (begun : Begun ls) : Text.lines (page size ls) = ls.map (Line.render size) := by
  apply Text.lines_intercalate
  · simpa using begun.ne_nil
  · exact List.forall_mem_map.mpr fun l member => Line.render_oneLine (begun.tidy l member)

section Written

/-- The text is that of begun lines, the last of which is at most `slack` levels deeper. -/
def Ended (size depth slack : Nat) (t : String) : Prop :=
  ∃ ls l, t = page size (ls ++ [l]) ∧ Begun (ls ++ [l]) ∧ depth ≤ l.depth ∧ l.depth ≤ depth + slack

/-- The text up to a cursor. At the start of a line, any tidy text may end it. -/
def Reached (size depth : Nat) : Cursor → String → Prop
  | .start, t => ∀ s, Text.Tidy s → Ended size depth 0 (t ++ s)
  | .behind slack, t => Ended size depth slack t

theorem Ended.within {depth' slack' : Nat} (ended : Ended size depth slack t)
    (above : depth' ≤ depth) (deep : depth + slack ≤ depth' + slack') :
    Ended size depth' slack' t := by
  obtain ⟨ls, l, text, begun, low, high⟩ := ended
  exact ⟨ls, l, text, begun, by omega, by omega⟩

theorem reached_nothing : Reached size 0 .start "" := by
  intro s tidy
  refine ⟨[], ⟨0, s⟩, ?_, ⟨?_, rfl, ?_⟩, Nat.le_refl 0, Nat.le_refl 0⟩
  · simp [page_singleton, Line.render]
  · simpa using tidy
  · simp

theorem Ended.next (ended : Ended size depth slack t) (target : Nat) (rise : target ≤ depth + 1)
    (fall : depth + slack ≤ target + 2) :
    Reached size target .start (t ++ Text.breakWith (size * target)) := by
  intro s tidy
  obtain ⟨ls, l, text, begun, low, high⟩ := ended
  have step : Line.Step l ⟨target, s⟩ := ⟨by simp only; omega, by simp only; omega⟩
  refine ⟨ls ++ [l], ⟨target, s⟩, ?_, ⟨?_, ?_, ?_⟩, Nat.le_refl _, Nat.le_refl _⟩
  · rw [page_append (by simp) (by simp), ← text, page_singleton]
    apply String.toList_injective
    simp [Text.breakWith, Line.render]
  · intro m member
    rcases List.mem_append.mp member with front | back
    · exact begun.tidy m front
    · rw [List.mem_singleton.mp back]
      exact tidy
  · have first := begun.first
    cases ls <;> simpa using first
  · refine List.isChain_append.mpr ⟨begun.steps, by simp, ?_⟩
    simpa using step

theorem Ended.body {config : Config} {inner : Nat} {ds : List Doc}
    (ended : Ended config.indentSize depth slack t) (wide : inner + 1 ≤ slack) (near : slack ≤ 3)
    (each : ∀ d ∈ ds, ∀ column t, Reached config.indentSize (depth + 1) .start t →
      Ended config.indentSize (depth + 1) inner (t ++ d.render config (depth + 1) column))
    (column : Nat) :
    Ended config.indentSize depth slack
      (t ++ (Doc.nest (.lines ds)).render config depth column) := by
  rw [Doc.render, Doc.render_lines]
  induction ds generalizing t with
  | nil => simpa using ended
  | cons d ds ih =>
    have opened := ended.next (depth + 1) (by omega) (by omega)
    have written := (each d List.mem_cons_self (config.indentSize * (depth + 1)) _ opened).within
      (Nat.le_succ depth) (show depth + 1 + inner ≤ depth + slack by omega)
    have later := ih written fun d member => each d (List.mem_cons_of_mem _ member)
    simpa [String.append_assoc] using later

theorem Reached.render {p q : Cursor} {d : Doc} {config : Config}
    (reached : Reached config.indentSize depth p t) (rows : d.Rows (Care.Row .tidy) p q)
    (column : Nat) : Reached config.indentSize depth q (t ++ d.render config depth column) := by
  induction rows generalizing depth column t with
  | none p => simpa [Doc.empty, Doc.render] using reached
  | row row => exact reached _ row.tidy
  | line near => exact Ended.next reached depth (by omega) (by omega)
  | @body slack inner ds _ near deep each =>
    -- The last line may be that of the text or one of the body, whichever is deeper.
    have ended : Ended config.indentSize depth (max slack (inner + 1)) t :=
      Ended.within reached (Nat.le_refl depth) (by omega)
    exact ended.body (by omega) (by omega)
      (fun d member column t start => each d member start column) column
  | group same _ flat broken =>
    rw [Doc.render]
    split
    · exact Ended.within (reached _ flat.tidy) (Nat.le_refl depth) (by omega)
    · rw [same]
      exact broken reached column
  | cat _ _ first second =>
    rw [Doc.render_append, ← String.append_assoc]
    exact second (first reached column) _
  | loosen _ le ended =>
    exact Ended.within (ended reached column) (Nat.le_refl depth) (by omega)

theorem paragraph_of_rows {d : Doc} (rows : d.Rows (Care.Row .tidy) .start (.behind 0))
    (config : Config) : ∃ ls, d.render config 0 0 = page config.indentSize ls ∧ Paragraph ls := by
  obtain ⟨ls, l, text, begun, -, low⟩ := reached_nothing.render rows 0
  refine ⟨ls ++ [l], by simpa using text, begun, ?_⟩
  simpa using low

end Written

section Spread

theorem Paragraph.append {ms : List Line} (front : Paragraph ls) (back : Paragraph ms) :
    Paragraph (ls ++ ms) where
  tidy l member := by
    rcases List.mem_append.mp member with left | right
    · exact front.tidy l left
    · exact back.tidy l right
  first := by
    rw [List.head?_append_of_ne_nil _ front.ne_nil]
    exact front.first
  steps := by
    refine List.isChain_append.mpr ⟨front.steps, back.steps, fun l last m first => ?_⟩
    have low := front.last
    have high := back.first
    simp only [Option.mem_def] at last first
    simp only [last, first, Option.map_some, Option.some.injEq] at low high
    exact ⟨by omega, by omega⟩
  last := by
    rw [List.getLast?_append_of_ne_nil _ back.ne_nil]
    exact back.last

/-- Paragraphs with one empty line between each and the next. -/
structure Spread (size : Nat) (ps : List (List Line)) (t : String) : Prop where
  lines : Text.lines t = [""].intercalate (ps.map (List.map (Line.render size)))
  empty : (Text.lines t).count "" + 1 = ps.length
  each : ∀ p ∈ ps, Paragraph p
  whole : Paragraph ps.flatten
  closed : ∃ c, t.toList.getLast? = some c ∧ c ≠ '\n'

theorem page_ends (ls : List Line) (l : Line) :
    ∃ before, page size (ls ++ [l]) = before ++ l.text := by
  by_cases front : ls = []
  · exact ⟨_, by rw [front, List.nil_append, page_singleton, Line.render]⟩
  · refine ⟨page size ls ++ "\n" ++ String.ofList (List.replicate (size * l.depth) ' '), ?_⟩
    rw [page_append front (by simp), page_singleton, Line.render, ← String.append_assoc]

theorem Paragraph.closed (paragraph : Paragraph ls) :
    ∃ c, (page size ls).toList.getLast? = some c ∧ c ≠ '\n' := by
  obtain ⟨front, l, rfl⟩ := (List.eq_nil_or_concat' ls).resolve_left paragraph.ne_nil
  obtain ⟨before, text⟩ := @page_ends size front l
  have tidy := paragraph.tidy l (by simp)
  have some : l.text.toList ≠ [] := by simpa using tidy.nonempty
  refine ⟨l.text.toList.getLast some, ?_, ?_⟩
  · rw [text, String.toList_append, List.getLast?_append_of_ne_nil _ some]
    exact List.getLast?_eq_some_getLast some
  · intro newline
    exact tidy.oneLine (newline ▸ List.getLast_mem some)

theorem Paragraph.count_empty (paragraph : Paragraph ls) :
    (ls.map (Line.render size)).count "" = 0 := by
  rw [List.count_eq_zero]
  intro member
  obtain ⟨l, inside, empty⟩ := List.mem_map.mp member
  exact Line.render_ne_empty (paragraph.tidy l inside) empty

theorem Paragraph.spread (paragraph : Paragraph ls) : Spread size [ls] (page size ls) where
  lines := by simp [lines_page paragraph.toBegun]
  empty := by rw [lines_page paragraph.toBegun, paragraph.count_empty]; rfl
  each := by simpa using paragraph
  whole := by simpa using paragraph
  closed := paragraph.closed

theorem Spread.cons {ps : List (List Line)} (paragraph : Paragraph ls) (spread : Spread size ps t)
    (some : ps ≠ []) : Spread size (ls :: ps) (page size ls ++ "\n\n" ++ t) := by
  have lines : Text.lines (page size ls ++ "\n\n" ++ t) =
      ls.map (Line.render size) ++ "" :: Text.lines t := by
    rw [Text.lines_gap, lines_page paragraph.toBegun]
  refine ⟨?_, ?_, ?_, ?_, ?_⟩
  · obtain ⟨p, ps, rfl⟩ := List.exists_cons_of_ne_nil some
    rw [lines, spread.lines]
    simp
  · have later := spread.empty
    simp only [lines, List.count_append, paragraph.count_empty, List.count_cons_self,
      List.length_cons]
    omega
  · exact List.forall_mem_cons.mpr ⟨paragraph, spread.each⟩
  · exact paragraph.append spread.whole
  · obtain ⟨c, last, other⟩ := spread.closed
    refine ⟨c, ?_, other⟩
    simp [List.getLast?_append, List.getLast?_cons, last]

theorem spread_of_paragraphs {ts : List String} (some : ts ≠ [])
    (each : ∀ t ∈ ts, ∃ ls, t = page size ls ∧ Paragraph ls) :
    ∃ ps, ps.map (page size) = ts ∧ Spread size ps ("\n\n".intercalate ts) := by
  induction ts with
  | nil => exact absurd rfl some
  | cons t ts ih =>
    obtain ⟨ls, rfl, paragraph⟩ := each t List.mem_cons_self
    cases ts with
    | nil => exact ⟨[ls], rfl, by simpa using paragraph.spread⟩
    | cons u ts =>
      obtain ⟨ps, pages, spread⟩ := ih (by simp) fun t member =>
        each t (List.mem_cons_of_mem _ member)
      have more : ps ≠ [] := by
        rintro rfl
        cases pages
      refine ⟨ls :: ps, by simp [pages], ?_⟩
      rw [String.intercalate_cons_cons]
      exact .cons paragraph spread more

end Spread

end Layout

open Layout

/-- A design whose identifiers are accepted and whose literals hold no line break has a depth for
each of its lines. Each unit is a paragraph, or else the context is. -/
theorem Design.lines_of_render (d : Design) (config : Config)
    (some : d.context ≠ [] ∨ d.units ≠ []) (ok : d.passes Checks.tidy = true) :
    ∃ ps : List (List Line), Spread config.indentSize ps (d.render config) ∧
      (Text.lines (d.render config)).count "" = d.units.length - 1 ∧
      (d.units ≠ [] → ps.map (page config.indentSize) =
        d.units.map fun u => (Design.mk d.context [u]).render config) := by
  obtain ⟨context, units⟩ := d
  simp only [Design.passes, Bool.and_eq_true, List.all_eq_true] at ok
  have items : ∀ i ∈ context, Care.tidy.Trusts (i.passes Care.tidy.checks) :=
    fun i member _ => ok.1 i member
  by_cases none : units = []
  -- Without a unit the context is all there is, and it is not empty.
  · subst none
    have clause := ContextItem.rows_clauseDoc (by simpa using some) items
    obtain ⟨ls, text, paragraph⟩ := paragraph_of_rows clause config
    have spread : Spread config.indentSize [ls] ((Design.mk context []).render config) := by
      rw [Design.render, Design.doc, text]
      exact paragraph.spread
    have empty := spread.empty
    exact ⟨[ls], spread, by simpa using empty, by simp⟩
  · have texts : ∀ t ∈ units.map (LibraryUnit.textIn context config),
        ∃ ls, t = page config.indentSize ls ∧ Paragraph ls :=
      List.forall_mem_map.mpr fun u member =>
        paragraph_of_rows (LibraryUnit.rows_docIn items fun _ => ok.2 u member) config
    obtain ⟨ps, pages, spread⟩ := spread_of_paragraphs (by simpa using none) texts
    rw [← Design.render_units context config none] at spread
    have count : ps.length = units.length := by simpa using congrArg List.length pages
    have empty := spread.empty
    refine ⟨ps, spread, by simp only; omega, fun _ => ?_⟩
    simp only [pages, Design.render_single]

theorem Design.lines_of_two_units :
    let unit := fun s => LibraryUnit.entity ⟨.basic s, [⟨.basic "clk", .input, .basic "bit"⟩]⟩
    let d : Design := ⟨[.library (.basic "ieee")], [unit "a", unit "b"]⟩
    d.passes Checks.tidy = true ∧ (∃ ps, Spread 4 ps (d.render {})) ∧
      (Text.lines (d.render {})).count "" = 1 := by
  intro unit d
  have ok : d.passes Checks.tidy = true := by decide +kernel
  obtain ⟨ps, spread, empty, -⟩ := Design.lines_of_render d {} (.inr (by simp [d])) ok
  exact ⟨ok, ⟨ps, spread⟩, empty⟩

end Vhdl93
