import Vhdl93.Proofs.Layout.Width

set_option autoImplicit false

namespace Vhdl93

def LibraryUnit.textIn (context : List ContextItem) (config : Config) (u : LibraryUnit) : String :=
  (u.docIn context).render config 0 0

theorem Text.breakWith_zero : breakWith 0 = "\n" := rfl

theorem LibraryUnit.render_later (context : List ContextItem) (config : Config)
    (us : List LibraryUnit) (column : Nat) :
    (Doc.concat (us.map fun u => .text "\n" ++ .line ++ u.docIn context)).render config 0 column =
      String.join (us.map fun u => "\n\n" ++ u.textIn context config) := by
  induction us generalizing column with
  | nil => rfl
  | cons u us ih =>
    have gap : "\n" ++ Text.breakWith (config.indentSize * 0) = "\n\n" := rfl
    rw [List.map_cons, Doc.concat, Doc.render_append, ih]
    simp only [Doc.render_append, Doc.render, Text.advance_append, Text.advance_breakWith,
      Nat.mul_zero, List.map_cons, String.join_cons]
    rw [← gap]
    rfl

theorem Design.render_units (context : List ContextItem) (config : Config)
    {us : List LibraryUnit} (some : us ≠ []) :
    (Design.mk context us).render config =
      "\n\n".intercalate (us.map (LibraryUnit.textIn context config)) := by
  cases us with
  | nil => exact absurd rfl some
  | cons first rest =>
    have later := LibraryUnit.render_later context config rest
      (Text.advance 0 (first.textIn context config))
    have unfolded : (Design.mk context (first :: rest)).render config =
        first.textIn context config ++
          (Doc.concat (rest.map fun u => .text "\n" ++ .line ++ u.docIn context)).render config 0
            (Text.advance 0 (first.textIn context config)) := rfl
    rw [unfolded, later, List.map_cons, ← append_join_eq_intercalate, List.map_map]
    rfl

theorem Design.render_single (context : List ContextItem) (config : Config) (u : LibraryUnit) :
    (Design.mk context [u]).render config = u.textIn context config := by
  rw [Design.render_units context config (by simp)]
  simp

theorem join_lines (first : String) (rest : List String) :
    first ++ String.join (rest.map ("\n" ++ ·)) ++ "\n" =
      String.join ((first :: rest).map (· ++ "\n")) := by
  induction rest generalizing first with
  | nil => simp
  | cons second rest ih =>
    have later := ih second
    simp only [List.map_cons, String.join_cons, String.append_assoc] at later ⊢
    rw [later]

theorem ContextItem.render_clause (item : ContextItem) (items : List ContextItem) (config : Config)
    (column : Nat) :
    (ContextItem.clauseDoc (item :: items)).render config 0 column ++ "\n" =
      String.join ((item :: items).map fun i => i.text ++ "\n") := by
  have texts := join_lines item.text (items.map ContextItem.text)
  have later := Doc.render_lines config 0 (Text.advance column item.text)
    (items.map fun i => .text i.text)
  have clause : (ContextItem.clauseDoc (item :: items)).render config 0 column =
      item.text ++ String.join (items.map fun i => "\n" ++ i.text) := by
    show item.text ++ (Doc.lines _).render config 0 (Text.advance column item.text) = _
    rw [later]
    simp [Doc.render, Function.comp_def, Text.breakWith_zero]
  rw [clause]
  simpa [Function.comp_def] using texts

theorem LibraryUnit.textIn_eq (context : List ContextItem) (config : Config) (u : LibraryUnit) :
    u.textIn context config =
      String.join (context.map fun i => i.text ++ "\n") ++ u.doc.render config 0 0 := by
  cases context with
  | nil => simp [LibraryUnit.textIn, LibraryUnit.docIn]
  | cons item items =>
    rw [← ContextItem.render_clause item items config 0, ← Text.breakWith_zero]
    simp [LibraryUnit.textIn, LibraryUnit.docIn]

/-- Designs in one context are joined by an empty line. A single unit is written behind the lines of
its context as it is written by itself, and so is every unit among others. -/
theorem Design.render_unitwise (context : List ContextItem) (config : Config) :
    (∀ us vs : List LibraryUnit, us ≠ [] → vs ≠ [] →
        (Design.mk context (us ++ vs)).render config =
          (Design.mk context us).render config ++ "\n\n" ++
            (Design.mk context vs).render config) ∧
      (∀ u : LibraryUnit, ∃ t, (Session.start config).write u.doc = .ok t ∧
        (Design.mk context [u]).render config =
          String.join (context.map fun i => i.text ++ "\n") ++ t.buffer) ∧
      ∀ us : List LibraryUnit, us ≠ [] →
        (Design.mk context us).render config =
          "\n\n".intercalate (us.map fun u => (Design.mk context [u]).render config) := by
  refine ⟨?_, ?_, ?_⟩
  · intro us vs left right
    rw [Design.render_units context config left, Design.render_units context config right,
      Design.render_units context config (by simp [left]), List.map_append]
    exact String.intercalate_append_of_ne_nil (by simpa using left) (by simpa using right)
  · intro u
    refine ⟨_, Session.write_eq _ _, ?_⟩
    rw [Design.render_single, LibraryUnit.textIn_eq]
    simp [Session.push, Session.start, Session.column, Text.column]
  · intro us some
    simp only [Design.render_units context config some, Design.render_single]

theorem Design.render_two_entities :
    let unit := fun s => LibraryUnit.entity ⟨.basic s, []⟩
    let context := [ContextItem.library (.basic "ieee")]
    (Design.mk context [unit "a", unit "b"]).render {} =
      "library ieee;\nentity a is\nend entity;" ++ "\n\n" ++
        "library ieee;\nentity b is\nend entity;" := by
  intro unit context
  obtain ⟨joined, -, -⟩ := Design.render_unitwise context {}
  exact joined [unit "a"] [unit "b"] (by simp) (by simp)

end Vhdl93
