import Vhdl93.Proofs.Config.Settings
import Vhdl93.Proofs.Toml.Lines

set_option autoImplicit false

namespace Vhdl93.Config

open Toml

section Readers

variable {load pairs : String → Option Entries} {text text' : String} {table es es' : Entries}

theorem fromText_of_load (loaded : load text = some table) :
    fromText load text = ofTable table := by
  rw [fromText, loaded]

theorem exists_load_of_fromText {config : Config} (accepted : fromText load text = .ok config) :
    ∃ table, load text = some table ∧ ofTable table = .ok config := by
  unfold fromText at accepted
  split at accepted
  · cases accepted
  · exact ⟨_, by assumption, accepted⟩

theorem valueOf_bounds {config : Config} (fit : table.IntegersFit)
    (accepted : ofTable table = .ok config) (s : Setting) :
    1 ≤ config.valueOf s ∧ config.valueOf s ≤ 2 ^ 63 - 1 := by
  have holds := holds_of_ofTable accepted s
  exact ⟨holds.pos, Nat.le_sub_one_of_lt (holds.lt fit)⟩

theorem fromText_perm (reader : Reader load pairs) (listed : pairs text = some es)
    (listed' : pairs text' = some es') (perm : es.Perm es') :
    fromText load text = fromText load text' := by
  obtain ⟨table, loaded, entries⟩ := reader.collected text es listed
  obtain ⟨table', loaded', entries'⟩ := reader.collected text' es' listed'
  have same (key : String) : table.get? key = table'.get? key := by
    ext v
    rw [entries, entries', perm.mem_iff]
  rw [fromText_of_load loaded, fromText_of_load loaded']
  exact ofTable_congr fun key => by rw [same]

theorem ofTable_of_entries {n m : Nat} (positive : 0 < n) (positive' : 0 < m)
    (entries : ∀ key v, table.get? key = some v ↔
      (key, v) ∈ [numbered ("line_width", n), numbered ("indent_size", m)]) :
    ofTable table = .ok ⟨n, m⟩ := by
  have known : allKnown table := by
    intro key member
    obtain ⟨v, found⟩ := Option.isSome_iff_exists.1 (Entries.mem_keys_iff.1 member)
    have listed := (entries key v).1 found
    simp only [numbered, List.mem_cons, Prod.mk.injEq, List.not_mem_nil, or_false] at listed
    exact exists_setting_iff.2 (listed.imp And.left And.left)
  have wide := (entries "line_width" (.scalar (.integer n))).2 (by simp [numbered])
  have deep := (entries "indent_size" (.scalar (.integer m))).2 (by simp [numbered])
  exact ofTable_of_holds known (.given positive wide) (.given positive' deep)

theorem fromText_settings (reader : Reader load pairs) {n m : Nat} (size : 0 < n ∧ n < 2 ^ 63)
    (size' : 0 < m ∧ m < 2 ^ 63) {br : String} (broken : br = "\n" ∨ br = "\r\n") :
    fromText load (line ("line_width", n) ++ br ++ line ("indent_size", m)) = .ok ⟨n, m⟩ ∧
      fromText load (line ("indent_size", m) ++ br ++ line ("line_width", n)) = .ok ⟨n, m⟩ := by
  have wide : isBareKey "line_width" = true := by decide
  have deep : isBareKey "indent_size" = true := by decide
  have listed := reader.pair_of_lines ("line_width", n) ("indent_size", m) (by simp) ⟨wide, size⟩
    ⟨deep, size'⟩ broken
  have swapped := reader.pair_of_lines ("indent_size", m) ("line_width", n) (by simp) ⟨deep, size'⟩
    ⟨wide, size⟩ broken
  obtain ⟨table, loaded, entries⟩ := reader.collected _ _ listed
  have read : fromText load (line ("line_width", n) ++ br ++ line ("indent_size", m)) =
      .ok ⟨n, m⟩ := by
    rw [fromText_of_load loaded, ofTable_of_entries size.1 size'.1 entries]
  exact ⟨read, (fromText_perm reader swapped listed (.swap _ _ _)).trans read⟩

end Readers

/-- What a table of settings is answered with, and that a text has no other part in the answer than
through its table: the least unknown key first, then the line width, then the indent size, and a
configuration only if each setting is left out or a positive integer. -/
theorem settings_answered (load pairs : String → Option Entries) (reader : Reader load pairs) :
    (∀ (table : Entries) (answer : Except String Config),
      (ofTable table).mapError ConfigError.message = answer ↔ Answer table answer) ∧
    (∀ table : Entries, (∃ config, ofTable table = .ok config) ↔
      (∀ key ∈ table.keys, key = "line_width" ∨ key = "indent_size") ∧
        ∀ s : Setting, ∀ v, table.get? s.key = some v →
          ∃ n : Int, 0 < n ∧ v = .scalar (.integer n)) ∧
    (∀ (table : Entries) (config : Config), table.IntegersFit → ofTable table = .ok config →
      ∀ s, 1 ≤ config.valueOf s ∧ config.valueOf s ≤ 2 ^ 63 - 1) ∧
    (∀ (text : String) (table : Entries), load text = some table →
      fromText load text = ofTable table ∧ table.IntegersFit) ∧
    (∀ (text : String) (config : Config), fromText load text = .ok config →
      ∀ s, 1 ≤ config.valueOf s ∧ config.valueOf s ≤ 2 ^ 63 - 1) ∧
    (∀ table table' : Entries,
      (∀ key, (table.get? key).map Value.integer? = (table'.get? key).map Value.integer?) →
      ofTable table = ofTable table') ∧
    (∀ (text text' : String) (es es' : Entries), pairs text = some es →
      pairs text' = some es' → es.Perm es' → fromText load text = fromText load text') ∧
    ∀ (n m : Nat) (br : String), 1 ≤ n → n ≤ 2 ^ 63 - 1 → 1 ≤ m → m ≤ 2 ^ 63 - 1 →
      br = "\n" ∨ br = "\r\n" →
      fromText load ("line_width = " ++ toString n ++ br ++ "indent_size = " ++ toString m) =
          .ok { lineWidth := n, indentSize := m } ∧
        fromText load ("indent_size = " ++ toString m ++ br ++ "line_width = " ++ toString n) =
          .ok { lineWidth := n, indentSize := m } := by
  refine ⟨fun table answer => answer_iff.symm, fun table => ?_,
    fun table config => valueOf_bounds, fun text table loaded => ?_, fun text config accepted => ?_,
    fun table table' => ofTable_congr, fun text text' es es' => fromText_perm reader,
    fun n m br low high low' high' broken => ?_⟩
  · simp only [exists_ofTable_iff, allKnown, exists_setting_iff]
  · exact ⟨fromText_of_load loaded, reader.integers text table loaded⟩
  · obtain ⟨table, loaded, answer⟩ := exists_load_of_fromText accepted
    exact valueOf_bounds (reader.integers text table loaded) answer
  · have wide : line ("line_width", n) = "line_width = " ++ toString n := rfl
    have deep : line ("indent_size", m) = "indent_size = " ++ toString m := rfl
    have both := fromText_settings (n := n) (m := m) reader (by omega) (by omega) broken
    rwa [wide, deep, ← String.append_assoc, ← String.append_assoc] at both

theorem settings_answered_at_bounds :
    let text := line ("line_width", 7) ++ "\n" ++ line ("indent_size", 8)
    let swapped := line ("indent_size", 8) ++ "\n" ++ line ("line_width", 7)
    Reader load? load? ∧
    (∃ table config, table.IntegersFit ∧ ofTable table = .ok config ∧
      1 ≤ config.indentSize ∧ config.indentSize ≤ 2 ^ 63 - 1) ∧
    (∃ table, load? text = some table ∧ parse text = ofTable table) ∧
    (∃ config, parse swapped = .ok config ∧ 1 ≤ config.lineWidth) ∧
    ofTable [("b", .array []), ("line_width", .scalar (.integer 0))] =
      ofTable [("line_width", .scalar (.integer 0)), ("b", .table .header [])] ∧
    parse text = parse swapped ∧
    parse ("line_width = " ++ toString (2 ^ 63 - 1) ++ "\r\n" ++ "indent_size = " ++ toString 1) =
      .ok { lineWidth := 2 ^ 63 - 1, indentSize := 1 } := by
  intro text swapped
  obtain ⟨-, -, bounds, loads, accepted, same, perm, written⟩ :=
    settings_answered load? load? reader_load?
  have fits : Entries.IntegersFit [("indent_size", .scalar (.integer 3))] :=
    integersFit_of_loadable (by decide)
  have read : ofTable [("indent_size", .scalar (.integer 3))] = .ok ⟨80, 3⟩ := rfl
  have seven : isBareKey "line_width" = true ∧ 0 < 7 ∧ 7 < 2 ^ 63 := by decide
  have eight : isBareKey "indent_size" = true ∧ 0 < 8 ∧ 8 < 2 ^ 63 := by decide
  have loaded := reader_load?.pair_of_lines ("line_width", 7) ("indent_size", 8) (by decide) seven
    eight (.inl rfl)
  have loaded' := reader_load?.pair_of_lines ("indent_size", 8) ("line_width", 7) (by decide) eight
    seven (.inl rfl)
  have answer : parse swapped = .ok ⟨7, 8⟩ := (loads swapped _ loaded').1
  refine ⟨reader_load?, ⟨_, _, fits, read, bounds _ _ fits read .indentSize⟩,
    ⟨_, loaded, (loads _ _ loaded).1⟩, ⟨_, answer, (accepted swapped _ answer .lineWidth).1⟩,
    same _ _ fun key => ?_, perm _ _ _ _ loaded loaded' (.swap _ _ _),
    (written _ _ _ (by decide) (by decide) (by decide) (by decide) (.inr rfl)).1⟩
  by_cases array : "b" = key
  · subst array
    simp [Entries.get?, Value.integer?]
  · simp [Entries.get?, array]

end Vhdl93.Config
