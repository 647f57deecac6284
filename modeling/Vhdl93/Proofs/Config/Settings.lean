import Vhdl93.Config.Reading
import Vhdl93.Proofs.Toml.Tables

set_option autoImplicit false

namespace Vhdl93

open Toml

namespace Setting

def default : Setting → Nat
  | .lineWidth => 80
  | .indentSize => 4

inductive Holds (table : Entries) (s : Setting) : Nat → Prop where
  | absent : table.get? s.key = none → Holds table s s.default
  | given {n : Nat} : 0 < n → table.get? s.key = some (.scalar (.integer n)) → Holds table s n

inductive Fault (table : Entries) (s : Setting) : String → Prop where
  | notInteger {v : Value} : table.get? s.key = some v → v.integer? = none →
      Fault table s (s.key ++ " must be an integer")
  | notPositive {n : Int} : table.get? s.key = some (.scalar (.integer n)) → n ≤ 0 →
      Fault table s (s.key ++ " must be positive")

variable {table table' : Entries} {s : Setting}

def read (table : Entries) (s : Setting) : Except ConfigError Nat :=
  Config.positive s s.default (table.get? s.key)

theorem read_absent (absent : table.get? s.key = none) : read table s = .ok s.default := by
  rw [read, absent, Config.positive]

theorem read_integer {n : Int} (found : table.get? s.key = some (.scalar (.integer n))) :
    read table s = if 0 < n then .ok n.toNat else .error (.notPositive s) := by
  rw [read, found, Config.positive]

theorem read_other {v : Value} (found : table.get? s.key = some v) (other : v.integer? = none) :
    read table s = .error (.notInteger s) := by
  rw [read, found]
  rcases v with (_ | _ | _ | _ | _ | _) | _ | _ | _ <;> simp_all [Config.positive, Value.integer?]

theorem absent_or_integer_or_other (table : Entries) (s : Setting) :
    table.get? s.key = none ∨ (∃ n, table.get? s.key = some (.scalar (.integer n))) ∨
      ∃ v, table.get? s.key = some v ∧ v.integer? = none := by
  cases found : table.get? s.key with
  | none => exact .inl rfl
  | some v =>
    cases number : v.integer? with
    | none => exact .inr (.inr ⟨v, rfl, number⟩)
    | some n => exact .inr (.inl ⟨n, by rw [Value.integer?_eq_some_iff.1 number]⟩)

theorem read_eq_ok_iff {n : Nat} : read table s = .ok n ↔ Holds table s n := by
  constructor
  · intro answer
    obtain absent | ⟨k, found⟩ | ⟨v, found, other⟩ := absent_or_integer_or_other table s
    · obtain rfl : s.default = n := by simpa [read_absent absent] using answer
      exact .absent absent
    · by_cases positive : 0 < k
      · obtain rfl : k.toNat = n := by simpa [read_integer found, positive] using answer
        exact .given (by omega) (by rw [found, Int.toNat_of_nonneg positive.le])
      · simp [read_integer found, positive] at answer
    · simp [read_other found other] at answer
  · rintro (absent | ⟨positive, found⟩)
    · exact read_absent absent
    · simp [read_integer found, positive]

theorem read_eq_error_iff {text : String} :
    (∃ e, read table s = .error e ∧ e.message = text) ↔ Fault table s text := by
  constructor
  · rintro ⟨e, answer, rfl⟩
    obtain absent | ⟨k, found⟩ | ⟨v, found, other⟩ := absent_or_integer_or_other table s
    · simp [read_absent absent] at answer
    · by_cases positive : 0 < k
      · simp [read_integer found, positive] at answer
      · obtain rfl : .notPositive s = e := by simpa [read_integer found, positive] using answer
        exact .notPositive found (by omega)
    · obtain rfl : .notInteger s = e := by simpa [read_other found other] using answer
      exact .notInteger found other
  · rintro (⟨found, other⟩ | ⟨found, negative⟩)
    · exact ⟨.notInteger s, read_other found other, rfl⟩
    · exact ⟨.notPositive s, by simp [read_integer found, negative.not_gt], rfl⟩

theorem exists_holds_iff : (∃ n, Holds table s n) ↔ ∀ v, table.get? s.key = some v →
    ∃ n : Int, 0 < n ∧ v = .scalar (.integer n) := by
  constructor
  · rintro ⟨_, absent | ⟨positive, given⟩⟩ v found
    · simp [absent] at found
    · exact ⟨_, Int.natCast_pos.2 positive, Option.some.inj (found.symm.trans given)⟩
  · intro integers
    obtain absent | ⟨n, found⟩ | ⟨v, found, other⟩ := absent_or_integer_or_other table s
    · exact ⟨_, .absent absent⟩
    · obtain ⟨_, positive, same⟩ := integers _ found
      cases same
      exact ⟨n.toNat, .given (by omega) (by rw [found, Int.toNat_of_nonneg positive.le])⟩
    · obtain ⟨n, -, rfl⟩ := integers v found
      cases other

theorem read_congr (same : (table.get? s.key).map Value.integer? =
    (table'.get? s.key).map Value.integer?) : read table s = read table' s := by
  obtain absent | ⟨n, found⟩ | ⟨v, found, other⟩ := absent_or_integer_or_other table s <;>
  obtain absent' | ⟨n', found'⟩ | ⟨v', found', other'⟩ := absent_or_integer_or_other table' s <;>
    simp_all [read_absent, read_integer, read_other, Value.integer?]

theorem Holds.pos {n : Nat} (holds : Holds table s n) : 0 < n := by
  cases holds with
  | absent => cases s <;> decide
  | given positive => exact positive

theorem Holds.lt {n : Nat} (holds : Holds table s n) (fit : table.IntegersFit) : n < 2 ^ 63 := by
  cases holds with
  | absent => cases s <;> decide
  | given positive found =>
    have bound := (fit _ _ found).2
    omega

end Setting

namespace Config

def valueOf (config : Config) : Setting → Nat
  | .lineWidth => config.lineWidth
  | .indentSize => config.indentSize

def allKnown (table : Entries) : Prop := ∀ key ∈ table.keys, ∃ s : Setting, s.key = key

/-- The answer to a table, with the text of its first fault. -/
inductive Answer (table : Entries) : Except String Config → Prop where
  | accepted {config : Config} : allKnown table →
      (∀ s, Setting.Holds table s (config.valueOf s)) → Answer table (.ok config)
  | unknownKey {key : String} : table.IsLeast (fun k => ¬ ∃ s : Setting, s.key = k) key →
      Answer table (.error ("Unknown key '" ++ key ++ "'"))
  | lineWidth {text : String} : allKnown table → Setting.Fault table .lineWidth text →
      Answer table (.error text)
  | indentSize {text : String} {n : Nat} : allKnown table → Setting.Holds table .lineWidth n →
      Setting.Fault table .indentSize text → Answer table (.error text)

variable {table table' : Entries}

theorem exists_setting_iff {key : String} :
    (∃ s : Setting, s.key = key) ↔ key = "line_width" ∨ key = "indent_size" := by
  constructor
  · rintro ⟨_ | _, rfl⟩
    · exact .inl rfl
    · exact .inr rfl
  · rintro (rfl | rfl)
    · exact ⟨.lineWidth, rfl⟩
    · exact ⟨.indentSize, rfl⟩

theorem isKnownKey_iff {key : String} : isKnownKey key = true ↔ ∃ s : Setting, s.key = key := by
  rw [exists_setting_iff, isKnownKey, Bool.or_eq_true, decide_eq_true_eq, decide_eq_true_eq]
  rfl

theorem leastUnknown_eq_none_iff :
    (table.leastKey? fun key => !isKnownKey key) = none ↔ allKnown table := by
  simp only [Entries.leastKey?_eq_none_iff, Bool.not_eq_false', isKnownKey_iff, allKnown]

theorem leastUnknown_eq_some_iff {key : String} :
    (table.leastKey? fun key => !isKnownKey key) = some key ↔
      table.IsLeast (fun k => ¬ ∃ s : Setting, s.key = k) key := by
  simp only [Entries.leastKey?_eq_some_iff, Bool.not_eq_true', ← isKnownKey_iff,
    Bool.not_eq_true]

theorem ofTable_of_unknown {key : String}
    (least : table.IsLeast (fun k => ¬ ∃ s : Setting, s.key = k) key) :
    ofTable table = .error (.unknownKey key) := by
  rw [ofTable, leastUnknown_eq_some_iff.2 least]

theorem ofTable_of_allKnown (known : allKnown table) :
    ofTable table = (do
      let lineWidth ← Setting.read table .lineWidth
      let indentSize ← Setting.read table .indentSize
      return { lineWidth, indentSize }) := by
  rw [ofTable, leastUnknown_eq_none_iff.2 known]
  rfl

theorem ofTable_of_holds (known : allKnown table) {lineWidth indentSize : Nat}
    (wide : Setting.Holds table .lineWidth lineWidth)
    (deep : Setting.Holds table .indentSize indentSize) :
    ofTable table = .ok { lineWidth, indentSize } := by
  rw [ofTable_of_allKnown known, Setting.read_eq_ok_iff.2 wide, Setting.read_eq_ok_iff.2 deep]
  rfl

theorem exists_least_or_allKnown (table : Entries) :
    (∃ key, table.IsLeast (fun k => ¬ ∃ s : Setting, s.key = k) key) ∨ allKnown table := by
  cases least : table.leastKey? fun key => !isKnownKey key with
  | none => exact .inr (leastUnknown_eq_none_iff.1 least)
  | some key => exact .inl ⟨key, leastUnknown_eq_some_iff.1 least⟩

theorem answer_ofTable (table : Entries) :
    Answer table ((ofTable table).mapError ConfigError.message) := by
  obtain ⟨key, least⟩ | known := exists_least_or_allKnown table
  · rw [ofTable_of_unknown least]
    exact .unknownKey least
  · rw [ofTable_of_allKnown known]
    -- A fault of the line width is the answer whatever the indent size is.
    cases width : Setting.read table .lineWidth with
    | error e => exact .lineWidth known (Setting.read_eq_error_iff.1 ⟨e, width, rfl⟩)
    | ok lineWidth =>
      have wide := Setting.read_eq_ok_iff.1 width
      cases indent : Setting.read table .indentSize with
      | error e => exact .indentSize known wide (Setting.read_eq_error_iff.1 ⟨e, indent, rfl⟩)
      | ok indentSize =>
        have deep := Setting.read_eq_ok_iff.1 indent
        exact .accepted known fun | .lineWidth => wide | .indentSize => deep

theorem Answer.eq {answer : Except String Config} (given : Answer table answer) :
    (ofTable table).mapError ConfigError.message = answer := by
  cases given with
  | unknownKey least =>
    rw [ofTable_of_unknown least]
    rfl
  | lineWidth known fault =>
    obtain ⟨e, width, rfl⟩ := Setting.read_eq_error_iff.2 fault
    rw [ofTable_of_allKnown known, width]
    rfl
  | indentSize known wide fault =>
    obtain ⟨e, indent, rfl⟩ := Setting.read_eq_error_iff.2 fault
    rw [ofTable_of_allKnown known, Setting.read_eq_ok_iff.2 wide, indent]
    rfl
  | accepted known holds =>
    rw [ofTable_of_holds known (holds .lineWidth) (holds .indentSize)]
    rfl

theorem answer_iff {answer : Except String Config} :
    Answer table answer ↔ (ofTable table).mapError ConfigError.message = answer :=
  ⟨Answer.eq, fun same => same ▸ answer_ofTable table⟩

theorem holds_of_ofTable {config : Config} (accepted : ofTable table = .ok config) (s : Setting) :
    Setting.Holds table s (config.valueOf s) := by
  have answer := answer_ofTable table
  rw [accepted] at answer
  cases answer with
  | accepted known holds => exact holds s

theorem exists_ofTable_iff : (∃ config, ofTable table = .ok config) ↔
    allKnown table ∧ ∀ s : Setting, ∀ v, table.get? s.key = some v →
      ∃ n : Int, 0 < n ∧ v = .scalar (.integer n) := by
  constructor
  · rintro ⟨config, accepted⟩
    have answer := answer_ofTable table
    rw [accepted] at answer
    cases answer with
    | accepted known holds => exact ⟨known, fun s => Setting.exists_holds_iff.1 ⟨_, holds s⟩⟩
  · rintro ⟨known, positive⟩
    obtain ⟨lineWidth, wide⟩ := Setting.exists_holds_iff.2 (positive .lineWidth)
    obtain ⟨indentSize, deep⟩ := Setting.exists_holds_iff.2 (positive .indentSize)
    exact ⟨_, ofTable_of_holds known wide deep⟩

theorem ofTable_congr (same : ∀ key, (table.get? key).map Value.integer? =
    (table'.get? key).map Value.integer?) : ofTable table = ofTable table' := by
  have keys (k : String) : k ∈ table.keys ↔ k ∈ table'.keys := by
    rw [Entries.mem_keys_iff, Entries.mem_keys_iff, ← Option.isSome_map, same, Option.isSome_map]
  have least := Entries.leastKey?_congr (p := fun key => !isKnownKey key) keys
  cases first : table.leastKey? fun key => !isKnownKey key with
  | none =>
    have known := leastUnknown_eq_none_iff.1 first
    have known' := leastUnknown_eq_none_iff.1 (least.symm.trans first)
    rw [ofTable_of_allKnown known, ofTable_of_allKnown known', Setting.read_congr (same _),
      Setting.read_congr (same _)]
  | some key =>
    rw [ofTable_of_unknown (leastUnknown_eq_some_iff.1 first),
      ofTable_of_unknown (leastUnknown_eq_some_iff.1 (least.symm.trans first))]

end Config

end Vhdl93
