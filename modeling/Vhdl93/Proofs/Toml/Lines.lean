import Vhdl93.Proofs.Toml.Items
import Vhdl93.Proofs.Toml.Written

set_option autoImplicit false

/-!
What is asked of a reader of documents, and that the reader of this library has it. Integers have 64
bits, a document is the map of the pairs that it lists, and lines of bare keys and numbers list just
these.
-/

namespace Vhdl93.Toml

def isBareKey (key : String) : Bool := key ≠ "" && key.toList.all isBareKeyChar

def line (e : String × Nat) : String := e.1 ++ " = " ++ toString e.2

def numbered (e : String × Nat) : String × Value := (e.1, .scalar (.integer e.2))

/-- `pairs` gives the keys of the top level with their values, in the order of the text. -/
structure Reader (load pairs : String → Option Entries) : Prop where
  integers : ∀ text table, load text = some table → table.IntegersFit
  collected : ∀ text es, pairs text = some es → ∃ table, load text = some table ∧
    ∀ key v, table.get? key = some v ↔ (key, v) ∈ es
  lines : ∀ (es : List (String × Nat)) (br : String), br = "\n" ∨ br = "\r\n" →
    (es.map Prod.fst).Nodup → (∀ e ∈ es, isBareKey e.1 = true ∧ 0 < e.2 ∧ e.2 < 2 ^ 63) →
    pairs (br.intercalate (es.map line)) = some (es.map numbered)

theorem Reader.pair_of_lines {load pairs : String → Option Entries} (reader : Reader load pairs)
    (e e' : String × Nat) (distinct : e.1 ≠ e'.1)
    (first : isBareKey e.1 = true ∧ 0 < e.2 ∧ e.2 < 2 ^ 63)
    (second : isBareKey e'.1 = true ∧ 0 < e'.2 ∧ e'.2 < 2 ^ 63)
    {br : String} (broken : br = "\n" ∨ br = "\r\n") :
    pairs (line e ++ br ++ line e') = some [numbered e, numbered e'] := by
  have listed := reader.lines [e, e'] br broken (by simpa using distinct)
    (by simpa only [List.forall_mem_cons, List.not_mem_nil, false_implies, implies_true, and_true]
      using ⟨first, second⟩)
  rwa [List.map_cons, List.map_singleton, String.intercalate_cons_cons,
    String.intercalate_singleton] at listed

section Keys

namespace Entries

variable {es es' : Entries}

theorem keys_set (key : String) (value : Value) (es : Entries) :
    (es.set key value).keys = if key ∈ es.keys then es.keys else es.keys ++ [key] := by
  induction es with
  | nil => rfl
  | cons e es ih =>
    by_cases here : e.1 = key
    · simp [set, keys, here]
    · simp only [keys] at ih
      by_cases later : key ∈ es.map Prod.fst <;>
        simp [set, keys, here, Ne.symm here, ih, later]

theorem nodup_set (unique : es.keys.Nodup) (key : String) (value : Value) :
    (es.set key value).keys.Nodup := by
  rw [keys_set]
  split
  · exact unique
  · rename_i absent
    exact List.nodup_append_comm.2 (List.nodup_cons.2 ⟨absent, unique⟩)

theorem nodup_of_set (unique : es.keys.Nodup) (changed : ∃ key v, es.set key v = es') :
    es'.keys.Nodup := by
  obtain ⟨key, v, rfl⟩ := changed
  exact nodup_set unique key v

-- However long the path is, only its first key is set in this table.
theorem nodup_assign {value : Value} {path : List String} (unique : es.keys.Nodup)
    (assigned : es.assign value path = some es') : es'.keys.Nodup := by
  apply nodup_of_set unique
  unfold assign at assigned
  repeat' split at assigned
  all_goals
    simp only [Option.bind_eq_bind, Option.bind_eq_some_iff, Option.pure_def, Option.some.injEq,
      reduceCtorEq] at assigned
  · exact ⟨_, _, assigned⟩
  all_goals
    obtain ⟨_, -, same⟩ := assigned
    exact ⟨_, _, same⟩

theorem nodup_alter {change : Option Value → Option Value} {path : List String}
    (unique : es.keys.Nodup) (altered : es.alter change path = some es') : es'.keys.Nodup := by
  apply nodup_of_set unique
  unfold alter at altered
  repeat' split at altered
  all_goals
    simp only [Option.bind_eq_bind, Option.bind_eq_some_iff, Option.pure_def, Option.some.injEq,
      reduceCtorEq] at altered
  all_goals
    obtain ⟨_, -, same⟩ := altered
    exact ⟨_, _, same⟩

end Entries

theorem nodup_add {d d' : Draft} {item : Item} (unique : d.entries.keys.Nodup)
    (added : d.add item = some d') : d'.entries.keys.Nodup := by
  cases item with
  | pair path value =>
    rw [Draft.add] at added
    split at added
    · obtain ⟨es, found, same⟩ := Option.bind_eq_some_iff.1 added
      cases same
      exact Entries.nodup_assign unique found
    · obtain ⟨es, found, same⟩ := Option.bind_eq_some_iff.1 added
      cases same
      exact Entries.nodup_alter unique found
  | header path | nextHeader path =>
    obtain ⟨es, found, same⟩ := Option.bind_eq_some_iff.1 added
    cases same
    exact Entries.nodup_alter unique found

theorem nodup_foldlM {is : List Item} {d d' : Draft} (unique : d.entries.keys.Nodup)
    (folded : is.foldlM Draft.add d = some d') : d'.entries.keys.Nodup := by
  induction is generalizing d with
  | nil =>
    obtain rfl : d = d' := by simpa using folded
    exact unique
  | cons item is ih =>
    rw [List.foldlM_cons] at folded
    obtain ⟨next, added, later⟩ := Option.bind_eq_some_iff.1 folded
    exact ih (nodup_add unique added) later

theorem loadable_of_load? {text : String} {table : Entries} (loaded : load? text = some table) :
    entriesLoadable table = true := by
  obtain ⟨found, -, passes⟩ := Option.bind_eq_some_iff.1 loaded
  split at passes
  · cases passes
    assumption
  · cases passes

theorem nodup_of_load? {text : String} {table : Entries} (loaded : load? text = some table) :
    table.keys.Nodup := by
  obtain ⟨found, read, passes⟩ := Option.bind_eq_some_iff.1 loaded
  rw [parse?_eq] at read
  obtain ⟨is, -, built⟩ := Option.bind_eq_some_iff.1 read
  obtain ⟨d, folded, rfl⟩ := Option.map_eq_some_iff.1 built
  have empty : (Draft.entries {}).keys.Nodup := List.nodup_nil
  split at passes
  · cases passes
    exact nodup_foldlM empty folded
  · cases passes

end Keys

section Lines

variable {key : String} {rest : List Char}

theorem bare_ne {c d : Char} (bare : isBareKeyChar c = true) (other : isBareKeyChar d = false) :
    c ≠ d := by
  rintro rfl
  exact absurd bare (by simp [other])

theorem bare_head (bare : isBareKey key = true) :
    ∃ c cs, key.toList = c :: cs ∧ isBareKeyChar c = true := by
  simp only [isBareKey, Bool.and_eq_true, decide_eq_true_eq] at bare
  obtain ⟨nonempty, all⟩ := bare
  cases chars : key.toList with
  | nil => exact absurd (String.toList_eq_nil_iff.1 chars) nonempty
  | cons c cs =>
    rw [chars, List.all_cons, Bool.and_eq_true] at all
    exact ⟨c, cs, rfl, all.1⟩

theorem skipBlanks_bare {c : Char} (bare : isBareKeyChar c = true) (cs : List Char) :
    skipBlanks (c :: cs) = c :: cs := by
  have black : isBlank c = false := by
    simp [isBlank, bare_ne bare (d := ' ') (by decide), bare_ne bare (d := '\t') (by decide)]
  rw [skipBlanks, List.dropWhile_cons_of_neg (by simp [black])]

theorem skipSpace?_bare {c : Char} (bare : isBareKeyChar c = true) (cs : List Char) :
    skipSpace? (c :: cs) = some (c :: cs) := by
  have ink : (decide (c = '\n') || isBlank c) = false := by
    simp [isBlank, bare_ne bare (d := '\n') (by decide), bare_ne bare (d := ' ') (by decide),
      bare_ne bare (d := '\t') (by decide)]
  rw [skipSpace?, ink]
  · rfl
  · rintro ds rfl
    exact absurd bare (by decide)
  · rintro rfl
    exact absurd bare (by decide)

theorem skipMark_bare {c : Char} (bare : isBareKeyChar c = true) (cs : List Char) :
    skipMark (c :: cs) = c :: cs := by
  rw [skipMark]
  rintro ds same
  obtain rfl : c = '\uFEFF' := (List.cons.inj same).1
  exact absurd bare (by decide)

theorem key?_bare (bare : isBareKey key = true) (rest : List Char) :
    key? (key.toList ++ ' ' :: rest) = some (key, ' ' :: rest) := by
  obtain ⟨c, cs, chars, -⟩ := bare_head bare
  have all : key.toList.all isBareKeyChar = true := by
    simp only [isBareKey, Bool.and_eq_true] at bare
    exact bare.2
  have stops : ∀ d ∈ (' ' :: rest).head?, isBareKeyChar d = false := by
    intro d first
    obtain rfl : ' ' = d := by simpa using first
    decide
  rw [key?, Lexer.takeWhile_stop all stops, Lexer.dropWhile_stop all stops]
  split
  · rename_i empty
    simp [chars] at empty
  · rw [String.ofList_toList]

theorem keyPath?_bare (bare : isBareKey key = true) (rest : List Char) (fuel : Nat) :
    keyPath? (fuel + 1) (key.toList ++ ' ' :: '=' :: rest) = some ([key], '=' :: rest) := by
  obtain ⟨c, cs, chars, first⟩ := bare_head bare
  have word := key?_bare bare ('=' :: rest)
  rw [chars, List.cons_append] at word ⊢
  rw [keyPath?, skipBlanks_bare first, word]
  rfl

theorem line_append (e : String × Nat) (rest : List Char) :
    (line e).toList ++ rest =
      e.1.toList ++ ' ' :: '=' :: ' ' :: (Nat.toDigits 10 e.2 ++ rest) := by
  simp [line]

variable {e : String × Nat}

theorem line_head (bare : isBareKey e.1 = true) (rest : List Char) :
    ∃ c cs, (line e).toList ++ rest = c :: cs ∧ isBareKeyChar c = true := by
  obtain ⟨c, cs, chars, first⟩ := bare_head bare
  refine ⟨c, cs ++ ' ' :: '=' :: ' ' :: (Nat.toDigits 10 e.2 ++ rest), ?_, first⟩
  rw [line_append, chars, List.cons_append]

theorem pair?_line (bare : isBareKey e.1 = true) (positive : 0 < e.2) (ends : EndsLine rest) :
    pair? (some <| skipBlanks ·) (value? depthLimit) ((line e).toList ++ rest) =
      some ([e.1], .scalar (.integer e.2), rest) := by
  have path := keyPath?_bare bare (' ' :: (Nat.toDigits 10 e.2 ++ rest)) 79
  have value := value?_toDigits positive ends 80
  have equals (cs : List Char) : skipBlanks ('=' :: cs) = '=' :: cs := rfl
  have blank : skipBlanks (' ' :: (Nat.toDigits 10 e.2 ++ rest)) = Nat.toDigits 10 e.2 ++ rest := by
    obtain ⟨c, ds, written, -, digit⟩ := toDigits_head positive
    have word : isBareKeyChar c = true := by simp [isBareKeyChar, Char.isAlphanum, digit]
    rw [skipBlanks, List.dropWhile_cons_of_pos rfl, written, List.cons_append]
    exact skipBlanks_bare word _
  rw [line_append, pair?, depthLimit, path]
  simp only [Option.bind_eq_bind, Option.bind_some, equals, blank, value]
  rfl

theorem item?_line (bare : isBareKey e.1 = true) (positive : 0 < e.2) (ends : EndsLine rest) :
    item? ((line e).toList ++ rest) = some (.plain (numbered e), rest) := by
  have pair := pair?_line bare positive ends
  obtain ⟨c, cs, chars, first⟩ := line_head bare rest
  rw [chars] at pair ⊢
  have open? : c ≠ '[' := bare_ne first (by decide)
  rw [item?]
  · rw [pair]
    rfl
  all_goals simp [open?]

theorem items?_line (bare : isBareKey e.1 = true) (positive : 0 < e.2) (ends : EndsLine rest)
    (fuel : Nat) : items? (fuel + 1) ((line e).toList ++ rest) =
      (items? fuel rest).map (.plain (numbered e) :: ·) := by
  have item := item?_line bare positive ends
  obtain ⟨c, cs, chars, first⟩ := line_head bare rest
  rw [chars] at item ⊢
  rw [items?, skipSpace?_bare first]
  simp only [Option.bind_eq_bind, Option.bind_some, item, ends.lineEnds, if_true]
  cases items? fuel rest <;> rfl

theorem items?_break {br : String} (broken : br = "\n" ∨ br = "\r\n") (fuel : Nat) :
    items? (fuel + 1) (br.toList ++ rest) = items? (fuel + 1) rest := by
  have skipped : skipSpace? (br.toList ++ rest) = skipSpace? rest := by
    obtain rfl | rfl := broken <;> rfl
  rw [items?, items?, skipped]

theorem toList_lines (e next : String × Nat) (es : List (String × Nat)) (br : String) :
    (br.intercalate ((e :: next :: es).map line)).toList =
      (line e).toList ++ (br.toList ++ (br.intercalate ((next :: es).map line)).toList) := by
  rw [List.map_cons, List.map_cons, String.intercalate_cons_cons, ← List.map_cons,
    String.toList_append, String.toList_append, List.append_assoc]

theorem items?_lines {es : List (String × Nat)} {br : String} (broken : br = "\n" ∨ br = "\r\n")
    (numbers : ∀ e ∈ es, isBareKey e.1 = true ∧ 0 < e.2) {fuel : Nat} (enough : es.length < fuel) :
    items? fuel (br.intercalate (es.map line)).toList =
      some ((es.map numbered).map .plain) := by
  induction es generalizing fuel with
  | nil =>
    obtain ⟨k, rfl⟩ := Nat.exists_eq_succ_of_ne_zero (Nat.ne_of_gt enough)
    rfl
  | cons e es ih =>
    obtain ⟨k, rfl⟩ := Nat.exists_eq_succ_of_ne_zero (Nat.ne_of_gt (Nat.zero_lt_of_lt enough))
    obtain ⟨⟨bare, positive⟩, numbers⟩ := List.forall_mem_cons.1 numbers
    have later : es.length < k := Nat.lt_of_succ_lt_succ enough
    cases es with
    | nil =>
      have alone := items?_line bare positive (.inl rfl) k
      rw [List.append_nil] at alone
      have ended : items? k [] = some [] := ih numbers later
      rw [List.map_singleton, String.intercalate_singleton, alone, ended]
      rfl
    | cons next es =>
      have behind : EndsLine (br.toList ++ (br.intercalate ((next :: es).map line)).toList) := by
        obtain rfl | rfl := broken <;> exact .inr rfl
      obtain ⟨k, rfl⟩ := Nat.exists_eq_succ_of_ne_zero (Nat.ne_of_gt (Nat.zero_lt_of_lt later))
      rw [toList_lines, items?_line bare positive behind, items?_break broken, ih numbers later]
      rfl

theorem length_le_lines (es : List (String × Nat)) (br : String) :
    es.length ≤ (br.intercalate (es.map line)).toList.length := by
  have one (e : String × Nat) : 1 ≤ (line e).toList.length := by
    have written := congrArg List.length (line_append e [])
    simp only [List.append_nil, List.length_append, List.length_cons] at written
    omega
  induction es with
  | nil => exact Nat.zero_le _
  | cons e es ih =>
    cases es with
    | nil => simpa using one e
    | cons next es =>
      have first := one e
      rw [toList_lines, List.length_append, List.length_append, List.length_cons]
      omega

theorem lines_cons (e : String × Nat) (es : List (String × Nat)) (br : String) :
    ∃ rest, (br.intercalate ((e :: es).map line)).toList = (line e).toList ++ rest := by
  cases es with
  | nil => exact ⟨[], by simp⟩
  | cons next es =>
    exact ⟨_, toList_lines e next es br⟩

theorem items_lines {es : List (String × Nat)} {br : String} (broken : br = "\n" ∨ br = "\r\n")
    (numbers : ∀ e ∈ es, isBareKey e.1 = true ∧ 0 < e.2) :
    items (br.intercalate (es.map line)) = some ((es.map numbered).map .plain) := by
  have unmarked : skipMark (br.intercalate (es.map line)).toList =
      (br.intercalate (es.map line)).toList := by
    cases es with
    | nil => rfl
    | cons e es =>
      obtain ⟨rest, first⟩ := lines_cons e es br
      obtain ⟨c, cs, chars, bare⟩ := line_head (numbers e List.mem_cons_self).1 rest
      rw [first, chars, skipMark_bare bare]
  rw [items, unmarked]
  exact items?_lines broken numbers (Nat.lt_succ_of_le (length_le_lines es br))

end Lines

-- Its entries stand in the order of the text.
theorem reader_load? : Reader load? load? where
  integers text table loaded := integersFit_of_loadable (loadable_of_load? loaded)
  collected text es listed :=
    ⟨es, listed, fun _ _ => Entries.get?_eq_some_iff (nodup_of_load? listed)⟩
  lines es br broken distinct numbers := by
    have plain := items_lines broken fun e member => ⟨(numbers e member).1, (numbers e member).2.1⟩
    have unique : Entries.keys (es.map numbered) = es.map Prod.fst := by
      rw [Entries.keys, List.map_map]
      rfl
    have loadable : entriesLoadable (es.map numbered) = true := by
      rw [entriesLoadable_eq_all, List.all_map, List.all_eq_true]
      intro e member
      have size := (numbers e member).2
      have fits : isInt64 e.2 = true := isInt64_iff.2 (by omega)
      exact fits
    rw [load?_of_plain plain, if_pos ⟨unique ▸ distinct, loadable⟩]

end Vhdl93.Toml
