import Mathlib.Algebra.Group.Int.Defs
import Vhdl93.Proofs.Text.Bytes
import Vhdl93.Toml.Loading

set_option autoImplicit false

namespace Vhdl93.Toml

def Value.integer? : Value → Option Int
  | .scalar (.integer n) => some n
  | _ => none

theorem Value.integer?_eq_some_iff {v : Value} {n : Int} :
    v.integer? = some n ↔ v = .scalar (.integer n) := by
  rcases v with (_ | _ | _ | _ | _ | _) | _ | _ | _ <;> simp [integer?]

namespace Entries

theorem mem_keys_iff {key : String} {es : Entries} :
    key ∈ es.keys ↔ (es.get? key).isSome = true := by
  induction es with
  | nil => simp [keys, get?]
  | cons e es ih =>
    by_cases here : e.1 = key
    · simp [keys, get?, here]
    · rw [keys, List.map_cons, List.mem_cons, get?, if_neg here, ← ih, keys]
      simp [Ne.symm here]

theorem get?_of_mem {key : String} {v : Value} {es : Entries} (unique : es.keys.Nodup)
    (member : (key, v) ∈ es) : es.get? key = some v := by
  induction es with
  | nil => simp at member
  | cons e es ih =>
    obtain ⟨absent, unique⟩ := List.nodup_cons.1 unique
    obtain rfl | later := List.mem_cons.1 member
    · simp [get?]
    · have other : e.1 ≠ key := fun same =>
        absent (same ▸ List.mem_map_of_mem (f := Prod.fst) later)
      rw [get?, if_neg other, ih unique later]

theorem mem_of_get? {key : String} {v : Value} {es : Entries} (found : es.get? key = some v) :
    (key, v) ∈ es := by
  induction es with
  | nil => simp [get?] at found
  | cons e es ih =>
    by_cases here : e.1 = key
    · rw [get?, if_pos here, Option.some.injEq] at found
      exact List.mem_cons.2 (.inl (Prod.ext here.symm found.symm))
    · rw [get?, if_neg here] at found
      exact List.mem_cons_of_mem e (ih found)

theorem get?_eq_some_iff {key : String} {v : Value} {es : Entries} (unique : es.keys.Nodup) :
    es.get? key = some v ↔ (key, v) ∈ es :=
  ⟨mem_of_get?, get?_of_mem unique⟩

/-- The key whose bytes come first among those that `p` holds of. -/
structure IsLeast (p : String → Prop) (es : Entries) (key : String) : Prop where
  mem : key ∈ es.keys
  holds : p key
  least : ∀ other ∈ es.keys, p other → Text.bytes key ≤ Text.bytes other

theorem leastKey?_eq_none_iff {p : String → Bool} {es : Entries} :
    es.leastKey? p = none ↔ ∀ key ∈ es.keys, p key = false := by
  induction es with
  | nil => simp [leastKey?, keys]
  | cons e es ih =>
    rw [keys, List.map_cons, List.forall_mem_cons, ← keys, ← ih]
    cases rest : leastKey? p es with
    | none => simp [leastKey?, rest]
    | some other => simp [leastKey?, rest]

theorem isLeast_of_leastKey? {p : String → Bool} {es : Entries} {key : String}
    (found : es.leastKey? p = some key) : IsLeast (p · = true) es key := by
  induction es generalizing key with
  | nil => simp [leastKey?] at found
  | cons e es ih =>
    have none_below (absent : leastKey? p es = none) (other : String) (member : other ∈ keys es) :
        p other ≠ true := by
      simp [leastKey?_eq_none_iff.1 absent other member]
    cases rest : leastKey? p es with
    | none =>
      obtain ⟨holds, rfl⟩ : p e.1 = true ∧ e.1 = key := by simpa [leastKey?, rest] using found
      refine ⟨List.mem_cons_self, holds, List.forall_mem_cons.2 ⟨fun _ => ?_, ?_⟩⟩
      · exact Text.le_iff_bytes.1 le_rfl
      · exact fun other member fits => absurd fits (none_below rest other member)
    | some later =>
      have least := ih rest
      -- Only a smaller key takes the place of the least one behind it.
      by_cases first : p e.1 = true ∧ e.1 < later
      · obtain rfl : e.1 = key := by
          simpa only [leastKey?, rest, Bool.and_eq_true, decide_eq_true_eq, if_pos first,
            Option.some.injEq] using found
        refine ⟨List.mem_cons_self, first.1, List.forall_mem_cons.2 ⟨fun _ => ?_, ?_⟩⟩
        · exact Text.le_iff_bytes.1 le_rfl
        · intro other member fits
          have below := Text.le_iff_bytes.2 (least.least other member fits)
          exact Text.le_iff_bytes.1 (first.2.le.trans below)
      · obtain rfl : later = key := by
          simpa only [leastKey?, rest, Bool.and_eq_true, decide_eq_true_eq, if_neg first,
            Option.some.injEq] using found
        refine ⟨List.mem_cons_of_mem _ least.mem, least.holds,
          List.forall_mem_cons.2 ⟨fun fits => ?_, least.least⟩⟩
        exact Text.le_iff_bytes.1 (not_lt.1 fun less => first ⟨fits, less⟩)

theorem IsLeast.unique {p : String → Prop} {es es' : Entries} {key key' : String}
    (least : IsLeast p es key) (least' : IsLeast p es' key')
    (same : ∀ k, k ∈ es.keys ↔ k ∈ es'.keys) : key = key' := by
  have below := least.least key' ((same key').2 least'.mem) least'.holds
  have above := least'.least key ((same key).1 least.mem) least.holds
  exact le_antisymm (Text.le_iff_bytes.2 below) (Text.le_iff_bytes.2 above)

theorem leastKey?_eq_some_iff {p : String → Bool} {es : Entries} {key : String} :
    es.leastKey? p = some key ↔ IsLeast (p · = true) es key := by
  refine ⟨isLeast_of_leastKey?, fun least => ?_⟩
  cases found : es.leastKey? p with
  | none =>
    have fails := leastKey?_eq_none_iff.1 found key least.mem
    exact absurd least.holds (by simp [fails])
  | some other => rw [(isLeast_of_leastKey? found).unique least fun _ => Iff.rfl]

theorem leastKey?_congr {p : String → Bool} {es es' : Entries}
    (same : ∀ k, k ∈ es.keys ↔ k ∈ es'.keys) : es.leastKey? p = es'.leastKey? p := by
  cases found : es'.leastKey? p with
  | none =>
    rw [leastKey?_eq_none_iff] at found ⊢
    exact fun key member => found key ((same key).1 member)
  | some key =>
    obtain ⟨mem, holds, least⟩ := isLeast_of_leastKey? found
    exact leastKey?_eq_some_iff.2
      ⟨(same key).2 mem, holds, fun other member => least other ((same other).1 member)⟩

end Entries

theorem isInt64_iff {n : Int} : isInt64 n = true ↔ -2 ^ 63 ≤ n ∧ n < 2 ^ 63 := by
  have least : Int64.minValue.toInt = -2 ^ 63 := by decide
  have greatest : Int64.maxValue.toInt = 2 ^ 63 - 1 := by decide
  rw [isInt64, Bool.and_eq_true, decide_eq_true_eq, decide_eq_true_eq, least, greatest]
  omega

theorem entriesLoadable_eq_all (es : Entries) :
    entriesLoadable es = es.all fun e => e.2.isLoadable := by
  induction es with
  | nil => simp [entriesLoadable]
  | cons e es ih => simp [entriesLoadable, ih]

def Entries.IntegersFit (es : Entries) : Prop :=
  ∀ key n, es.get? key = some (.scalar (.integer n)) → -2 ^ 63 ≤ n ∧ n < 2 ^ 63

theorem integersFit_of_loadable {es : Entries} (loadable : entriesLoadable es = true) :
    es.IntegersFit := by
  intro key n found
  rw [entriesLoadable_eq_all, List.all_eq_true] at loadable
  have number := loadable _ (Entries.mem_of_get? found)
  exact isInt64_iff.1 (by simpa [Value.isLoadable, Scalar.isLoadable] using number)

end Vhdl93.Toml
