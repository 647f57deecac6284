import Mathlib.Data.String.Basic
import Mathlib.Tactic.SplitIfs

set_option autoImplicit false

namespace Vhdl93.Text

def bytes (t : String) : List UInt8 := t.toUTF8.data.toList

theorem bytes_eq (t : String) : bytes t = t.toList.flatMap String.utf8EncodeChar := by
  have encoded := String.toByteArray_ofList (l := t.toList)
  rw [String.ofList_toList] at encoded
  rw [bytes, String.toUTF8_eq_toByteArray, encoded, List.utf8Encode,
    List.toList_data_toByteArray]

theorem encoded_lt {c d : Char} (less : c < d) (rest rest' : List UInt8) :
    String.utf8EncodeChar c ++ rest < String.utf8EncodeChar d ++ rest' := by
  have limit := d.valid
  have less' : c.val.toNat < d.val.toNat := less
  simp only [UInt32.isValidChar, Nat.isValidChar] at limit
  simp only [String.utf8EncodeChar]
  generalize c.val.toNat = m at less'
  generalize d.val.toNat = n at less' limit
  -- One case for each pair of lengths: the first bytes differ that differ as numbers.
  split_ifs <;>
    simp only [List.cons_append, List.nil_append, List.cons_lt_cons_iff, UInt8.lt_iff_toNat_lt,
      ← UInt8.toNat_inj, UInt8.toNat_ofNat', Nat.reducePow] <;>
    simp (disch := omega) only [Nat.mod_eq_of_lt, Nat.add_lt_add_iff_right,
      Nat.add_right_cancel_iff] <;>
    omega

theorem flatMap_encoded_lt {cs ds : List Char} (less : cs < ds) :
    cs.flatMap String.utf8EncodeChar < ds.flatMap String.utf8EncodeChar := by
  induction ds generalizing cs with
  | nil => exact absurd less (List.not_lt_nil cs)
  | cons d ds ih =>
    rw [List.flatMap_cons]
    cases cs with
    | nil =>
      obtain ⟨byte, later, written⟩ := List.exists_cons_of_ne_nil
        (String.utf8EncodeChar_ne_nil (c := d))
      rw [written]
      exact List.nil_lt_cons _ _
    | cons c cs =>
      rw [List.flatMap_cons]
      obtain first | ⟨rfl, rest⟩ := List.cons_lt_cons_iff.1 less
      · exact encoded_lt first _ _
      · exact List.append_left_lt (ih rest)

theorem lt_iff_bytes {s t : String} : s < t ↔ bytes s < bytes t := by
  have forward {s t : String} (less : s < t) : bytes s < bytes t := by
    rw [bytes_eq, bytes_eq]
    exact flatMap_encoded_lt less
  refine ⟨forward, fun less => ?_⟩
  obtain smaller | rfl | greater := lt_trichotomy s t
  · exact smaller
  · exact absurd less (List.lt_irrefl _)
  · exact absurd less (List.lt_asymm (forward greater))

theorem le_iff_bytes {s t : String} : s ≤ t ↔ bytes s ≤ bytes t :=
  not_congr lt_iff_bytes

theorem bytes_append (s t : String) : bytes (s ++ t) = bytes s ++ bytes t := by
  rw [bytes_eq, bytes_eq, bytes_eq, String.toList_append, List.flatMap_append]

def isLeading (b : UInt8) : Bool := b.toNat < 128 || 192 ≤ b.toNat

theorem encoded_cases (c : Char) :
    (∃ b, String.utf8EncodeChar c = [b] ∧ b.toNat < 128 ∧ (b = 10 ↔ c = '\n')) ∨
      ∃ first later, String.utf8EncodeChar c = first :: later ∧ 192 ≤ first.toNat ∧
        (∀ b ∈ later, 128 ≤ b.toNat ∧ b.toNat < 192) ∧ c ≠ '\n' := by
  have newline : c = '\n' ↔ c.val.toNat = 10 := by
    rw [← Char.val_inj, ← UInt32.toNat_inj]
    rfl
  have limit := c.valid
  simp only [UInt32.isValidChar, Nat.isValidChar] at limit
  rw [String.utf8EncodeChar, ne_eq, newline]
  generalize c.val.toNat = n at limit
  split_ifs
  · refine .inl ⟨_, rfl, ?_, ?_⟩
    · rw [UInt8.toNat_ofNat']
      omega
    · simp only [← UInt8.toNat_inj, UInt8.toNat_ofNat', UInt8.reduceToNat]
      omega
  -- The longer encodings differ in how many bytes follow the first.
  all_goals
    refine .inr ⟨_, _, rfl, ?_, ?_, by omega⟩
    · rw [UInt8.toNat_ofNat']
      omega
    · simp only [List.forall_mem_cons, List.not_mem_nil, false_implies, implies_true, and_true,
        UInt8.toNat_ofNat']
      omega

theorem countP_encoded (c : Char) : (String.utf8EncodeChar c).countP isLeading = 1 := by
  rcases encoded_cases c with ⟨b, written, low, -⟩ | ⟨first, later, written, high, rest, -⟩
  · simp [written, isLeading, low]
  · have none : later.countP isLeading = 0 := by
      refine List.countP_eq_zero.mpr fun b member => ?_
      have bounds := rest b member
      simp only [isLeading, Bool.or_eq_true, decide_eq_true_eq]
      omega
    simp [written, none, isLeading, high]

theorem break_mem_encoded_iff (c : Char) : 10 ∈ String.utf8EncodeChar c ↔ c = '\n' := by
  rcases encoded_cases c with ⟨b, written, -, newline⟩ | ⟨first, later, written, high, rest, other⟩
  · rw [written, List.mem_singleton, eq_comm, newline]
  · refine iff_of_false (fun member => ?_) other
    rw [written] at member
    rcases List.mem_cons.mp member with rfl | inside
    · exact absurd high (by decide)
    · exact absurd (rest 10 inside).1 (by decide)

theorem countP_bytes (t : String) : (bytes t).countP isLeading = t.length := by
  rw [bytes_eq, ← String.length_toList]
  induction t.toList with
  | nil => rfl
  | cons c cs ih =>
    rw [List.flatMap_cons, List.countP_append, countP_encoded, ih, List.length_cons, Nat.add_comm]

theorem break_mem_bytes_iff (t : String) : 10 ∈ bytes t ↔ '\n' ∈ t.toList := by
  simp [bytes_eq, List.mem_flatMap, break_mem_encoded_iff]

end Vhdl93.Text
