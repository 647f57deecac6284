set_option autoImplicit false

namespace Vhdl93.Text

def advanceChar (column : Nat) (c : Char) : Nat :=
  if c = '\n' then 0 else column + 1

def advance (start : Nat) (text : String) : Nat :=
  text.toList.foldl advanceChar start

def column (text : String) : Nat := advance 0 text

@[simp] theorem advance_empty (start : Nat) : advance start "" = start := by
  simp [advance]

@[simp] theorem advance_append (start : Nat) (s t : String) :
    advance start (s ++ t) = advance (advance start s) t := by
  simp [advance, List.foldl_append]

@[simp] theorem column_append (s t : String) : column (s ++ t) = advance (column s) t := by
  simp [column]

def breakWith (n : Nat) : String := String.ofList ('\n' :: List.replicate n ' ')

theorem foldl_advanceChar_replicate (n start : Nat) :
    (List.replicate n ' ').foldl advanceChar start = start + n := by
  induction n generalizing start with
  | zero => rfl
  | succ n ih =>
    rw [List.replicate_succ, List.foldl_cons, ih]
    simp [advanceChar]
    omega

@[simp] theorem advance_breakWith (start n : Nat) : advance start (breakWith n) = n := by
  simp [advance, breakWith, foldl_advanceChar_replicate, advanceChar]

theorem foldl_advanceChar_le_length (cs : List Char) (start : Nat) :
    cs.foldl advanceChar start ≤ start + cs.length := by
  induction cs generalizing start with
  | nil => exact Nat.le_refl start
  | cons c cs ih =>
    have step : advanceChar start c ≤ start + 1 := by
      unfold advanceChar
      split <;> omega
    have later := ih (advanceChar start c)
    rw [List.foldl_cons, List.length_cons]
    omega

theorem column_le_length (text : String) : column text ≤ text.length := by
  have bound := foldl_advanceChar_le_length text.toList 0
  rwa [Nat.zero_add, String.length_toList] at bound

end Vhdl93.Text
