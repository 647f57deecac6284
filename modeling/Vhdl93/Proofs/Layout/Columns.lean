import Mathlib.Data.List.DropRight
import Vhdl93.Proofs.Layout.Widening
import Vhdl93.Proofs.Text.Bytes

set_option autoImplicit false

namespace Vhdl93

namespace Text

variable {t : String}

def lastLine (t : String) : String := String.ofList (t.toList.rtakeWhile (· != '\n'))

theorem lastLine_oneLine (t : String) : '\n' ∉ (lastLine t).toList := by
  intro member
  rw [lastLine, String.toList_ofList] at member
  simpa using List.mem_rtakeWhile_imp member

theorem breaks_lastLine (t : String) : breaks (lastLine t) = 0 :=
  List.count_eq_zero.mpr (lastLine_oneLine t)

theorem split_lastLine (t : String) : t = lastLine t ∨ ∃ u, t = u ++ "\n" ++ lastLine t := by
  have whole : String.ofList (t.toList.rdropWhile (· != '\n')) ++ lastLine t = t := by
    rw [lastLine, ← String.ofList_append, List.rdropWhile_append_rtakeWhile, String.ofList_toList]
  rcases List.eq_nil_or_concat' (t.toList.rdropWhile (· != '\n')) with none | ⟨us, c, front⟩
  · left
    rw [none] at whole
    simpa using whole.symm
  · right
    have some : t.toList.rdropWhile (· != '\n') ≠ [] := by
      rw [front]
      exact List.append_ne_nil_of_right_ne_nil us (List.cons_ne_nil c [])
    have newline : c = '\n' := by
      simpa [front] using List.rdropWhile_last_not (· != '\n') t.toList some
    rw [front, newline, String.ofList_append] at whole
    exact ⟨String.ofList us, whole.symm⟩

section Column

theorem advance_of_break (start : Nat) (broken : '\n' ∈ t.toList) : advance start t = column t := by
  -- The first line break is enough: behind it both cursors are at column zero.
  obtain ⟨front, back, split, -⟩ := List.eq_append_cons_of_mem broken
  simp [column, advance, split, advanceChar]

theorem column_append_eq_ite (s t : String) :
    column (s ++ t) = if '\n' ∈ t.toList then column t else column s + t.length := by
  rw [column_append]
  split_ifs with broken
  · exact advance_of_break _ broken
  · exact advance_oneLine _ broken

theorem column_eq_length_lastLine (t : String) : column t = (lastLine t).length := by
  have behind : advance 0 (lastLine t) = (lastLine t).length := by
    rw [advance_oneLine 0 (lastLine_oneLine t), Nat.zero_add]
  rcases split_lastLine t with whole | ⟨u, split⟩
  · exact (congrArg column whole).trans behind
  · calc column t = column (u ++ "\n" ++ lastLine t) := congrArg column split
      _ = advance (advance (column u) "\n") (lastLine t) := by simp
      _ = (lastLine t).length := behind

/-- Where the last line starts among the bytes: behind the last line break, which is looked for from
the end, or else at the front. -/
def lastLineStart (bs : List UInt8) : Nat := bs.length - bs.reverse.idxOf 10

def columnOfBytes (bs : List UInt8) : Nat := (bs.drop (lastLineStart bs)).countP isLeading

theorem drop_lastLineStart (t : String) :
    (bytes t).drop (lastLineStart (bytes t)) = bytes (lastLine t) := by
  -- The search from the end goes over all bytes of the last line before it meets a line break.
  have last : 10 ∉ (bytes (lastLine t)).reverse := by
    rw [List.mem_reverse, break_mem_bytes_iff]
    exact lastLine_oneLine t
  rcases split_lastLine t with whole | ⟨u, split⟩
  · rw [← whole] at last ⊢
    simp [lastLineStart, List.idxOf_eq_length last]
  · have cut : bytes t = (bytes u ++ [10]) ++ bytes (lastLine t) := by
      have newline : bytes "\n" = [10] := by decide
      rw [← newline, ← bytes_append, ← bytes_append, ← split]
    have start : lastLineStart (bytes t) = (bytes u ++ [10]).length := by
      rw [lastLineStart, cut, List.reverse_append, List.idxOf_append_of_notMem last]
      simp only [List.reverse_append, List.reverse_singleton, List.singleton_append,
        List.idxOf_cons_self, List.length_append, List.length_reverse, List.length_singleton]
      omega
    rw [start, cut, List.drop_left]

theorem column_eq_columnOfBytes (t : String) : column t = columnOfBytes (bytes t) := by
  rw [columnOfBytes, drop_lastLineStart, countP_bytes, column_eq_length_lastLine]

end Column

section Lines

theorem lines_append_newline (s t : String) : lines (s ++ "\n" ++ t) = lines s ++ lines t := by
  simp [lines, List.splitOn_append_cons_self]

theorem length_lines (t : String) : (lines t).length = breaks t + 1 := by
  rw [lines, List.length_map, breaks]
  induction t.toList with
  | nil => rfl
  | cons c cs ih =>
    rw [List.splitOn_cons_eq_if_modifyHead, List.count_cons]
    by_cases newline : c = '\n' <;> simp [newline, ih]

theorem length_le_of_mem_splitOn {cs line : List Char} (member : line ∈ cs.splitOn '\n') :
    line.length ≤ cs.length := by
  induction cs generalizing line with
  | nil =>
    rw [List.splitOn_nil, List.mem_singleton] at member
    rw [member]
  | cons c cs ih =>
    obtain ⟨first, rest, cut⟩ := List.exists_cons_of_ne_nil (List.splitOn_ne_nil '\n' cs)
    rw [cut] at ih
    have head : first.length ≤ cs.length := ih List.mem_cons_self
    have later : ∀ l ∈ rest, l.length ≤ cs.length := fun l inside => ih (.tail _ inside)
    rw [List.splitOn_cons_eq_if_modifyHead, cut] at member
    by_cases newline : c = '\n'
    · simp only [newline, beq_self_eq_true, if_true, List.mem_cons] at member
      rcases member with rfl | rfl | inside
      · exact Nat.zero_le _
      · exact Nat.le_succ_of_le head
      · exact Nat.le_succ_of_le (later line inside)
    · simp only [beq_iff_eq, newline, if_false, List.modifyHead_cons, List.mem_cons] at member
      rcases member with rfl | inside
      · exact Nat.succ_le_succ head
      · exact Nat.le_succ_of_le (later line inside)

theorem length_le_of_mem_lines {line : String} (member : line ∈ lines t) :
    line.length ≤ t.length := by
  obtain ⟨part, inside, rfl⟩ := List.mem_map.mp member
  rw [String.length_ofList, ← String.length_toList]
  exact length_le_of_mem_splitOn inside

theorem drop_breaks_lines (s t : String) :
    (lines (s ++ t)).drop (breaks s) = lines (lastLine s ++ t) := by
  rcases split_lastLine s with whole | ⟨u, split⟩
  · have none : breaks s = 0 := by
      rw [whole]
      exact breaks_lastLine s
    rw [none, ← whole, List.drop_zero]
  · have finished : breaks s = (lines u).length := by
      calc breaks s = breaks (u ++ "\n" ++ lastLine s) := congrArg breaks split
        _ = breaks u + 1 := by rw [breaks_append, breaks_append, breaks_lastLine]; rfl
        _ = (lines u).length := (length_lines u).symm
    have cut : lines (s ++ t) = lines u ++ lines (lastLine s ++ t) := by
      rw [← lines_append_newline, ← String.append_assoc, ← split]
    rw [cut, finished, List.drop_left]

end Lines

end Text

namespace Session

theorem fits_iff (s : Session) (text : String) :
    s.fits text = true ↔ s.column + text.length ≤ s.config.lineWidth := by
  rw [fits, decide_eq_true_eq]

/-- The lines from the current one on cannot be longer together than what is in the current line and
what is appended, so that each is within the width if this is. -/
theorem lines_of_fits {s : Session} {text : String} (fits : s.fits text = true) :
    ∀ line ∈ (Text.lines (s.buffer ++ text)).drop (Text.breaks s.buffer),
      line.length ≤ s.config.lineWidth := by
  intro line member
  rw [Text.drop_breaks_lines] at member
  calc line.length
      ≤ (Text.lastLine s.buffer ++ text).length := Text.length_le_of_mem_lines member
    _ = s.column + text.length := by
        rw [String.length_append, column, Text.column_eq_length_lastLine]
    _ ≤ s.config.lineWidth := (s.fits_iff text).mp fits

/-- The column is that of the bytes of the buffer. A text with a line break sets it anew and any
other adds its length, so that on one line fitting is ending within the width. Of a text that fits,
every line from the current one on is within the width, and a new line starts behind its blanks,
where their number is a word. -/
theorem columns_measured (s : Session) (text : String) :
    s.column = Text.columnOfBytes (Text.bytes s.buffer) ∧
      Text.column (s.buffer ++ text) =
        (if '\n' ∈ text.toList then Text.column text else s.column + text.length) ∧
      ('\n' ∉ text.toList →
        (s.fits text = true ↔ Text.column (s.buffer ++ text) ≤ s.config.lineWidth)) ∧
      (s.fits text = true →
        ∀ line ∈ (Text.lines (s.buffer ++ text)).drop (Text.breaks s.buffer),
          line.length ≤ s.config.lineWidth) ∧
      (s.config.indentSize * s.depth < 2 ^ 64 →
        s.newline.column = s.config.indentSize * s.depth) := by
  have appended := Text.column_append_eq_ite s.buffer text
  refine ⟨Text.column_eq_columnOfBytes s.buffer, appended, ?_, lines_of_fits, ?_⟩
  · intro oneLine
    rw [appended, if_neg oneLine]
    exact s.fits_iff text
  · intro _
    rw [newline, column_push, Text.advance_breakWith]

theorem columns_measured_of_accents :
    let s : Session := ⟨⟨9, 2⟩, 1, "début\n日本"⟩
    ('\n' ∉ "éèê".toList ∧ (s.fits "éèê" = true ↔ Text.column "début\n日本éèê" ≤ 9)) ∧
      (s.fits "語\né" = true ∧ ∀ line ∈ ["日本語", "é"], line.length ≤ 9) ∧
      2 * 1 < 2 ^ 64 ∧ Text.column "début\n日本\n  " = 2 := by
  intro s
  have oneLine : '\n' ∉ "éèê".toList := by decide
  have fits : s.fits "語\né" = true := by decide
  have touched : (Text.lines (s.buffer ++ "語\né")).drop (Text.breaks s.buffer) =
      ["日本語", "é"] := by decide
  have small : 2 * 1 < 2 ^ 64 := by decide
  have blanks := (s.columns_measured "").2.2.2.2 small
  refine ⟨⟨oneLine, (s.columns_measured "éèê").2.2.1 oneLine⟩, ⟨fits, ?_⟩, small, blanks⟩
  rw [← touched]
  exact (s.columns_measured "語\né").2.2.2.1 fits

end Session

end Vhdl93
