import Vhdl93.Proofs.Inline.Text
import Vhdl93.Proofs.Lexer.Standard

set_option autoImplicit false

/-!
Texts that may fill a line. What is asked of them comes in three degrees: nothing, that they hold no
line break, or that they have no blank at their ends either. Each degree goes with checks of
identifiers and literals, and inline text whose parts pass them is as the degree asks.
-/

namespace Vhdl93

/-- A text on one line that neither starts nor ends with a blank. -/
structure Text.Tidy (s : String) : Prop where
  nonempty : s ≠ ""
  first : s.toList.head? ≠ some ' '
  last : s.toList.getLast? ≠ some ' '
  oneLine : '\n' ∉ s.toList

theorem Text.tidy_of_solid {s : String} (nonempty : s ≠ "")
    (solid : ∀ c ∈ s.toList, c ≠ ' ' ∧ c ≠ '\n') : Tidy s where
  nonempty := nonempty
  first head := (solid _ (List.mem_of_head? head)).1 rfl
  last last := (solid _ (List.mem_of_getLast? last)).1 rfl
  oneLine member := (solid _ member).2 rfl

abbrev Text.MayOpen (s : String) : Prop := '\n' ∉ s.toList ∧ s ≠ "" ∧ s.toList.head? ≠ some ' '

abbrev Text.MayClose (s : String) : Prop :=
  '\n' ∉ s.toList ∧ s ≠ "" ∧ s.toList.getLast? ≠ some ' '

inductive Care where
  | free | oneLine | tidy

def Literal.isOneLine : Literal → Bool
  | .character c => c ≠ '\n'
  | .string s | .bitString _ s => '\n' ∉ s.toList
  | .integer _ | .real _ | .null => true

def Checks.oneLine : Checks where
  ident i := '\n' ∉ i.text.toList
  designator i := '\n' ∉ i.text.toList
  stem _ := true
  literal := Literal.isOneLine
  size _ := true

def Checks.tidy : Checks where
  ident := Ident.isAccepted
  designator := Ident.isDesignator
  stem _ := true
  literal := Literal.isOneLine
  size _ := true

namespace Care

variable {care : Care} {a b s t : String}

def checks : Care → Checks
  | .free | .oneLine => .oneLine
  | .tidy => .tidy

/-- The outcome of a check, of which a writer that asks nothing makes no use. -/
def Trusts (care : Care) (outcome : Bool) : Prop := care ≠ .free → outcome = true

def Inside (care : Care) (s : String) : Prop := care ≠ .free → '\n' ∉ s.toList

structure Opens (care : Care) (s : String) : Prop where
  inside : care.Inside s
  first : care = .tidy → s ≠ "" ∧ s.toList.head? ≠ some ' '

structure Closes (care : Care) (s : String) : Prop where
  inside : care.Inside s
  last : care = .tidy → s ≠ "" ∧ s.toList.getLast? ≠ some ' '

structure Row (care : Care) (s : String) : Prop where
  opens : care.Opens s
  closes : care.Closes s

@[simp] theorem trusts_true : care.Trusts true := fun _ => rfl

@[simp] theorem trusts_and (a b : Bool) : care.Trusts (a && b) ↔ care.Trusts a ∧ care.Trusts b := by
  simp [Trusts, ← forall_and]

@[simp] theorem trusts_all {α : Type} (f : α → Bool) (xs : List α) :
    care.Trusts (xs.all f) ↔ ∀ x ∈ xs, care.Trusts (f x) := by
  simp only [Trusts, List.all_eq_true]
  exact ⟨fun all x member asked => all asked x member, fun all asked x member => all x member asked⟩

@[simp] theorem trusts_option {α : Type} (f : α → Bool) (o : Option α) :
    care.Trusts (o.all f) ↔ ∀ x ∈ o, care.Trusts (f x) := by
  cases o <;> simp

theorem Row.inside (row : care.Row s) : care.Inside s := row.opens.inside

theorem Row.tidy (row : Row .tidy s) : Text.Tidy s where
  nonempty := (row.opens.first rfl).1
  first := (row.opens.first rfl).2
  last := (row.closes.last rfl).2
  oneLine := row.inside (by simp)

theorem Row.oneLine (row : Row .oneLine s) : '\n' ∉ s.toList := row.inside (by simp)

theorem row_of (line : care ≠ .free → '\n' ∉ s.toList) (tidy : care = .tidy → Text.Tidy s) :
    care.Row s where
  opens := ⟨line, fun asked => ⟨(tidy asked).nonempty, (tidy asked).first⟩⟩
  closes := ⟨line, fun asked => ⟨(tidy asked).nonempty, (tidy asked).last⟩⟩

theorem row_of_tidy (tidy : Text.Tidy s) : care.Row s :=
  row_of (fun _ => tidy.oneLine) fun _ => tidy

-- Fixed words, as they stand inside a line, at its start, at its end and alone.

theorem inside (line : '\n' ∉ s.toList) : care.Inside s := fun _ => line

theorem opens (word : Text.MayOpen s) : care.Opens s := ⟨fun _ => word.1, fun _ => word.2⟩

theorem closes (word : Text.MayClose s) : care.Closes s := ⟨fun _ => word.1, fun _ => word.2⟩

theorem fixed (word : Text.MayOpen s ∧ Text.MayClose s) : care.Row s :=
  ⟨opens word.1, closes word.2⟩

theorem Inside.append (left : care.Inside s) (right : care.Inside t) : care.Inside (s ++ t) := by
  intro asked
  simp [left asked, right asked]

theorem Opens.append (left : care.Opens s) (right : care.Inside t) : care.Opens (s ++ t) where
  inside := left.inside.append right
  first asked := by
    obtain ⟨nonempty, head⟩ := left.first asked
    obtain ⟨c, cs, split⟩ := List.exists_cons_of_ne_nil (by simpa using nonempty : s.toList ≠ [])
    exact ⟨by simp [nonempty], by simpa [split] using head⟩

theorem Closes.behind (right : care.Closes t) (left : care.Inside s) : care.Closes (s ++ t) where
  inside := left.append right.inside
  last asked := by
    obtain ⟨nonempty, last⟩ := right.last asked
    obtain ⟨c, cs, split⟩ := List.exists_cons_of_ne_nil (by simpa using nonempty : t.toList ≠ [])
    refine ⟨by simp [nonempty], ?_⟩
    simpa [split, List.getLast?_append, List.getLast?_cons] using last

theorem Opens.close (left : care.Opens s) (right : care.Closes t) : care.Row (s ++ t) where
  opens := left.append right.inside
  closes := right.behind left.inside

theorem Inside.word (left : care.Inside s) (line : '\n' ∉ t.toList) : care.Inside (s ++ t) :=
  left.append (Care.inside line)

theorem Inside.after (right : care.Inside t) (line : '\n' ∉ s.toList) : care.Inside (s ++ t) :=
  Inside.append (Care.inside line) right

theorem Inside.led (right : care.Inside t) (first : Text.MayOpen s) : care.Opens (s ++ t) :=
  (opens first).append right

theorem Opens.word (left : care.Opens s) (line : '\n' ∉ t.toList) : care.Opens (s ++ t) :=
  left.append (Care.inside line)

theorem Opens.ended (left : care.Opens s) (last : Text.MayClose t) : care.Row (s ++ t) :=
  left.close (Care.closes last)

theorem Inside.framed (middle : care.Inside s) (first : Text.MayOpen a) (last : Text.MayClose b) :
    care.Row (a ++ s ++ b) :=
  (middle.led first).ended last

theorem Row.ended (row : care.Row s) (last : Text.MayClose b) : care.Row (s ++ b) :=
  row.opens.ended last

theorem inside_intercalate {xs : List String} (separator : care.Inside s)
    (each : ∀ x ∈ xs, care.Inside x) : care.Inside (s.intercalate xs) := by
  induction xs with
  | nil => simp [Inside]
  | cons x xs ih =>
    have first := each x List.mem_cons_self
    have later := ih fun y member => each y (List.mem_cons_of_mem x member)
    cases xs with
    | nil => simpa using first
    | cons y xs =>
      rw [String.intercalate_cons_cons]
      exact (first.append separator).append later

theorem inside_map {α : Type} {f : α → String} {xs : List α}
    (each : ∀ x ∈ xs, care.Inside (f x)) : ∀ y ∈ xs.map f, care.Inside y :=
  List.forall_mem_map.mpr each

theorem row_enclosed {mark : Char} (solid : mark ≠ ' ' ∧ mark ≠ '\n')
    (line : care ≠ .free → '\n' ∉ s.toList) : care.Row (Text.enclosed mark s) := by
  have one : care ≠ .free → '\n' ∉ (Text.enclosed mark s).toList := by
    intro asked member
    simp only [Text.toList_enclosed, List.cons_append, List.mem_cons, List.mem_append,
      List.not_mem_nil, or_false] at member
    rcases member with same | inner | same
    · exact solid.2 same.symm
    · exact line asked (Lexer.mem_doubled inner)
    · exact solid.2 same.symm
  refine row_of one fun asked => ⟨?_, ?_, ?_, one (by simp [asked])⟩
  · intro empty
    simpa using congrArg String.toList empty
  · simp [solid.1]
  · simp [List.getLast?_cons, solid.1]

end Care

open Care

variable {care : Care}

theorem Ident.tidy_of_basicText {s : String} (basic : Ident.isBasicText s.toList = true) :
    Text.Tidy s := by
  obtain ⟨c, tail, split, letter, word⟩ := Lexer.basicText_cases basic
  have all : s.toList.all Lexer.isWordChar = true := by
    simp [split, word, Lexer.isWordChar, letter]
  apply Text.tidy_of_solid
  · rintro rfl
    cases split
  · intro d member
    refine ⟨?_, ?_⟩ <;> rintro rfl
    · exact Lexer.not_mem_of_all all (by decide) member
    · exact Lexer.not_mem_of_all all (by decide) member

theorem Ident.row_of_accepted {i : Ident} (accepted : i.isAccepted = true) : care.Row i.render := by
  have fits := @Lexer.ident_fits Lexer.standard .start i accepted
  cases i with
  | basic text => exact row_of_tidy (Ident.tidy_of_basicText fits.1)
  | extended text =>
    exact row_enclosed (by decide) fun _ => Lexer.not_mem_of_all fits.2 (by decide)

theorem Ident.row_of_oneLine {i : Ident} (line : '\n' ∉ i.text.toList) :
    Row .oneLine i.render := by
  cases i with
  | basic text => exact row_of (fun _ => line) (by simp)
  | extended text => exact row_enclosed (by decide) fun _ => line

theorem Care.row_free (s : String) : Row .free s := row_of (by simp) (by simp)

theorem Ident.row {i : Ident} (ok : care.Trusts (care.checks.ident i)) : care.Row i.render := by
  cases care with
  | free => exact row_free _
  | oneLine => exact Ident.row_of_oneLine (of_decide_eq_true (ok (by simp)))
  | tidy => exact Ident.row_of_accepted (ok (by simp))

theorem Ident.row_designator {i : Ident} (ok : care.Trusts (care.checks.designator i)) :
    care.Row i.render := by
  cases care with
  | free => exact row_free _
  | oneLine => exact Ident.row_of_oneLine (of_decide_eq_true (ok (by simp)))
  | tidy =>
    cases accepted : i.isAccepted with
    | true => exact Ident.row_of_accepted accepted
    | false =>
      have fits := (@Lexer.designator_fits Lexer.standard .start i (ok (by simp)) accepted).1
      exact row_of_tidy (Ident.tidy_of_basicText fits.1)

theorem Lexer.IsNumber.tidy {s : String} (number : IsNumber s.toList) : Text.Tidy s := by
  obtain ⟨whole, some, digits, same⟩ := number
  have nonempty : s ≠ "" := by
    rintro rfl
    rcases same with same | ⟨fraction, -, -, same⟩
    · exact some same.symm
    · simp at same
  have chars : ∀ c ∈ s.toList, c.isDigit = true ∨ c = '.' := by
    intro c member
    rcases same with same | ⟨fraction, -, decimals, same⟩
    · rw [same] at member
      exact .inl (List.all_eq_true.mp digits c member)
    · rw [same, List.mem_append, List.mem_cons] at member
      rcases member with front | point | back
      · exact .inl (List.all_eq_true.mp digits c front)
      · exact .inr point
      · exact .inl (List.all_eq_true.mp decimals c back)
  refine Text.tidy_of_solid nonempty fun c member => ⟨?_, ?_⟩ <;> rintro rfl
  · exact absurd (chars ' ' member) (by decide)
  · exact absurd (chars '\n' member) (by decide)

theorem Binary64.tidy_magnitudeText (x : Binary64) : Text.Tidy x.magnitudeText := by
  cases finite : x.isFinite with
  | true => exact (Lexer.isNumber_magnitudeText finite).tidy
  | false =>
    -- What is not finite is a NaN or infinite, and both have a fixed text.
    have field : x.exponentField = 2047 := by simpa [isFinite] using finite
    have words : Text.Tidy "NaN.0" ∧ Text.Tidy "inf.0" :=
      ⟨Text.tidy_of_solid (by simp) (by simp), Text.tidy_of_solid (by simp) (by simp)⟩
    by_cases zero : x.fraction = 0
    · simpa [magnitudeText, isNaN, isInfinite, field, zero] using words.2
    · simpa [magnitudeText, isNaN, field, zero] using words.1

section Pieces

@[simp] theorem Piece.text_token (t : Token) : (Piece.token t).text = t.text := rfl

@[simp] theorem Piece.text_blank : Piece.blank.text = " " := rfl

@[simp] theorem Piece.text_ident (i : Ident) : (Piece.ident i).text = i.render := rfl

@[simp] theorem Piece.text_keyword (word : String) : (Piece.keyword word).text = word := rfl

@[simp] theorem Piece.text_symbol (s : Symbol) : (Piece.symbol s).text = s.text := rfl

end Pieces

theorem Symbol.row (s : Symbol) : care.Row s.text := by
  cases s <;> exact fixed (by decide)

theorem Care.row_parenthesized {s : String} (inner : care.Inside s) :
    care.Row ("(" ++ s ++ ")") := inner.framed (by decide) (by decide)

theorem Token.row_character {c : Char} (line : care ≠ .free → c ≠ '\n') :
    care.Row (Token.character c).text := by
  have one : care ≠ .free → '\n' ∉ (Token.character c).text.toList := by
    intro asked
    simpa [Token.text] using (line asked).symm
  refine row_of one fun asked => ⟨?_, ?_, ?_, one (by simp [asked])⟩
  · intro empty
    simpa [Token.text] using congrArg String.toList empty
  · simp [Token.text]
  · simp [Token.text]

theorem Literal.row {x : Literal} (ok : care.Trusts (care.checks.literal x)) :
    care.Row x.pieces.text := by
  have line : care ≠ .free → x.isOneLine = true := by
    intro asked
    have passed := ok asked
    cases care <;> exact passed
  cases x with
  | integer n => simpa [Literal.pieces, Token.text] using row_of_tidy (Lexer.isNumber_repr n).tidy
  | real x =>
    rw [Literal.pieces]
    split
    · have magnitude : care.Row x.magnitude.magnitudeText :=
        row_of_tidy x.magnitude.tidy_magnitudeText
      simpa [Token.text] using (Symbol.row .minus).opens.close magnitude.closes
    · simpa [Token.text] using row_of_tidy x.tidy_magnitudeText
  | character c =>
    simpa [Literal.pieces] using Token.row_character fun asked => of_decide_eq_true (line asked)
  | string s =>
    have quoted : care.Row (Text.enclosed '"' s) :=
      row_enclosed (by decide) fun asked => of_decide_eq_true (line asked)
    simpa [Literal.pieces, Token.text] using quoted
  | bitString base digits =>
    have inner : care.Inside digits := fun asked => of_decide_eq_true (line asked)
    have marked : care.Opens (base.text ++ "\"") := by cases base <;> exact opens (by decide)
    simpa [Literal.pieces, Token.text] using (marked.append inner).ended (by decide)
  | null => simpa [Literal.pieces] using fixed (by decide)

theorem BinaryOp.inside_token (op : BinaryOp) : care.Inside op.token.text := by
  cases op <;> exact inside (by decide)

theorem UnaryOp.opens_text (op : UnaryOp) : care.Opens op.pieces.text := by
  cases op <;> exact opens (by decide)

theorem Direction.inside_text (d : Direction) : care.Inside d.text := by
  cases d <;> exact inside (by decide)

theorem Care.row_operand {ps : Pieces} (parens : Bool) (row : care.Row ps.text) :
    care.Row (ps.operand parens).text := by
  cases parens with
  | false => exact row
  | true => simpa [Pieces.operand] using row_parenthesized row.inside

theorem Care.row_joined {s word t : String} (left : care.Row s) (middle : care.Inside word)
    (right : care.Row t) : care.Row (s ++ (" " ++ (word ++ (" " ++ t)))) := by
  have word : care.Closes (word ++ (" " ++ t)) :=
    (right.closes.behind (inside (by decide))).behind middle
  exact left.opens.close (word.behind (inside (by decide)))

theorem Care.row_listed {s : String} {items : List String} (row : care.Row s)
    (each : ∀ x ∈ items, care.Inside x) : care.Row (s ++ ("(" ++ ", ".intercalate items ++ ")")) :=
  row.opens.close (row_parenthesized (inside_intercalate (inside (by decide)) each)).closes

theorem Care.row_applied {s : String} {items : List Pieces} (row : care.Row s)
    (each : ∀ x ∈ items, care.Inside x.text) :
    care.Row (s ++ (Pieces.arguments items).text) := by
  cases items with
  | nil => simpa [Pieces.arguments] using row
  | cons item items => simpa [Pieces.arguments] using row_listed row (inside_map each)

theorem Care.row_attribute {base designator argument : String} (stem : care.Row base)
    (word : care.Row designator) (behind : argument = "" ∨ care.Row argument) :
    care.Row (base ++ ("'" ++ (designator ++ argument))) := by
  have marked : care.Closes (designator ++ argument) := by
    rcases behind with rfl | row
    · simpa using word.closes
    · exact row.closes.behind word.inside
  exact stem.opens.close (marked.behind (inside (by decide)))

theorem Suffix.row {s : Suffix} (ok : care.Trusts (s.passes care.checks)) :
    care.Row s.pieces.text := by
  cases s with
  | simple i => simpa [Suffix.pieces] using Ident.row ok
  | all => simpa [Suffix.pieces] using fixed (by decide)

mutual

theorem Name.row : ∀ n : Name, care.Trusts (n.passes care.checks) → care.Row n.pieces.text
  | .simple i, ok => by simpa [Name.pieces] using Ident.row ok
  | .selected base suffix, ok => by
      simp only [Name.passes, trusts_and] at ok
      have behind : care.Closes ("." ++ suffix.pieces.text) :=
        (Suffix.row ok.2).closes.behind (inside (by decide))
      simpa [Name.pieces, Symbol.text] using (base.row ok.1).opens.close behind
  | .indexed base es, ok => by
      simp only [Name.passes, trusts_and] at ok
      have each : ∀ x ∈ (es.map Expr.pieces).map Pieces.text, care.Inside x :=
        inside_map (List.forall_mem_map.mpr fun e member => (Expr.rowAll es ok.2 e member).inside)
      simpa [Name.pieces] using row_listed (base.row ok.1.1) each
  | .slice base range, ok => by
      simp only [Name.passes, trusts_and] at ok
      have inner : care.Row ("(" ++ range.pieces.text ++ ")") :=
        row_parenthesized (range.row ok.2).inside
      simpa [Name.pieces] using (base.row ok.1).opens.close inner.closes
  | .attribute base i e, ok => by
      simp only [Name.passes, trusts_and] at ok
      simpa [Name.pieces, Symbol.text] using
        row_attribute (base.row ok.1.1.1) (Ident.row_designator ok.1.2) (Expr.rowArgument e ok.2)

theorem Range.row : ∀ r : Range, care.Trusts (r.passes care.checks) → care.Row r.pieces.text
  | .bounds d l r, ok => by
      simp only [Range.passes, trusts_and] at ok
      simpa [Range.pieces] using row_joined (l.row ok.1) d.inside_text (r.row ok.2)
  | .attribute base i e, ok => by
      simp only [Range.passes, trusts_and] at ok
      simpa [Range.pieces, Symbol.text] using
        row_attribute (base.row ok.1.1.1) (Ident.row_designator ok.1.2) (Expr.rowArgument e ok.2)

theorem Expr.row : ∀ e : Expr, care.Trusts (e.passes care.checks) → care.Row e.pieces.text
  | .binary op l r, ok => by
      simp only [Expr.passes, trusts_and] at ok
      simpa [Expr.pieces] using
        row_joined (row_operand _ (l.row ok.1)) op.inside_token (row_operand _ (r.row ok.2))
  | .unary op e, ok => by
      simpa [Expr.pieces] using op.opens_text.close (row_operand _ (e.row ok)).closes
  | .literal x, ok => Literal.row ok
  | .name n, ok => n.row ok
  | .call n as, ok => by
      simp only [Expr.passes, trusts_and] at ok
      have each : ∀ x ∈ as.map Association.pieces, care.Inside x.text :=
        List.forall_mem_map.mpr fun a member => (Association.rowAll as ok.2 a member).inside
      simpa [Expr.pieces] using row_applied (n.row ok.1) each
  | .aggregate es, ok => by
      simp only [Expr.passes, trusts_and] at ok
      have each : ∀ x ∈ (es.map Element.pieces).map Pieces.text, care.Inside x :=
        inside_map (List.forall_mem_map.mpr fun e member =>
          (Element.rowAll es ok.2 e member).inside)
      simpa [Expr.pieces] using row_parenthesized (inside_intercalate (inside (by decide)) each)

theorem Choice.row : ∀ c : Choice, care.Trusts (c.passes care.checks) → care.Row c.pieces.text
  | .expr e, ok => e.row ok
  | .others, _ => by simpa [Choice.pieces] using fixed (by decide)

theorem Element.row : ∀ e : Element, care.Trusts (e.passes care.checks) → care.Row e.pieces.text
  | .positional e, ok => e.row ok
  | .named c e, ok => by
      simp only [Element.passes, trusts_and] at ok
      simpa [Element.pieces] using
        row_joined (c.row ok.1) (Symbol.row .arrow).inside (e.row ok.2)

theorem Actual.row : ∀ a : Actual, care.Trusts (a.passes care.checks) → care.Row a.pieces.text
  | .name n, ok => n.row ok
  | .expr e, ok => e.row ok
  | .unconnected, _ => by simpa [Actual.pieces] using fixed (by decide)

theorem Association.row : ∀ a : Association, care.Trusts (a.passes care.checks) →
    care.Row a.pieces.text
  | .positional a, ok => a.row ok
  | .named i a, ok => by
      simp only [Association.passes, trusts_and] at ok
      simpa [Association.pieces] using
        row_joined (Ident.row ok.1) (Symbol.row .arrow).inside (a.row ok.2)

theorem Expr.rowArgument : ∀ e : Option Expr, care.Trusts (Expr.passesOption care.checks e) →
    (Expr.argumentPieces e).text = "" ∨ care.Row (Expr.argumentPieces e).text
  | none, _ => .inl rfl
  | some e, ok => .inr (by
      simpa [Expr.argumentPieces] using row_parenthesized (e.row ok).inside)

theorem Expr.rowAll : ∀ es : List Expr, care.Trusts (Expr.passesAll care.checks es) →
    ∀ e ∈ es, care.Row e.pieces.text
  | [], _ => by simp
  | e :: es, ok => by
      simp only [Expr.passesAll, trusts_and] at ok
      exact List.forall_mem_cons.mpr ⟨e.row ok.1, Expr.rowAll es ok.2⟩

theorem Element.rowAll : ∀ es : List Element, care.Trusts (Element.passesAll care.checks es) →
    ∀ e ∈ es, care.Row e.pieces.text
  | [], _ => by simp
  | e :: es, ok => by
      simp only [Element.passesAll, trusts_and] at ok
      exact List.forall_mem_cons.mpr ⟨e.row ok.1, Element.rowAll es ok.2⟩

theorem Association.rowAll : ∀ as : List Association,
    care.Trusts (Association.passesAll care.checks as) → ∀ a ∈ as, care.Row a.pieces.text
  | [], _ => by simp
  | a :: as, ok => by
      simp only [Association.passesAll, trusts_and] at ok
      exact List.forall_mem_cons.mpr ⟨a.row ok.1, Association.rowAll as ok.2⟩

end

theorem Range.row_index {rs : List Range} (ok : ∀ r ∈ rs, care.Trusts (r.passes care.checks)) :
    care.Row (Range.indexPieces rs).text := by
  have each : ∀ x ∈ (rs.map Range.pieces).map Pieces.text, care.Inside x :=
    inside_map (List.forall_mem_map.mpr fun r member => (r.row (ok r member)).inside)
  simpa [Range.indexPieces] using row_parenthesized (inside_intercalate (inside (by decide)) each)

theorem Constraint.closes {c : Constraint} (ok : care.Trusts (c.passes care.checks)) :
    care.Closes c.pieces.text := by
  cases c with
  | range r =>
    have row := (r.row ok).closes.behind (inside (by decide) : care.Inside " range ")
    simpa [Constraint.pieces, ← String.append_assoc] using row
  | index rs =>
    simp only [Constraint.passes, trusts_and, trusts_all] at ok
    exact (Range.row_index ok.2).closes

theorem SubtypeIndication.row {s : SubtypeIndication} (ok : care.Trusts (s.passes care.checks)) :
    care.Row s.text := by
  obtain ⟨mark, constraint⟩ := s
  simp only [SubtypeIndication.passes, trusts_and, trusts_option] at ok
  cases constraint with
  | none => simpa [SubtypeIndication.text, SubtypeIndication.pieces] using Ident.row ok.1
  | some c =>
    simpa [SubtypeIndication.text, SubtypeIndication.pieces] using
      (Ident.row ok.1).opens.close (Constraint.closes (ok.2 c rfl))

theorem WaveformElement.inside {w : WaveformElement} (ok : care.Trusts (w.passes care.checks)) :
    care.Inside w.text := by
  obtain ⟨value, delay⟩ := w
  simp only [WaveformElement.passes, trusts_and, trusts_option] at ok
  cases delay with
  | none => exact (value.row ok.1).inside
  | some delay =>
    have joined := row_joined (value.row ok.1) (Care.inside (by decide) : care.Inside "after")
      (delay.row (ok.2 delay rfl))
    simpa [WaveformElement.text, WaveformElement.pieces] using joined.inside

theorem Waveform.inside {w : Waveform} (ok : care.Trusts (w.passes care.checks)) :
    care.Inside w.text := by
  cases w with
  | elements ws =>
    simp only [Waveform.passes, trusts_and, trusts_all] at ok
    have each : ∀ x ∈ (ws.map WaveformElement.pieces).map Pieces.text, care.Inside x :=
      inside_map (List.forall_mem_map.mpr fun w member => WaveformElement.inside (ok.2 w member))
    simpa [Waveform.text, Waveform.pieces] using inside_intercalate (Care.inside (by decide)) each
  | unaffected => simpa [Waveform.text, Waveform.pieces] using Care.inside (by decide)

end Vhdl93
