import Vhdl93.Proofs.Grammar.Printed

set_option autoImplicit false

namespace Vhdl93

open Grammar

def Expr.isSimple : Expr → Bool
  | .binary op _ _ => Tier.adding.precedence ≤ op.precedence
  | _ => true

namespace Grammar

theorem adding_le_precedence (op : BinaryOp) :
    Tier.adding.precedence ≤ op.precedence ↔ Level.simple.rank ≤ (levelOf op).rank := by
  rw [precedence_levelOf, ← Nat.not_lt, ← Nat.not_lt]
  exact not_congr (precedence_lt_iff (levelOf op) .simple)

theorem isSimple_iff (e : Expr) : e.isSimple = true ↔ Level.simple.rank ≤ e.category.rank := by
  rcases operand_forms e with ⟨op, l, r, rfl⟩ | ⟨operand, forms⟩
  · simp [Expr.isSimple, Expr.category, Category.rank, adding_le_precedence]
  · have simple : e.isSimple = true := by
      cases e with
      | binary op l r => exact absurd rfl (operand op l r)
      | unary | literal | name | call | aggregate => rfl
    rcases forms with ⟨category, -⟩ | ⟨op, -, ⟨-, category⟩ | ⟨-, category⟩⟩ <;>
      simp [simple, category, Category.rank, Level.rank]

theorem narrow_simple {es : List Expr} (simple : ∀ e ∈ es, e.isSimple = true) :
    Narrow .simple es :=
  fun e member => (isSimple_iff e).mp (simple e member)

/-- The first logical, relational or shift operator of a text stands behind a simple expression. -/
theorem loose_split : ∀ e : Expr, e.passes .documented = true → e.isSimple = false →
    ∃ (us vs : List Token) (op : BinaryOp) (t : Tree), e.pieces.tokens = us ++ op.token :: vs ∧
      (levelOf op).rank < Level.simple.rank ∧ Derives .expression (.level .simple) us t
  | .binary op l r, ok, loose => by
      simp only [Expr.passes, Bool.and_eq_true] at ok
      have rank : (levelOf op).rank < Level.simple.rank := by
        simpa [Expr.isSimple, adding_le_precedence] using loose
      have printed := l.derives ok.1
      simp only [Expr.pieces, Pieces.tokens_append, tokens_blank, tokens_cons]
      cases parens : op.parenthesizesLeft l with
      | true =>
        simp only [Pieces.operand, if_true, tokens_parenthesized]
        exact ⟨_, _, op, _, rfl, rank, printed.enclose.ofPrimary _⟩
      | false =>
        simp only [Pieces.operand, Bool.false_eq_true, if_false]
        cases simple : l.isSimple with
        | true => exact ⟨_, _, op, _, rfl, rank, printed.toLevel ((isSimple_iff l).mp simple)⟩
        | false =>
          obtain ⟨us, vs, first, t, split, looser, front⟩ := loose_split l ok.1 simple
          rw [split, List.append_assoc, List.cons_append]
          exact ⟨us, _, first, t, rfl, looser, front⟩
  | .unary .., _, loose | .literal _, _, loose | .name _, _, loose | .call .., _, loose
  | .aggregate _, _, loose => by simp [Expr.isSimple] at loose

theorem loose_operator_stops {op : BinaryOp} (loose : (levelOf op).rank < Level.simple.rank)
    (rest : List Token) : (Category.level .simple).Stops (op.token :: rest) := by
  have operand : (levelOf op).operand.Stops (op.token :: rest) :=
    operator_stops rfl (rank_operand _)
  refine operand.mono ?_
  rw [rank_operand]
  exact loose

variable {place : Level} {t : Tree}

theorem isSimple_of_derives {e : Expr} (ok : e.passes .documented = true)
    (derivation : Derives place (.level .simple) e.pieces.tokens t) : e.isSimple = true := by
  cases simple : e.isSimple with
  | true => rfl
  | false =>
    -- Two simple expressions at the front of one text would end at different places.
    obtain ⟨us, vs, op, u, split, loose, front⟩ := loose_split e ok simple
    have whole := derivation.loosen
    rw [split] at whole
    have ends : (Category.level .simple).Stops [] := by simp [Category.Stops]
    have same := levels_unique .expression _ .simple (Nat.lt_succ_self _) front whole
      (List.append_nil _).symm (loose_operator_stops loose vs) ends
    simpa using same.1

theorem derives_simple_iff {e : Expr} (ok : e.passes .documented = true)
    (inner : ∀ b ∈ e.placed, b.isSimple = true) :
    Derives .simple (.level .simple) e.pieces.tokens t ↔ e.isSimple = true ∧ t = e.norm := by
  constructor
  · intro derivation
    have printed := (e.derives ok).toLevel (l := .expression) (Nat.zero_le _)
    exact ⟨isSimple_of_derives ok derivation,
      (derivation.loosen.widen (Nat.zero_le _)).unique printed⟩
  · rintro ⟨simple, rfl⟩
    exact (e.derivesAt ok (narrow_simple inner)).toLevel ((isSimple_iff e).mp simple)

theorem direction_inj {d d' : Direction} (same : d.text = d'.text) : d = d' := by
  revert same
  cases d <;> cases d' <;> decide

theorem bounds_of_range {d : Direction} {l r : Expr} (left : l.passes .documented = true)
    (derivation : Derives place .range (Range.bounds d l r).pieces.tokens t) :
    ∃ u v, Derives place (.level place) l.pieces.tokens u ∧
      Derives place (.level place) r.pieces.tokens v ∧ t = .bounds d u v := by
  have printed := (l.derives left).toLevel (l := .expression) (Nat.zero_le _)
  have stops (d : Direction) (rest : List Token) :
      (Category.level .expression).Stops (.keyword d.text :: rest) :=
    separator_stops _ rest (by cases d <;> simp [Direction.text])
  simp only [Range.pieces, Pieces.tokens_append, tokens_blank, tokens_keyword] at derivation
  generalize whole : l.pieces.tokens ++ .keyword d.text :: r.pieces.tokens = ts at derivation
  cases derivation with
  | @bounds _ d' us vs u v terminal first second =>
    obtain rfl := direction?_eq_some_iff.1 terminal
    have wide := first.loosen.widen (m := .expression) (Nat.zero_le _)
    have same := levels_unique .expression _ .expression (Nat.lt_succ_self _) printed wide whole
      (stops d _) (stops d' _)
    obtain rfl := same.1
    simp only [List.append_cancel_left_eq, List.cons.injEq, Token.keyword.injEq] at whole
    obtain ⟨direction, rfl⟩ := whole
    obtain rfl := direction_inj direction
    exact ⟨u, v, first, second, rfl⟩

theorem value_of_choice {e : Expr} (ok : e.passes .documented = true)
    (derivation : Derives place .choice (Choice.expr e).pieces.tokens t) :
    Derives place (.level place) e.pieces.tokens t := by
  have printed := (e.derives ok).toLevel (l := .expression) (Nat.zero_le _)
  obtain ⟨token, rest, begins, starts⟩ := printed.starts
  simp only [Choice.pieces] at derivation
  rw [begins] at derivation ⊢
  generalize whole : token :: rest = ts at derivation ⊢
  cases derivation with
  | chosen value => exact value
  | others =>
    obtain ⟨rfl, -⟩ := List.cons.inj whole
    obtain primary | ⟨op, same⟩ := starts
    · simp [startsPrimary, literal?] at primary
    · cases op <;> simp [UnaryOp.token] at same

/-- Bounds and choices stand without parentheses: where those inside them are simple expressions,
the text of a range is one of the grammar just where both bounds are simple expressions too, that of
a choice just where the choice is, and each is then read back as itself only. -/
theorem simple_bounds_and_choices (d : Direction) (l r e : Expr)
    (left : l.passes .documented = true) (right : r.passes .documented = true)
    (choice : e.passes .documented = true)
    (inner : ∀ b ∈ l.placed ++ r.placed ++ e.placed, b.isSimple = true) (t : Tree) :
    (Derives .simple .range (Range.bounds d l r).pieces.tokens t ↔
      (l.isSimple = true ∧ r.isSimple = true) ∧ t = .bounds d l.norm r.norm) ∧
    (Derives .simple .choice (Choice.expr e).pieces.tokens t ↔ e.isSimple = true ∧ t = e.norm) := by
  simp only [List.forall_mem_append] at inner
  obtain ⟨⟨innerLeft, innerRight⟩, innerChoice⟩ := inner
  refine ⟨⟨?_, ?_⟩, ⟨?_, ?_⟩⟩
  · intro derivation
    obtain ⟨u, v, first, second, rfl⟩ := bounds_of_range left derivation
    obtain ⟨simple, rfl⟩ := (derives_simple_iff left innerLeft).mp first
    obtain ⟨simple', rfl⟩ := (derives_simple_iff right innerRight).mp second
    exact ⟨⟨simple, simple'⟩, rfl⟩
  · rintro ⟨⟨simple, simple'⟩, rfl⟩
    have first := (derives_simple_iff left innerLeft).mpr ⟨simple, rfl⟩
    have second := (derives_simple_iff right innerRight).mpr ⟨simple', rfl⟩
    simpa [Range.pieces] using Derives.ofBounds d first second
  · intro derivation
    exact (derives_simple_iff choice innerChoice).mp (value_of_choice choice derivation)
  · intro simple
    exact .chosen ((derives_simple_iff choice innerChoice).mpr simple)

theorem simple_bounds_of_difference :
    let a := Expr.name (.simple (.basic "a"))
    let b := Expr.name (.simple (.basic "b"))
    let number := fun n => Expr.literal (.integer n)
    let minusReal := Expr.literal (.real ⟨0xC004000000000000⟩)
    let range := Range.bounds .descending (.binary .minus a (number 1)) minusReal
    let piece := Expr.name (.slice (.simple (.basic "x")) (.bounds .ascending (number 0) (number 3)))
    let choice := Choice.expr (.binary .concat piece b)
    ∀ t : Tree, (Derives .simple .range range.pieces.tokens t ↔
      t = .bounds .descending (.binary .minus (.ident (.basic "a")) (.literal (.integer 1)))
        (.unary .minus (.literal (.real ⟨0x4004000000000000⟩)))) ∧
      (Derives .simple .choice choice.pieces.tokens t ↔ t = choice.norm) := by
  intro a b number minusReal range piece choice t
  have both := simple_bounds_and_choices .descending (.binary .minus a (number 1)) minusReal
    (.binary .concat piece b) (by decide) (by decide) (by decide) (by decide) t
  exact ⟨both.1.trans (and_iff_right (by decide)), both.2.trans (and_iff_right (by decide))⟩

/-- A comparison as a bound and a conjunction as a choice are printed as they are, and no range and
no choice reads so. -/
theorem loose_bound_rejected :
    let a := Expr.name (.simple (.basic "a"))
    let b := Expr.name (.simple (.basic "b"))
    let range := Range.bounds .ascending (.binary .less a b) (.literal (.integer 3))
    let choice := Choice.expr (.binary .and a b)
    (range.text = "a < b to 3" ∧ ¬ ∃ t, Derives .simple .range range.pieces.tokens t) ∧
      choice.text = "a and b" ∧ ¬ ∃ t, Derives .simple .choice choice.pieces.tokens t := by
  intro a b range choice
  refine ⟨⟨by decide, ?_⟩, by decide, ?_⟩
  · rintro ⟨t, derivation⟩
    obtain ⟨u, v, first, -, -⟩ := bounds_of_range (by decide) derivation
    exact absurd (isSimple_of_derives (by decide) first) (by decide)
  · rintro ⟨t, derivation⟩
    have value := value_of_choice (by decide) derivation
    exact absurd (isSimple_of_derives (by decide) value) (by decide)

end Grammar

end Vhdl93
