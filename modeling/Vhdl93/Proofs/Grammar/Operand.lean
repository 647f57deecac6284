import Vhdl93.Proofs.Grammar.Derivation

set_option autoImplicit false

namespace Vhdl93

open Grammar

/-- The narrowest category that the text of an expression derives from. -/
def Expr.category : Expr → Category
  | .binary op _ _ => .level (levelOf op)
  | .unary .plus _ | .unary .minus _ => .level .simple
  | .unary .abs _ | .unary .not _ => .level .factor
  | .literal (.real x) => if x.negative then .level .simple else .primary
  | _ => .primary

theorem Expr.category_cases (e : Expr) : e.category = .primary ∨ ∃ l, e.category = .level l := by
  cases e with
  | binary op l r => exact .inr ⟨_, rfl⟩
  | unary op e => cases op <;> exact .inr ⟨_, rfl⟩
  | name n | call n as | aggregate es => exact .inl rfl
  | literal x =>
    cases x with
    | real x =>
      cases sign : x.negative
      · exact .inl (by simp [category, sign])
      · exact .inr ⟨.simple, by simp [category, sign]⟩
    | integer | character | string | bitString | null => exact .inl rfl

namespace Grammar

def Level.tier : Level → Tier
  | .expression => .logical
  | .relation => .relational
  | .shift => .shift
  | .simple => .adding
  | .term => .multiplying
  | .factor => .miscellaneous

theorem tier_levelOf (op : BinaryOp) : op.tier = (levelOf op).tier := by
  cases op <;> rfl

theorem precedence_levelOf (op : BinaryOp) : op.precedence = (levelOf op).tier.precedence := by
  rw [BinaryOp.precedence, tier_levelOf]

theorem precedence_lt_iff (l m : Level) :
    l.tier.precedence < m.tier.precedence ↔ l.rank < m.rank := by
  cases l <;> cases m <;> decide

theorem precedence_eq_iff (l m : Level) : l.tier.precedence = m.tier.precedence ↔ l = m := by
  cases l <;> cases m <;> decide

def Repeats (op : BinaryOp) : Prop := op ∈ [BinaryOp.and, .or, .xor, .xnor]

theorem level_of_repeats {op : BinaryOp} (repeats : Repeats op) : levelOf op = .expression := by
  simp only [Repeats, List.mem_cons, List.not_mem_nil, or_false] at repeats
  rcases repeats with rfl | rfl | rfl | rfl <;> rfl

theorem chainsWith_iff (op inner : BinaryOp) (same : levelOf inner = levelOf op) :
    op.chainsWith inner = true ↔
      levelOf op = .simple ∨ levelOf op = .term ∨ op = inner ∧ Repeats op := by
  have tiers : op.tier = inner.tier := by rw [tier_levelOf, tier_levelOf, same]
  simp only [BinaryOp.chainsWith, tiers, decide_true, Bool.true_and]
  rw [← tiers]
  cases op <;> simp [BinaryOp.tier, levelOf, BinaryOp.repeatable, Repeats]

theorem rank_lt_primary (l : Level) : l.rank < Category.primary.rank := by
  cases l <;> decide

theorem rank_above_sign {l : Level} (tight : Tier.sign.precedence < l.tier.precedence) :
    Level.simple.rank < l.rank := by
  cases l <;> simp [Level.tier, Tier.precedence, Level.rank] at *

theorem rank_of_sign {l : Level} (tight : l.tier.precedence < Tier.sign.precedence) :
    l.rank < Level.simple.rank ∨ l = .simple := by
  cases l <;> simp [Level.tier, Tier.precedence, Level.rank] at *

theorem rank_of_word {l : Level} (tight : l.tier.precedence < Tier.miscellaneous.precedence) :
    l.rank < Level.factor.rank := by
  cases l <;> simp [Level.tier, Tier.precedence, Level.rank] at *

theorem rank_of_adding {l : Level} (tight : l.tier.precedence < Tier.adding.precedence) :
    l.rank < Level.simple.rank := by
  cases l <;> simp [Level.tier, Tier.precedence, Level.rank] at *

def IsOperand (e : Expr) : Prop := ∀ op l r, e ≠ .binary op l r

theorem operand_forms (e : Expr) :
    (∃ op l r, e = .binary op l r) ∨ IsOperand e ∧
      (e.category = .primary ∧ e.leadingOp? = none ∨ ∃ op, e.leadingOp? = some op ∧
        (op.tier = .sign ∧ e.category = .level .simple ∨
          op.tier = .miscellaneous ∧ e.category = .level .factor)) := by
  -- An expression is joined by an operator, or what it starts with shows in its category.
  cases e with
  | binary op l r => exact .inl ⟨op, l, r, rfl⟩
  | unary op e => cases op <;> simp [IsOperand, Expr.leadingOp?, Expr.category, UnaryOp.tier]
  | name n | call n as | aggregate es => simp [IsOperand, Expr.leadingOp?, Expr.category]
  | literal x =>
    cases x with
    | real x =>
      cases sign : x.negative <;>
        simp [IsOperand, Expr.leadingOp?, Expr.category, UnaryOp.tier, sign]
    | integer | character | string | bitString | null =>
      simp [IsOperand, Expr.leadingOp?, Expr.category]

theorem parenthesizesLeft_operand (op : BinaryOp) {e : Expr} (operand : IsOperand e) :
    op.parenthesizesLeft e = e.leadingOp?.any (·.precedence ≤ op.precedence) := by
  cases e with
  | binary inner l r => exact absurd rfl (operand inner l r)
  | unary | literal | name | call | aggregate => rfl

theorem parenthesizesRight_operand (op : BinaryOp) {e : Expr} (operand : IsOperand e) :
    op.parenthesizesRight e = e.leadingOp?.any fun inner =>
      match inner.tier with
      | .sign => Tier.adding.precedence ≤ op.precedence
      | tier => tier.precedence ≤ op.precedence := by
  cases e with
  | binary inner l r => exact absurd rfl (operand inner l r)
  | unary | literal | name | call | aggregate => rfl

theorem parenthesizes_operand (op : UnaryOp) {e : Expr} (operand : IsOperand e) :
    op.parenthesizes e =
      e.leadingOp?.any fun inner => op.tier ≠ .sign || inner.precedence ≤ op.precedence := by
  cases e with
  | binary inner l r => exact absurd rfl (operand inner l r)
  | unary | literal | name | call | aggregate => rfl

theorem left_bare {op : BinaryOp} {e : Expr} (bare : op.parenthesizesLeft e = false) :
    (levelOf op).rank < e.category.rank ∨
      (levelOf op = .simple ∨ levelOf op = .term) ∧ e.category = .level (levelOf op) ∨
      Repeats op ∧ ∃ l r, e = .binary op l r := by
  -- A left operand without parentheses is narrower than the operator, or it chains with it.
  rcases operand_forms e with ⟨inner, l, r, rfl⟩ | ⟨operand, forms⟩
  · simp only [BinaryOp.parenthesizesLeft, precedence_levelOf, precedence_lt_iff, precedence_eq_iff,
      Bool.or_eq_false_iff, decide_eq_false_iff_not, Bool.and_eq_false_imp, decide_eq_true_eq,
      Bool.not_eq_false'] at bare
    by_cases same : levelOf inner = levelOf op
    · rcases (chainsWith_iff op inner same).mp (bare.2 same) with simple | term | ⟨rfl, repeats⟩
      · exact .inr (.inl ⟨.inl simple, by rw [Expr.category, same]⟩)
      · exact .inr (.inl ⟨.inr term, by rw [Expr.category, same]⟩)
      · exact .inr (.inr ⟨repeats, l, r, rfl⟩)
    · have ranks : (levelOf inner).rank ≠ (levelOf op).rank := fun equal => same (rank_inj equal)
      exact .inl (by simp only [Expr.category, Category.rank]; omega)
  · rw [parenthesizesLeft_operand op operand] at bare
    rcases forms with ⟨primary, -⟩ | ⟨inner, leading, ⟨tier, simple⟩ | ⟨tier, factor⟩⟩
    · exact .inl (by rw [primary]; exact rank_lt_primary _)
    · simp only [leading, Option.any_some, UnaryOp.precedence, tier, precedence_levelOf,
        decide_eq_false_iff_not, Nat.not_le] at bare
      rcases rank_of_sign bare with less | same
      · exact .inl (by rw [simple]; exact less)
      · exact .inr (.inl ⟨.inl same, by rw [simple, same]⟩)
    · simp only [leading, Option.any_some, UnaryOp.precedence, tier, precedence_levelOf,
        decide_eq_false_iff_not, Nat.not_le] at bare
      exact .inl (by rw [factor]; exact rank_of_word bare)

theorem right_bare {op : BinaryOp} {e : Expr} (bare : op.parenthesizesRight e = false) :
    (levelOf op).rank < e.category.rank := by
  rcases operand_forms e with ⟨inner, l, r, rfl⟩ | ⟨operand, forms⟩
  · simpa only [BinaryOp.parenthesizesRight, precedence_levelOf, decide_eq_false_iff_not,
      Nat.not_le, precedence_lt_iff, Expr.category, Category.rank] using bare
  · rw [parenthesizesRight_operand op operand] at bare
    rcases forms with ⟨primary, -⟩ | ⟨inner, leading, ⟨tier, simple⟩ | ⟨tier, factor⟩⟩
    · rw [primary]
      exact rank_lt_primary _
    · simp only [leading, Option.any_some, tier, precedence_levelOf, decide_eq_false_iff_not,
        Nat.not_le] at bare
      rw [simple]
      exact rank_of_adding bare
    · simp only [leading, Option.any_some, tier, precedence_levelOf, decide_eq_false_iff_not,
        Nat.not_le] at bare
      rw [factor]
      exact rank_of_word bare

theorem sign_bare {op : UnaryOp} {e : Expr} (sign : op.tier = .sign)
    (bare : op.parenthesizes e = false) : Level.simple.rank < e.category.rank := by
  rcases operand_forms e with ⟨inner, l, r, rfl⟩ | ⟨operand, forms⟩
  · simp only [UnaryOp.parenthesizes, UnaryOp.precedence, sign, precedence_levelOf, ne_eq,
      not_true_eq_false, decide_false, Bool.false_or, decide_eq_false_iff_not, Nat.not_le] at bare
    exact rank_above_sign bare
  · rw [parenthesizes_operand op operand] at bare
    rcases forms with ⟨primary, -⟩ | ⟨inner, leading, ⟨tier, simple⟩ | ⟨tier, factor⟩⟩
    · rw [primary]
      exact rank_lt_primary _
    · simp [leading, UnaryOp.precedence, tier, sign] at bare
    · rw [factor]
      decide

theorem word_bare {op : UnaryOp} {e : Expr} (word : op.tier ≠ .sign)
    (bare : op.parenthesizes e = false) : e.category = .primary := by
  rcases operand_forms e with ⟨inner, l, r, rfl⟩ | ⟨operand, forms⟩
  · simp [UnaryOp.parenthesizes, word] at bare
  · rw [parenthesizes_operand op operand] at bare
    rcases forms with ⟨primary, -⟩ | ⟨inner, leading, -⟩
    · exact primary
    · simp [leading, word] at bare

end Grammar

end Vhdl93
