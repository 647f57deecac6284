import Vhdl93.Proofs.Binary64.Grid
import Vhdl93.Proofs.Inline.Checks

set_option autoImplicit false

namespace Vhdl93

namespace Binary64

def zero : Binary64 := ⟨0⟩

def minusZero : Binary64 := ⟨0x8000000000000000⟩

def mergeZeros (x : Binary64) : Binary64 := if x = minusZero then zero else x

variable {x y : Binary64}

theorem isZero_iff_eq : x.isZero = true ↔ x = zero ∨ x = minusZero := by
  constructor
  · intro nothing
    have order : x.order = 0 := (isZero_iff x).1 nothing
    cases sign : x.negative with
    | false => exact .inl (eq_of_order (sign.trans (by decide)) (order.trans (by decide)))
    | true => exact .inr (eq_of_order (sign.trans (by decide)) (order.trans (by decide)))
  · rintro (rfl | rfl) <;> decide

theorem mergeZeros_eq_zero_iff : x.mergeZeros = zero ↔ x.isZero = true := by
  rw [isZero_iff_eq, mergeZeros]
  split <;> simp_all

theorem eqv_iff_mergeZeros (numeric : x.isNaN = false) :
    x.eqv y = true ↔ x.mergeZeros = y.mergeZeros := by
  have known : x.eqv y = true ↔ y.isNaN = false ∧ (x = y ∨ x.isZero = true ∧ y.isZero = true) := by
    simp [eqv, numeric]
  rw [known]
  constructor
  · rintro ⟨-, rfl | ⟨left, right⟩⟩
    · rfl
    · rw [mergeZeros_eq_zero_iff.2 left, mergeZeros_eq_zero_iff.2 right]
  · intro same
    have both : x.isZero = true ↔ y.isZero = true := by
      rw [← mergeZeros_eq_zero_iff, ← mergeZeros_eq_zero_iff, same]
    -- Only zeros merge; any other two numbers were the same before.
    by_cases nothing : x.isZero = true
    · have number : y.isNaN = false := by
        rw [Bool.eq_false_iff, ne_eq, isNaN_iff, (isZero_iff y).1 (both.1 nothing)]
        decide
      exact ⟨number, .inr ⟨nothing, both.1 nothing⟩⟩
    · have unsigned : x ≠ minusZero := fun h => nothing (isZero_iff_eq.2 (.inr h))
      have unsigned' : y ≠ minusZero := fun h => nothing (both.2 (isZero_iff_eq.2 (.inr h)))
      rw [mergeZeros, if_neg unsigned, mergeZeros, if_neg unsigned'] at same
      exact ⟨same ▸ numeric, .inl same⟩

end Binary64

def Literal.zeroIsUnsigned : Literal → Bool
  | .real x => x ≠ Binary64.minusZero
  | _ => true

abbrev Checks.unsignedZeros : Checks := .ofLiterals Literal.zeroIsUnsigned

/-- Equality with a tree that has no NaN is identity of what `merge` makes of the trees, and `merge`
leaves a tree without a negative zero as it is. -/
structure ComparedBy {α : Type} [BEq α] (merge : α → α) (passes : Checks → α → Bool) : Prop where
  eqv_iff : ∀ x, passes .numeric x = true → ∀ y, (x == y) = true ↔ merge x = merge y
  merge_eq : ∀ x, passes .unsignedZeros x = true → merge x = x

namespace ComparedBy

variable {α : Type} [BEq α] {merge : α → α} {passes : Checks → α → Bool}

theorem id [LawfulBEq α] : ComparedBy (fun x : α => x) passes where
  eqv_iff _ _ _ := beq_iff_eq
  merge_eq _ _ := rfl

theorem list (compared : ComparedBy merge passes) :
    ComparedBy (List.map merge) fun c xs => xs.all (passes c) where
  eqv_iff xs ok ys := by
    induction xs generalizing ys with
    | nil => cases ys <;> simp
    | cons x xs ih =>
      rw [List.all_cons, Bool.and_eq_true] at ok
      cases ys with
      | nil => simp
      | cons y ys => simp [compared.eqv_iff x ok.1, ih ok.2]
  merge_eq xs ok := by
    have each : ∀ x ∈ xs, merge x = x := fun x member =>
      compared.merge_eq x (List.all_eq_true.1 ok x member)
    rw [List.map_congr_left each, List.map_id']

theorem option (compared : ComparedBy merge passes) :
    ComparedBy (Option.map merge) fun c o => o.all (passes c) where
  eqv_iff o ok p := by
    cases o with
    | none => cases p <;> simp
    | some x =>
      cases p with
      | none => simp
      | some y => simp [compared.eqv_iff x ok]
  merge_eq o ok := by
    cases o with
    | none => rfl
    | some x => simp [compared.merge_eq x ok]

end ComparedBy

def Literal.mergeZeros : Literal → Literal
  | .real x => .real x.mergeZeros
  | other => other

theorem Literal.compared : ComparedBy Literal.mergeZeros fun c x => c.literal x where
  eqv_iff x numeric y := by
    show x.eqv y = true ↔ x.mergeZeros = y.mergeZeros
    cases x <;> cases y <;> simp [Literal.eqv, Literal.mergeZeros]
    case real.real a b => exact Binary64.eqv_iff_mergeZeros (by simpa [isNumeric] using numeric)
  merge_eq x unsigned := by
    cases x <;> simp only [Literal.mergeZeros]
    case real a => rw [Binary64.mergeZeros, if_neg (by simpa [zeroIsUnsigned] using unsigned)]

mutual

def Name.mergeZeros : Name → Name
  | .simple i => .simple i
  | .selected base suffix => .selected base.mergeZeros suffix
  | .indexed base es => .indexed base.mergeZeros (Expr.mergeZerosAll es)
  | .slice base range => .slice base.mergeZeros range.mergeZeros
  | .attribute base i e => .attribute base.mergeZeros i (Expr.mergeZerosOption e)

def Range.mergeZeros : Range → Range
  | .bounds d l r => .bounds d l.mergeZeros r.mergeZeros
  | .attribute base i e => .attribute base.mergeZeros i (Expr.mergeZerosOption e)

def Expr.mergeZeros : Expr → Expr
  | .binary op l r => .binary op l.mergeZeros r.mergeZeros
  | .unary op e => .unary op e.mergeZeros
  | .literal x => .literal x.mergeZeros
  | .name n => .name n.mergeZeros
  | .call n as => .call n.mergeZeros (Association.mergeZerosAll as)
  | .aggregate es => .aggregate (Element.mergeZerosAll es)

def Choice.mergeZeros : Choice → Choice
  | .expr e => .expr e.mergeZeros
  | .others => .others

def Element.mergeZeros : Element → Element
  | .positional e => .positional e.mergeZeros
  | .named choice e => .named choice.mergeZeros e.mergeZeros

def Actual.mergeZeros : Actual → Actual
  | .name n => .name n.mergeZeros
  | .expr e => .expr e.mergeZeros
  | .unconnected => .unconnected

def Association.mergeZeros : Association → Association
  | .positional a => .positional a.mergeZeros
  | .named i a => .named i a.mergeZeros

def Expr.mergeZerosOption : Option Expr → Option Expr
  | none => none
  | some e => some e.mergeZeros

def Expr.mergeZerosAll : List Expr → List Expr
  | [] => []
  | e :: es => e.mergeZeros :: Expr.mergeZerosAll es

def Element.mergeZerosAll : List Element → List Element
  | [] => []
  | e :: es => e.mergeZeros :: Element.mergeZerosAll es

def Association.mergeZerosAll : List Association → List Association
  | [] => []
  | a :: as => a.mergeZeros :: Association.mergeZerosAll as

end

mutual

-- Against a tree of another form both sides are false, so only trees of one form are compared.
theorem Name.eqv_iff_mergeZeros : ∀ n : Name, n.passes .numeric = true →
    ∀ m, n.eqv m = true ↔ n.mergeZeros = m.mergeZeros
  | .simple i, _, m => by cases m <;> simp [Name.eqv, Name.mergeZeros]
  | .selected base suffix, ok, m => by
      simp only [Name.passes, Bool.and_eq_true] at ok
      cases m <;> simp [Name.eqv, Name.mergeZeros, base.eqv_iff_mergeZeros ok.1]
  | .indexed base es, ok, m => by
      simp only [Name.passes, Bool.and_eq_true] at ok
      cases m <;>
        simp [Name.eqv, Name.mergeZeros, base.eqv_iff_mergeZeros ok.1.1,
          Expr.eqvAll_iff_mergeZeros es ok.2]
  | .slice base range, ok, m => by
      simp only [Name.passes, Bool.and_eq_true] at ok
      cases m <;>
        simp [Name.eqv, Name.mergeZeros, base.eqv_iff_mergeZeros ok.1,
          range.eqv_iff_mergeZeros ok.2]
  | .attribute base i e, ok, m => by
      simp only [Name.passes, Bool.and_eq_true] at ok
      cases m <;>
        simp [Name.eqv, Name.mergeZeros, base.eqv_iff_mergeZeros ok.1.1.1,
          Expr.eqvOption_iff_mergeZeros e ok.2, and_assoc]
termination_by structural x => x

theorem Range.eqv_iff_mergeZeros : ∀ r : Range, r.passes .numeric = true →
    ∀ s, r.eqv s = true ↔ r.mergeZeros = s.mergeZeros
  | .bounds d left right, ok, s => by
      simp only [Range.passes, Bool.and_eq_true] at ok
      cases s <;>
        simp [Range.eqv, Range.mergeZeros, left.eqv_iff_mergeZeros ok.1,
          right.eqv_iff_mergeZeros ok.2, and_assoc]
  | .attribute base i e, ok, s => by
      simp only [Range.passes, Bool.and_eq_true] at ok
      cases s <;>
        simp [Range.eqv, Range.mergeZeros, base.eqv_iff_mergeZeros ok.1.1.1,
          Expr.eqvOption_iff_mergeZeros e ok.2, and_assoc]
termination_by structural x => x

theorem Expr.eqv_iff_mergeZeros : ∀ e : Expr, e.passes .numeric = true →
    ∀ f, e.eqv f = true ↔ e.mergeZeros = f.mergeZeros
  | .binary op left right, ok, f => by
      simp only [Expr.passes, Bool.and_eq_true] at ok
      cases f <;>
        simp [Expr.eqv, Expr.mergeZeros, left.eqv_iff_mergeZeros ok.1,
          right.eqv_iff_mergeZeros ok.2, and_assoc]
  | .unary op e, ok, f => by
      cases f <;> simp [Expr.eqv, Expr.mergeZeros, e.eqv_iff_mergeZeros ok]
  | .literal x, ok, f => by
      cases f <;> simp [Expr.eqv, Expr.mergeZeros, Literal.compared.eqv_iff x ok]
  | .name n, ok, f => by
      cases f <;> simp [Expr.eqv, Expr.mergeZeros, n.eqv_iff_mergeZeros ok]
  | .call n as, ok, f => by
      simp only [Expr.passes, Bool.and_eq_true] at ok
      cases f <;>
        simp [Expr.eqv, Expr.mergeZeros, n.eqv_iff_mergeZeros ok.1,
          Association.eqvAll_iff_mergeZeros as ok.2]
  | .aggregate es, ok, f => by
      simp only [Expr.passes, Bool.and_eq_true] at ok
      cases f <;> simp [Expr.eqv, Expr.mergeZeros, Element.eqvAll_iff_mergeZeros es ok.2]
termination_by structural x => x

theorem Choice.eqv_iff_mergeZeros : ∀ c : Choice, c.passes .numeric = true →
    ∀ d, c.eqv d = true ↔ c.mergeZeros = d.mergeZeros
  | .expr e, ok, d => by cases d <;> simp [Choice.eqv, Choice.mergeZeros, e.eqv_iff_mergeZeros ok]
  | .others, _, d => by cases d <;> simp [Choice.eqv, Choice.mergeZeros]
termination_by structural x => x

theorem Element.eqv_iff_mergeZeros : ∀ e : Element, e.passes .numeric = true →
    ∀ f, e.eqv f = true ↔ e.mergeZeros = f.mergeZeros
  | .positional e, ok, f => by
      cases f <;> simp [Element.eqv, Element.mergeZeros, e.eqv_iff_mergeZeros ok]
  | .named choice e, ok, f => by
      simp only [Element.passes, Bool.and_eq_true] at ok
      cases f <;>
        simp [Element.eqv, Element.mergeZeros, choice.eqv_iff_mergeZeros ok.1,
          e.eqv_iff_mergeZeros ok.2]
termination_by structural x => x

theorem Actual.eqv_iff_mergeZeros : ∀ a : Actual, a.passes .numeric = true →
    ∀ b, a.eqv b = true ↔ a.mergeZeros = b.mergeZeros
  | .name n, ok, b => by cases b <;> simp [Actual.eqv, Actual.mergeZeros, n.eqv_iff_mergeZeros ok]
  | .expr e, ok, b => by cases b <;> simp [Actual.eqv, Actual.mergeZeros, e.eqv_iff_mergeZeros ok]
  | .unconnected, _, b => by cases b <;> simp [Actual.eqv, Actual.mergeZeros]
termination_by structural x => x

theorem Association.eqv_iff_mergeZeros : ∀ a : Association, a.passes .numeric = true →
    ∀ b, a.eqv b = true ↔ a.mergeZeros = b.mergeZeros
  | .positional a, ok, b => by
      cases b <;> simp [Association.eqv, Association.mergeZeros, a.eqv_iff_mergeZeros ok]
  | .named i a, ok, b => by
      simp only [Association.passes, Bool.and_eq_true] at ok
      cases b <;> simp [Association.eqv, Association.mergeZeros, a.eqv_iff_mergeZeros ok.2]
termination_by structural x => x

theorem Expr.eqvOption_iff_mergeZeros : ∀ e : Option Expr, Expr.passesOption .numeric e = true →
    ∀ f, Expr.eqvOption e f = true ↔ Expr.mergeZerosOption e = Expr.mergeZerosOption f
  | none, _, f => by cases f <;> simp [Expr.eqvOption, Expr.mergeZerosOption]
  | some e, ok, f => by
      cases f <;> simp [Expr.eqvOption, Expr.mergeZerosOption, e.eqv_iff_mergeZeros ok]
termination_by structural x => x

theorem Expr.eqvAll_iff_mergeZeros : ∀ es : List Expr, Expr.passesAll .numeric es = true →
    ∀ fs, Expr.eqvAll es fs = true ↔ Expr.mergeZerosAll es = Expr.mergeZerosAll fs
  | [], _, fs => by cases fs <;> simp [Expr.eqvAll, Expr.mergeZerosAll]
  | e :: es, ok, fs => by
      simp only [Expr.passesAll, Bool.and_eq_true] at ok
      cases fs <;>
        simp [Expr.eqvAll, Expr.mergeZerosAll, e.eqv_iff_mergeZeros ok.1,
          Expr.eqvAll_iff_mergeZeros es ok.2]
termination_by structural x => x

theorem Element.eqvAll_iff_mergeZeros : ∀ es : List Element, Element.passesAll .numeric es = true →
    ∀ fs, Element.eqvAll es fs = true ↔ Element.mergeZerosAll es = Element.mergeZerosAll fs
  | [], _, fs => by cases fs <;> simp [Element.eqvAll, Element.mergeZerosAll]
  | e :: es, ok, fs => by
      simp only [Element.passesAll, Bool.and_eq_true] at ok
      cases fs <;>
        simp [Element.eqvAll, Element.mergeZerosAll, e.eqv_iff_mergeZeros ok.1,
          Element.eqvAll_iff_mergeZeros es ok.2]
termination_by structural x => x

theorem Association.eqvAll_iff_mergeZeros : ∀ as : List Association,
    Association.passesAll .numeric as = true →
    ∀ bs, Association.eqvAll as bs = true ↔
      Association.mergeZerosAll as = Association.mergeZerosAll bs
  | [], _, bs => by cases bs <;> simp [Association.eqvAll, Association.mergeZerosAll]
  | a :: as, ok, bs => by
      simp only [Association.passesAll, Bool.and_eq_true] at ok
      cases bs <;>
        simp [Association.eqvAll, Association.mergeZerosAll, a.eqv_iff_mergeZeros ok.1,
          Association.eqvAll_iff_mergeZeros as ok.2]
termination_by structural x => x

end

mutual

theorem Name.mergeZeros_eq : ∀ n : Name, n.passes .unsignedZeros = true → n.mergeZeros = n
  | .simple _, _ => rfl
  | .selected base suffix, ok => by
      simp only [Name.passes, Bool.and_eq_true] at ok
      rw [Name.mergeZeros, base.mergeZeros_eq ok.1]
  | .indexed base es, ok => by
      simp only [Name.passes, Bool.and_eq_true] at ok
      rw [Name.mergeZeros, base.mergeZeros_eq ok.1.1, Expr.mergeZerosAll_eq es ok.2]
  | .slice base range, ok => by
      simp only [Name.passes, Bool.and_eq_true] at ok
      rw [Name.mergeZeros, base.mergeZeros_eq ok.1, range.mergeZeros_eq ok.2]
  | .attribute base i e, ok => by
      simp only [Name.passes, Bool.and_eq_true] at ok
      rw [Name.mergeZeros, base.mergeZeros_eq ok.1.1.1, Expr.mergeZerosOption_eq e ok.2]
termination_by structural x => x

theorem Range.mergeZeros_eq : ∀ r : Range, r.passes .unsignedZeros = true → r.mergeZeros = r
  | .bounds d left right, ok => by
      simp only [Range.passes, Bool.and_eq_true] at ok
      rw [Range.mergeZeros, left.mergeZeros_eq ok.1, right.mergeZeros_eq ok.2]
  | .attribute base i e, ok => by
      simp only [Range.passes, Bool.and_eq_true] at ok
      rw [Range.mergeZeros, base.mergeZeros_eq ok.1.1.1, Expr.mergeZerosOption_eq e ok.2]
termination_by structural x => x

theorem Expr.mergeZeros_eq : ∀ e : Expr, e.passes .unsignedZeros = true → e.mergeZeros = e
  | .binary op left right, ok => by
      simp only [Expr.passes, Bool.and_eq_true] at ok
      rw [Expr.mergeZeros, left.mergeZeros_eq ok.1, right.mergeZeros_eq ok.2]
  | .unary op e, ok => by rw [Expr.mergeZeros, e.mergeZeros_eq ok]
  | .literal x, ok => by rw [Expr.mergeZeros, Literal.compared.merge_eq x ok]
  | .name n, ok => by rw [Expr.mergeZeros, n.mergeZeros_eq ok]
  | .call n as, ok => by
      simp only [Expr.passes, Bool.and_eq_true] at ok
      rw [Expr.mergeZeros, n.mergeZeros_eq ok.1, Association.mergeZerosAll_eq as ok.2]
  | .aggregate es, ok => by
      simp only [Expr.passes, Bool.and_eq_true] at ok
      rw [Expr.mergeZeros, Element.mergeZerosAll_eq es ok.2]
termination_by structural x => x

theorem Choice.mergeZeros_eq : ∀ c : Choice, c.passes .unsignedZeros = true → c.mergeZeros = c
  | .expr e, ok => by rw [Choice.mergeZeros, e.mergeZeros_eq ok]
  | .others, _ => rfl
termination_by structural x => x

theorem Element.mergeZeros_eq : ∀ e : Element, e.passes .unsignedZeros = true → e.mergeZeros = e
  | .positional e, ok => by rw [Element.mergeZeros, e.mergeZeros_eq ok]
  | .named choice e, ok => by
      simp only [Element.passes, Bool.and_eq_true] at ok
      rw [Element.mergeZeros, choice.mergeZeros_eq ok.1, e.mergeZeros_eq ok.2]
termination_by structural x => x

theorem Actual.mergeZeros_eq : ∀ a : Actual, a.passes .unsignedZeros = true → a.mergeZeros = a
  | .name n, ok => by rw [Actual.mergeZeros, n.mergeZeros_eq ok]
  | .expr e, ok => by rw [Actual.mergeZeros, e.mergeZeros_eq ok]
  | .unconnected, _ => rfl
termination_by structural x => x

theorem Association.mergeZeros_eq : ∀ a : Association, a.passes .unsignedZeros = true →
    a.mergeZeros = a
  | .positional a, ok => by rw [Association.mergeZeros, a.mergeZeros_eq ok]
  | .named i a, ok => by
      simp only [Association.passes, Bool.and_eq_true] at ok
      rw [Association.mergeZeros, a.mergeZeros_eq ok.2]
termination_by structural x => x

theorem Expr.mergeZerosOption_eq : ∀ e : Option Expr, Expr.passesOption .unsignedZeros e = true →
    Expr.mergeZerosOption e = e
  | none, _ => rfl
  | some e, ok => by rw [Expr.mergeZerosOption, e.mergeZeros_eq ok]
termination_by structural x => x

theorem Expr.mergeZerosAll_eq : ∀ es : List Expr, Expr.passesAll .unsignedZeros es = true →
    Expr.mergeZerosAll es = es
  | [], _ => rfl
  | e :: es, ok => by
      simp only [Expr.passesAll, Bool.and_eq_true] at ok
      rw [Expr.mergeZerosAll, e.mergeZeros_eq ok.1, Expr.mergeZerosAll_eq es ok.2]
termination_by structural x => x

theorem Element.mergeZerosAll_eq : ∀ es : List Element, Element.passesAll .unsignedZeros es = true →
    Element.mergeZerosAll es = es
  | [], _ => rfl
  | e :: es, ok => by
      simp only [Element.passesAll, Bool.and_eq_true] at ok
      rw [Element.mergeZerosAll, e.mergeZeros_eq ok.1, Element.mergeZerosAll_eq es ok.2]
termination_by structural x => x

theorem Association.mergeZerosAll_eq : ∀ as : List Association,
    Association.passesAll .unsignedZeros as = true → Association.mergeZerosAll as = as
  | [], _ => rfl
  | a :: as, ok => by
      simp only [Association.passesAll, Bool.and_eq_true] at ok
      rw [Association.mergeZerosAll, a.mergeZeros_eq ok.1, Association.mergeZerosAll_eq as ok.2]
termination_by structural x => x

end

theorem Name.compared : ComparedBy Name.mergeZeros Name.passes :=
  ⟨Name.eqv_iff_mergeZeros, Name.mergeZeros_eq⟩

theorem Range.compared : ComparedBy Range.mergeZeros Range.passes :=
  ⟨Range.eqv_iff_mergeZeros, Range.mergeZeros_eq⟩

theorem Expr.compared : ComparedBy Expr.mergeZeros Expr.passes :=
  ⟨Expr.eqv_iff_mergeZeros, Expr.mergeZeros_eq⟩

theorem Choice.compared : ComparedBy Choice.mergeZeros Choice.passes :=
  ⟨Choice.eqv_iff_mergeZeros, Choice.mergeZeros_eq⟩

theorem Element.compared : ComparedBy Element.mergeZeros Element.passes :=
  ⟨Element.eqv_iff_mergeZeros, Element.mergeZeros_eq⟩

theorem Actual.compared : ComparedBy Actual.mergeZeros Actual.passes :=
  ⟨Actual.eqv_iff_mergeZeros, Actual.mergeZeros_eq⟩

theorem Association.compared : ComparedBy Association.mergeZeros Association.passes :=
  ⟨Association.eqv_iff_mergeZeros, Association.mergeZeros_eq⟩

def Constraint.mergeZeros : Constraint → Constraint
  | .range r => .range r.mergeZeros
  | .index rs => .index (rs.map Range.mergeZeros)

def SubtypeIndication.mergeZeros (s : SubtypeIndication) : SubtypeIndication :=
  { s with constraint := s.constraint.map Constraint.mergeZeros }

def WaveformElement.mergeZeros (w : WaveformElement) : WaveformElement :=
  ⟨w.value.mergeZeros, w.delay.map Expr.mergeZeros⟩

def Waveform.mergeZeros : Waveform → Waveform
  | .elements ws => .elements (ws.map WaveformElement.mergeZeros)
  | .unaffected => .unaffected

theorem Constraint.compared : ComparedBy Constraint.mergeZeros Constraint.passes where
  eqv_iff c ok d := by
    show c.eqv d = true ↔ c.mergeZeros = d.mergeZeros
    cases c with
    | range r =>
      cases d <;> simp [Constraint.eqv, Constraint.mergeZeros, Range.compared.eqv_iff r ok]
    | index rs =>
      simp only [Constraint.passes, Bool.and_eq_true] at ok
      cases d <;> simp [Constraint.eqv, Constraint.mergeZeros, Range.compared.list.eqv_iff rs ok.2]
  merge_eq c ok := by
    cases c with
    | range r => rw [Constraint.mergeZeros, Range.compared.merge_eq r ok]
    | index rs =>
      simp only [Constraint.passes, Bool.and_eq_true] at ok
      rw [Constraint.mergeZeros, Range.compared.list.merge_eq rs ok.2]

theorem SubtypeIndication.compared :
    ComparedBy SubtypeIndication.mergeZeros SubtypeIndication.passes where
  eqv_iff s ok t := by
    obtain ⟨mark, constraint⟩ := s
    obtain ⟨mark', constraint'⟩ := t
    simp only [SubtypeIndication.passes, Bool.and_eq_true] at ok
    show SubtypeIndication.eqv _ _ = true ↔ _
    simp [SubtypeIndication.eqv, SubtypeIndication.mergeZeros,
      Constraint.compared.option.eqv_iff constraint ok.2]
  merge_eq s ok := by
    simp only [SubtypeIndication.passes, Bool.and_eq_true] at ok
    rw [SubtypeIndication.mergeZeros, Constraint.compared.option.merge_eq s.constraint ok.2]

theorem WaveformElement.compared :
    ComparedBy WaveformElement.mergeZeros WaveformElement.passes where
  eqv_iff v ok w := by
    obtain ⟨value, delay⟩ := v
    obtain ⟨value', delay'⟩ := w
    simp only [WaveformElement.passes, Bool.and_eq_true] at ok
    show WaveformElement.eqv _ _ = true ↔ _
    simp [WaveformElement.eqv, WaveformElement.mergeZeros, Expr.compared.eqv_iff value ok.1,
      Expr.compared.option.eqv_iff delay ok.2]
  merge_eq v ok := by
    simp only [WaveformElement.passes, Bool.and_eq_true] at ok
    rw [WaveformElement.mergeZeros, Expr.compared.merge_eq v.value ok.1,
      Expr.compared.option.merge_eq v.delay ok.2]

theorem Waveform.compared : ComparedBy Waveform.mergeZeros Waveform.passes where
  eqv_iff v ok w := by
    show v.eqv w = true ↔ v.mergeZeros = w.mergeZeros
    cases v with
    | elements ws =>
      simp only [Waveform.passes, Bool.and_eq_true] at ok
      cases w <;>
        simp [Waveform.eqv, Waveform.mergeZeros, WaveformElement.compared.list.eqv_iff ws ok.2]
    | unaffected => cases w <;> simp [Waveform.eqv, Waveform.mergeZeros]
  merge_eq v ok := by
    cases v with
    | elements ws =>
      simp only [Waveform.passes, Bool.and_eq_true] at ok
      rw [Waveform.mergeZeros, WaveformElement.compared.list.merge_eq ws ok.2]
    | unaffected => rfl

end Vhdl93
