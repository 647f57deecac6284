import Vhdl93.Proofs.Grammar.Operand
import Vhdl93.Proofs.Grammar.Unambiguous
import Vhdl93.Proofs.Inline.Checks

set_option autoImplicit false

namespace Vhdl93

open Grammar

mutual

def Name.norm : Name → Tree
  | .simple i => .ident i
  | .selected base suffix => .selected base.norm suffix
  | .indexed base es => .applied base.norm (Expr.normAll es)
  | .slice base range => .applied base.norm [range.norm]
  | .attribute base i e => Expr.normArgument (.attribute base.norm i) e

def Range.norm : Range → Tree
  | .bounds d l r => .bounds d l.norm r.norm
  | .attribute base i e => Expr.normArgument (.attribute base.norm i) e

def Expr.norm : Expr → Tree
  | .binary op l r => .binary op l.norm r.norm
  | .unary op e => .unary op e.norm
  | .literal (.real x) =>
      if x.negative then .unary .minus (.literal (.real x.magnitude)) else .literal (.real x)
  | .literal x => .literal x
  | .name n => n.norm
  | .call n [] => n.norm
  | .call n (a :: as) => .applied n.norm (a.norm :: Association.normAll as)
  | .aggregate [.positional e] => e.norm
  | .aggregate es => .aggregate (Element.normAll es)

def Choice.norm : Choice → Tree
  | .expr e => e.norm
  | .others => .others

def Element.norm : Element → Tree
  | .positional e => e.norm
  | .named c e => .named c.norm e.norm

def Actual.norm : Actual → Tree
  | .name n => n.norm
  | .expr e => e.norm
  | .unconnected => .unconnected

def Association.norm : Association → Tree
  | .positional a => a.norm
  | .named i a => .named (.ident i) a.norm

def Expr.normArgument (base : Tree) : Option Expr → Tree
  | none => base
  | some e => .applied base [e.norm]

def Expr.normAll : List Expr → List Tree
  | [] => []
  | e :: es => e.norm :: Expr.normAll es

def Element.normAll : List Element → List Tree
  | [] => []
  | e :: es => e.norm :: Element.normAll es

def Association.normAll : List Association → List Tree
  | [] => []
  | a :: as => a.norm :: Association.normAll as

end

theorem Expr.normAll_eq_map (es : List Expr) : Expr.normAll es = es.map Expr.norm := by
  induction es with
  | nil => rfl
  | cons e es ih => simp [Expr.normAll, ih]

theorem Element.normAll_eq_map (es : List Element) : Element.normAll es = es.map Element.norm := by
  induction es with
  | nil => rfl
  | cons e es ih => simp [Element.normAll, ih]

theorem Association.normAll_eq_map (as : List Association) :
    Association.normAll as = as.map Association.norm := by
  induction as with
  | nil => rfl
  | cons a as ih => simp [Association.normAll, ih]

mutual

/-- The expressions inside that bound a range or choose an element. -/
def Name.placed : Name → List Expr
  | .simple _ => []
  | .selected base _ => base.placed
  | .indexed base es => base.placed ++ Expr.placedAll es
  | .slice base range => base.placed ++ range.placed
  | .attribute base _ e => base.placed ++ Expr.placedOption e

def Range.placed : Range → List Expr
  | .bounds _ l r => (l :: l.placed) ++ (r :: r.placed)
  | .attribute base _ e => base.placed ++ Expr.placedOption e

def Expr.placed : Expr → List Expr
  | .binary _ l r => l.placed ++ r.placed
  | .unary _ e => e.placed
  | .literal _ => []
  | .name n => n.placed
  | .call n as => n.placed ++ Association.placedAll as
  | .aggregate es => Element.placedAll es

def Choice.placed : Choice → List Expr
  | .expr e => e :: e.placed
  | .others => []

def Element.placed : Element → List Expr
  | .positional e => e.placed
  | .named c e => c.placed ++ e.placed

def Actual.placed : Actual → List Expr
  | .name n => n.placed
  | .expr e => e.placed
  | .unconnected => []

def Association.placed : Association → List Expr
  | .positional a => a.placed
  | .named _ a => a.placed

def Expr.placedOption : Option Expr → List Expr
  | none => []
  | some e => e.placed

def Expr.placedAll : List Expr → List Expr
  | [] => []
  | e :: es => e.placed ++ Expr.placedAll es

def Element.placedAll : List Element → List Expr
  | [] => []
  | e :: es => e.placed ++ Element.placedAll es

def Association.placedAll : List Association → List Expr
  | [] => []
  | a :: as => a.placed ++ Association.placedAll as

end

namespace Grammar

def Narrow (place : Level) (es : List Expr) : Prop := ∀ e ∈ es, place.rank ≤ e.category.rank

@[simp] theorem narrow_append (place : Level) (es fs : List Expr) :
    Narrow place (es ++ fs) ↔ Narrow place es ∧ Narrow place fs :=
  List.forall_mem_append

@[simp] theorem narrow_cons (place : Level) (e : Expr) (es : List Expr) :
    Narrow place (e :: es) ↔ place.rank ≤ e.category.rank ∧ Narrow place es :=
  List.forall_mem_cons

@[simp] theorem tokens_cons (token : Token) (ps : Pieces) :
    Pieces.tokens (.token token :: ps) = token :: Pieces.tokens ps := rfl

@[simp] theorem tokens_ident (i : Ident) (ps : Pieces) :
    Pieces.tokens (.ident i :: ps) = .ident i :: Pieces.tokens ps := rfl

@[simp] theorem tokens_keyword (word : String) (ps : Pieces) :
    Pieces.tokens (.keyword word :: ps) = .keyword word :: Pieces.tokens ps := rfl

@[simp] theorem tokens_symbol (s : Symbol) (ps : Pieces) :
    Pieces.tokens (.symbol s :: ps) = .symbol s :: Pieces.tokens ps := rfl

@[simp] theorem tokens_blank (ps : Pieces) : Pieces.tokens (.blank :: ps) = Pieces.tokens ps := rfl

@[simp] theorem tokens_nil : Pieces.tokens [] = [] := rfl

@[simp] theorem tokens_parenthesized (ps : Pieces) :
    ps.parenthesized.tokens = enclosed ps.tokens := by
  simp [Pieces.parenthesized, enclosed]

@[simp] theorem tokens_commaSeparated (items : List Pieces) :
    (Pieces.commaSeparated items).tokens = listed (items.map Pieces.tokens) := by
  induction items with
  | nil => rfl
  | cons item items ih =>
    cases items with
    | nil => simp [Pieces.commaSeparated, listed]
    | cons next items =>
      simp only [Pieces.commaSeparated, Pieces.tokens_append, tokens_symbol, tokens_blank, ih]
      simp [listed]

@[simp] theorem tokens_unaryOp (op : UnaryOp) : op.pieces.tokens = [op.token] := by
  cases op <;> rfl

variable {place : Level}

theorem Derives.toLevel {e : Expr} {ts : List Token} {t : Tree}
    (derivation : Derives place e.category ts t) {l : Level} (ranks : l.rank ≤ e.category.rank) :
    Derives place (.level l) ts t := by
  rcases e.category_cases with primary | ⟨m, level⟩
  · rw [primary] at derivation
    exact derivation.ofPrimary l
  · rw [level] at derivation ranks
    exact derivation.widen ranks

theorem Derives.toOperand {e : Expr} {ts : List Token} {t : Tree}
    (derivation : Derives place e.category ts t) {l : Level} (ranks : l.rank < e.category.rank) :
    Derives place l.operand ts t := by
  cases l with
  | factor =>
    rcases e.category_cases with primary | ⟨m, level⟩
    · rw [primary] at derivation
      exact derivation
    · rw [level] at ranks
      cases m <;> simp [Category.rank, Level.rank] at ranks
  | expression | relation | shift | simple | term => exact derivation.toLevel ranks

theorem Derives.enclose {e : Expr} {ts : List Token} {t : Tree}
    (derivation : Derives place e.category ts t) : Derives place .primary (enclosed ts) t := by
  exact .parenthesized (derivation.toLevel (Nat.zero_le _))

theorem Derives.primaryOperand {ts : List Token} {t : Tree} (primary : Derives place .primary ts t)
    (l : Level) : Derives place l.operand ts t := by
  cases l with
  | factor => exact primary
  | expression | relation | shift | simple | term => exact primary.ofPrimary _

theorem Derives.extend {l : Level} {op : BinaryOp} {ts us : List Token} {t u : Tree}
    (left : Derives place (.level l) ts t) (right : Derives place l.operand us u)
    (level : levelOf op = l) (chain : l ≠ .factor)
    (joins : ∀ (first : Tree) (rest : List (BinaryOp × Phrase)),
      t = fold first rest → l.Joins (rest.map Prod.fst) → l.Joins (rest.map Prod.fst ++ [op])) :
    Derives place (.level l) (ts ++ op.token :: us) (.binary op t u) := by
  -- One more operand behind a phrase of the same level.
  cases left with
  | prefixed => exact absurd rfl chain
  | @operation _ first rest _ terminals head operators operands joined =>
    rw [joined_terminals terminals]
    have longer := @Derives.operators place l first (rest ++ [(op, (us, u))]) head
      (by simpa [or_imp, forall_and, level] using operators)
      (by simpa [or_imp, forall_and, right] using operands)
      (by simpa using joins first.2 rest rfl joined)
    simpa [Grammar.joined, fold] using longer

theorem fold_eq_binary {first left right : Tree} {op : BinaryOp} {rest : List (BinaryOp × Phrase)}
    (same : .binary op left right = fold first rest) :
    rest = [] ∨ ∃ init x, rest = init ++ [x] ∧ x.1 = op := by
  rcases List.eq_nil_or_concat rest with rfl | ⟨init, x, rfl⟩
  · exact .inl rfl
  · simp only [fold, List.concat_eq_append, List.foldl_append, List.foldl_cons, List.foldl_nil,
      Tree.binary.injEq] at same
    exact .inr ⟨init, x, by simp, same.1.symm⟩

theorem repeats_joins {op : BinaryOp} {first left right : Tree} {rest : List (BinaryOp × Phrase)}
    (repeats : Repeats op) (same : .binary op left right = fold first rest)
    (joins : Level.expression.Joins (rest.map Prod.fst)) :
    Level.expression.Joins (rest.map Prod.fst ++ [op]) := by
  rcases fold_eq_binary same with rfl | ⟨init, x, rfl, last⟩
  · exact .inl (by simp)
  · refine .inr ⟨op, repeats, ?_⟩
    rcases joins with short | ⟨other, -, all⟩
    · have alone : init = [] := by
        simp only [List.map_append, List.length_append, List.length_map, List.map_cons,
          List.map_nil, List.length_cons, List.length_nil] at short
        exact List.eq_nil_of_length_eq_zero (by omega)
      simp [alone, last]
    · have equal : op = other := last ▸ all x.1 (by simp)
      intro operator member
      rcases List.mem_append.mp member with old | new
      · rw [equal]
        exact all operator old
      · exact List.mem_singleton.mp new

theorem binary_derives {op : BinaryOp} {l r : Expr}
    (left : Derives place l.category l.pieces.tokens l.norm)
    (right : Derives place r.category r.pieces.tokens r.norm) :
    Derives place (.level (levelOf op)) (Expr.binary op l r).pieces.tokens
      (Expr.binary op l r).norm := by
  simp only [Expr.pieces, Expr.norm, Pieces.tokens_append, tokens_blank, tokens_cons]
  have rightOperand : Derives place (levelOf op).operand
      (r.pieces.operand (op.parenthesizesRight r)).tokens r.norm := by
    cases bare : op.parenthesizesRight r with
    | false => exact right.toOperand (right_bare bare)
    | true => simpa [Pieces.operand] using right.enclose.primaryOperand _
  cases bare : op.parenthesizesLeft l with
  | true =>
    simp only [Pieces.operand, if_true, tokens_parenthesized]
    exact (left.enclose.primaryOperand _).pair rightOperand rfl
  | false =>
    simp only [Pieces.operand, Bool.false_eq_true, if_false]
    rcases left_bare bare with narrower | ⟨free, same⟩ | ⟨repeats, a, b, rfl⟩
    · exact (left.toOperand narrower).pair rightOperand rfl
    · rw [same] at left
      refine left.extend rightOperand rfl ?_ ?_
      · rcases free with level | level <;> simp [level]
      · rcases free with level | level <;> simp [level, Level.Joins]
    · have level := level_of_repeats repeats
      refine Derives.extend (l := levelOf op) left rightOperand rfl (by simp [level]) ?_
      intro first rest same joins
      rw [level] at joins ⊢
      exact repeats_joins repeats same joins

theorem unary_derives {op : UnaryOp} {e : Expr}
    (operand : Derives place e.category e.pieces.tokens e.norm) :
    Derives place (Expr.unary op e).category (Expr.unary op e).pieces.tokens
      (Expr.unary op e).norm := by
  simp only [Expr.pieces, Expr.norm, Pieces.tokens_append, tokens_unaryOp, List.cons_append,
    List.nil_append]
  have term (sign : op.tier = .sign) : Derives place (.level .term)
      (e.pieces.operand (op.parenthesizes e)).tokens e.norm := by
    cases bare : op.parenthesizes e with
    | false => exact operand.toOperand (l := .simple) (sign_bare sign bare)
    | true => simpa [Pieces.operand] using operand.enclose.ofPrimary _
  have primary (word : op.tier ≠ .sign) : Derives place .primary
      (e.pieces.operand (op.parenthesizes e)).tokens e.norm := by
    cases bare : op.parenthesizes e with
    | false =>
      rw [word_bare word bare] at operand
      exact operand
    | true => simpa [Pieces.operand] using operand.enclose
  cases op with
  | plus => exact Derives.ofFirst (l := .simple) (.signed rfl (.inl rfl) (term rfl))
  | minus => exact Derives.ofFirst (l := .simple) (.signed rfl (.inr rfl) (term rfl))
  | abs => exact .prefixed rfl (.inl rfl) (primary (by decide))
  | not => exact .prefixed rfl (.inr rfl) (primary (by decide))

theorem literal_derives {x : Literal} (finite : x.isFinite = true) :
    Derives place (Expr.literal x).category x.pieces.tokens (Expr.literal x).norm := by
  cases x with
  | real x =>
    have number : x.isNaN = false := by
      simp only [Literal.isFinite, Binary64.isFinite, ne_eq, decide_eq_true_eq] at finite
      simp [Binary64.isNaN, finite]
    cases sign : x.negative with
    | false => simpa [Expr.category, Literal.pieces, Expr.norm, sign] using Derives.literal rfl
    | true =>
      have magnitude : Derives place (.level .term) [.real x.magnitude]
          (.literal (.real x.magnitude)) :=
        (Derives.literal rfl).ofPrimary _
      have terminal : unary? (.symbol .minus) = some .minus := rfl
      have lead := Derives.signed terminal (.inr rfl) magnitude
      have minus := Derives.ofFirst (l := .simple) lead
      simpa [Expr.category, Literal.pieces, Expr.norm, sign, number, UnaryOp.token] using minus
  | integer | character | string | bitString | null =>
    simpa [Expr.category, Literal.pieces, Expr.norm] using Derives.literal rfl

theorem applied_derives {α : Type} {ts : List Token} {t : Tree} {items : List α}
    {tokens : α → List Token} {norm : α → Tree} (base : Derives place .name ts t)
    (nonempty : items ≠ []) (each : ∀ x ∈ items, Derives place .argument (tokens x) (norm x)) :
    Derives place .name (ts ++ enclosed (listed (items.map tokens)))
      (.applied t (items.map norm)) := by
  have application := @Derives.applied place ts t (items.map fun x => (tokens x, norm x)) base
    (by simpa using nonempty) (by simpa using each)
  simpa [Function.comp_def] using application

theorem argument_of_expression {ts : List Token} {t : Tree}
    (value : Derives place (.level .expression) ts t) : Derives place .argument ts t :=
  .actual (.given value)

theorem argument_derives {ts : List Token} {t : Tree} {e : Option Expr}
    (base : Derives place .name ts t)
    (given : ∀ x ∈ e, Derives place (.level .expression) x.pieces.tokens x.norm) :
    Derives place .name (ts ++ (Expr.argumentPieces e).tokens) (Expr.normArgument t e) := by
  cases e with
  | none => simpa [Expr.argumentPieces, Expr.normArgument] using base
  | some e =>
    have application := @Derives.applied place ts t [(e.pieces.tokens, e.norm)] base (by simp)
      (by simpa using argument_of_expression (given e rfl))
    simpa [Expr.argumentPieces, Expr.normArgument, listed] using application

theorem aggregate_derives {es : List Element} (nonempty : es ≠ [])
    (each : ∀ e ∈ es, Derives place .element e.pieces.tokens e.norm)
    (distinct : ∀ e, es = [e] → ∃ choice value, e.norm = .named choice value) :
    Derives place .primary (Expr.aggregate es).pieces.tokens
      (.aggregate (es.map Element.norm)) := by
  have singles (x : Phrase) (alone : es.map (fun e => (e.pieces.tokens, e.norm)) = [x]) :
      ∃ choice value, x.2 = .named choice value := by
    obtain ⟨e, rfl, rfl⟩ := List.map_eq_singleton_iff.mp alone
    exact distinct e rfl
  have items := @Derives.aggregate place (es.map fun e => (e.pieces.tokens, e.norm))
    (by simpa using nonempty) (by simpa using each) singles
  simpa [Expr.pieces, Function.comp_def] using items

end Grammar

section Derivations

variable {place : Grammar.Level}

mutual

theorem Name.derivesAt : ∀ n : Name, n.passes .documented = true → Narrow place n.placed →
    Derives place .name n.pieces.tokens n.norm
  | .simple i, _, _ => .simpleName i
  | .selected base (.simple i), ok, narrow => by
      simp only [Name.passes, Bool.and_eq_true] at ok
      simpa [Name.pieces, Name.norm, Suffix.pieces] using (base.derivesAt ok.1 narrow).selected i
  | .selected base .all, ok, narrow => by
      simp only [Name.passes, Bool.and_eq_true] at ok
      simpa [Name.pieces, Name.norm, Suffix.pieces] using (base.derivesAt ok.1 narrow).selectedAll
  | .indexed base es, ok, narrow => by
      simp only [Name.passes, Bool.and_eq_true] at ok
      simp only [Name.placed, narrow_append] at narrow
      have name := base.derivesAt ok.1.1 narrow.1
      have indices := Expr.derivesAll es ok.2 narrow.2
      have nonempty : es ≠ [] := by
        rintro rfl
        simp [Checks.documented] at ok
      have application := applied_derives name nonempty fun e member => argument_of_expression
        (indices e member)
      simpa [Name.pieces, Name.norm, Expr.normAll_eq_map, Function.comp_def] using application
  | .slice base range, ok, narrow => by
      simp only [Name.passes, Bool.and_eq_true] at ok
      simp only [Name.placed, narrow_append] at narrow
      have name := base.derivesAt ok.1 narrow.1
      rcases range.derivesAt ok.2 narrow.2 with bounds | named
      · simpa [Name.pieces, Name.norm] using name.slice bounds
      · have expression := (Derives.nameOrCall named).ofPrimary .expression
        have application := @Derives.applied _ _ _ [(range.pieces.tokens, range.norm)]
          name (by simp)
          (by simpa using argument_of_expression expression)
        simpa [Name.pieces, Name.norm, listed] using application
  | .attribute base i e, ok, narrow => by
      simp only [Name.passes, Bool.and_eq_true] at ok
      simp only [Name.placed, narrow_append] at narrow
      have name := (base.derivesAt ok.1.1.1 narrow.1).attributed i
      have argument := argument_derives name (Expr.derivesOption e ok.2 narrow.2)
      simpa [Name.pieces, Name.norm] using argument

theorem Range.derivesAt : ∀ r : Range, r.passes .documented = true → Narrow place r.placed →
    Derives place .range r.pieces.tokens r.norm ∨ Derives place .name r.pieces.tokens r.norm
  | .bounds d l r, ok, narrow => by
      simp only [Range.passes, Bool.and_eq_true] at ok
      simp only [Range.placed, narrow_append, narrow_cons] at narrow
      have left := (l.derivesAt ok.1 narrow.1.2).toLevel narrow.1.1
      have right := (r.derivesAt ok.2 narrow.2.2).toLevel narrow.2.1
      exact .inl (by simpa [Range.pieces, Range.norm] using Derives.ofBounds d left right)
  | .attribute base i e, ok, narrow => by
      simp only [Range.passes, Bool.and_eq_true] at ok
      simp only [Range.placed, narrow_append] at narrow
      have name := (base.derivesAt ok.1.1.1 narrow.1).attributed i
      have argument := argument_derives name (Expr.derivesOption e ok.2 narrow.2)
      exact .inr (by simpa [Range.pieces, Range.norm] using argument)

theorem Expr.derivesAt : ∀ e : Expr, e.passes .documented = true → Narrow place e.placed →
    Derives place e.category e.pieces.tokens e.norm
  | .binary op l r, ok, narrow => by
      simp only [Expr.passes, Bool.and_eq_true] at ok
      simp only [Expr.placed, narrow_append] at narrow
      exact binary_derives (l.derivesAt ok.1 narrow.1) (r.derivesAt ok.2 narrow.2)
  | .unary op e, ok, narrow => unary_derives (e.derivesAt ok narrow)
  | .literal x, ok, _ => literal_derives ok
  | .name n, ok, narrow => .nameOrCall (n.derivesAt ok narrow)
  | .call n as, ok, narrow => by
      simp only [Expr.passes, Bool.and_eq_true] at ok
      simp only [Expr.placed, narrow_append] at narrow
      have name := n.derivesAt ok.1 narrow.1
      have arguments := Association.derivesAll as ok.2 narrow.2
      apply Derives.nameOrCall
      cases as with
      | nil => simpa [Expr.pieces, Expr.norm, Pieces.arguments] using name
      | cons a as =>
        have application := applied_derives name (by simp) arguments
        simpa [Expr.pieces, Expr.norm, Pieces.arguments, Association.normAll_eq_map,
          Function.comp_def]
          using application
  | .aggregate [], ok, _ => by simp [Expr.passes, Checks.documented] at ok
  | .aggregate [.positional e], ok, narrow => by
      -- One positional element is taken for a parenthesized expression.
      simp only [Expr.passes, Element.passesAll, Element.passes, Bool.and_eq_true] at ok
      simp only [Expr.placed, Element.placedAll, Element.placed, narrow_append] at narrow
      have inner := (e.derivesAt ok.2.1 narrow.1).toLevel (l := .expression) (Nat.zero_le _)
      simpa [Expr.category, Expr.pieces, Element.pieces, Expr.norm, listed]
        using Derives.parenthesized inner
  | .aggregate [.named c e], ok, narrow => by
      simp only [Expr.passes, Bool.and_eq_true] at ok
      have list := aggregate_derives (by simp) (Element.derivesAll [.named c e] ok.2 narrow)
        (by simp [Element.norm])
      simpa [Expr.category, Expr.norm, Element.normAll_eq_map] using list
  | .aggregate (e :: f :: es), ok, narrow => by
      simp only [Expr.passes, Bool.and_eq_true] at ok
      have list := aggregate_derives (by simp) (Element.derivesAll (e :: f :: es) ok.2 narrow)
        (by simp)
      simpa [Expr.category, Expr.norm, Element.normAll_eq_map] using list

theorem Choice.derivesAt : ∀ c : Choice, c.passes .documented = true → Narrow place c.placed →
    Derives place .choice c.pieces.tokens c.norm
  | .expr e, ok, narrow => by
      simp only [Choice.placed, narrow_cons] at narrow
      exact .chosen ((e.derivesAt ok narrow.2).toLevel narrow.1)
  | .others, _, _ => .others

theorem Element.derivesAt : ∀ e : Element, e.passes .documented = true → Narrow place e.placed →
    Derives place .element e.pieces.tokens e.norm
  | .positional e, ok, narrow => .positional ((e.derivesAt ok narrow).toLevel (Nat.zero_le _))
  | .named c e, ok, narrow => by
      simp only [Element.passes, Bool.and_eq_true] at ok
      simp only [Element.placed, narrow_append] at narrow
      have element := (c.derivesAt ok.1 narrow.1).named
        ((e.derivesAt ok.2 narrow.2).toLevel (Nat.zero_le _))
      simpa [Element.pieces, Element.norm] using element

theorem Actual.derivesAt : ∀ a : Actual, a.passes .documented = true → Narrow place a.placed →
    Derives place .actual a.pieces.tokens a.norm
  | .name n, ok, narrow => .given ((Derives.nameOrCall (n.derivesAt ok narrow)).ofPrimary _)
  | .expr e, ok, narrow => .given ((e.derivesAt ok narrow).toLevel (Nat.zero_le _))
  | .unconnected, _, _ => .unconnected

theorem Association.derivesAt : ∀ a : Association, a.passes .documented = true →
    Narrow place a.placed → Derives place .argument a.pieces.tokens a.norm
  | .positional a, ok, narrow => .actual (a.derivesAt ok narrow)
  | .named i a, ok, narrow => by
      simp only [Association.passes, Bool.and_eq_true] at ok
      have actual := a.derivesAt ok.2 narrow
      simpa [Association.pieces, Association.norm] using Derives.formal i actual

theorem Expr.derivesOption : ∀ e : Option Expr, Expr.passesOption .documented e = true →
    Narrow place (Expr.placedOption e) →
    ∀ x ∈ e, Derives place (.level .expression) x.pieces.tokens x.norm
  | none, _, _ => by simp
  | some e, ok, narrow => by
      simpa using (e.derivesAt ok narrow).toLevel (l := .expression) (Nat.zero_le _)

theorem Expr.derivesAll : ∀ es : List Expr, Expr.passesAll .documented es = true →
    Narrow place (Expr.placedAll es) →
    ∀ e ∈ es, Derives place (.level .expression) e.pieces.tokens e.norm
  | [], _, _ => by simp
  | e :: es, ok, narrow => by
      simp only [Expr.passesAll, Bool.and_eq_true] at ok
      simp only [Expr.placedAll, narrow_append] at narrow
      have first := (e.derivesAt ok.1 narrow.1).toLevel (l := .expression) (Nat.zero_le _)
      have later := Expr.derivesAll es ok.2 narrow.2
      simpa [first] using later

theorem Element.derivesAll : ∀ es : List Element, Element.passesAll .documented es = true →
    Narrow place (Element.placedAll es) → ∀ e ∈ es, Derives place .element e.pieces.tokens e.norm
  | [], _, _ => by simp
  | e :: es, ok, narrow => by
      simp only [Element.passesAll, Bool.and_eq_true] at ok
      simp only [Element.placedAll, narrow_append] at narrow
      have first := e.derivesAt ok.1 narrow.1
      have later := Element.derivesAll es ok.2 narrow.2
      simpa [first] using later

theorem Association.derivesAll : ∀ as : List Association,
    Association.passesAll .documented as = true → Narrow place (Association.placedAll as) →
    ∀ a ∈ as, Derives place .argument a.pieces.tokens a.norm
  | [], _, _ => by simp
  | a :: as, ok, narrow => by
      simp only [Association.passesAll, Bool.and_eq_true] at ok
      simp only [Association.placedAll, narrow_append] at narrow
      have first := a.derivesAt ok.1 narrow.1
      have later := Association.derivesAll as ok.2 narrow.2
      simpa [first] using later

end

end Derivations

theorem Expr.derives (e : Expr) (ok : e.passes .documented = true) :
    Derives .expression e.category e.pieces.tokens e.norm :=
  e.derivesAt ok fun _ _ => Nat.zero_le _

namespace Grammar

theorem Derives.loosen {place : Level} {c : Category} {ts : List Token} {t : Tree}
    (derivation : Derives place c ts t) : Derives .expression c ts t := by
  induction derivation with
  | operation terminals head operators operands joins headIH operandsIH =>
    exact .operation terminals headIH operators operandsIH joins
  | unsigned term ih => exact .unsigned ih
  | signed terminal sign term ih => exact .signed terminal sign ih
  | prefixed terminal word operand ih => exact .prefixed terminal word ih
  | literal value => exact .literal value
  | nameOrCall name ih => exact .nameOrCall ih
  | parenthesized inner ih => exact .parenthesized ih
  | aggregate nonempty elements distinct ih => exact .aggregate nonempty ih distinct
  | simpleName i => exact .simpleName i
  | selected base i ih => exact .selected ih i
  | selectedAll base ih => exact .selectedAll ih
  | attributed base i ih => exact .attributed ih i
  | applied base nonempty arguments baseIH ih => exact .applied baseIH nonempty ih
  | slice base range baseIH ih => exact .slice baseIH ih
  | bounds terminal left right leftIH rightIH =>
    exact .bounds terminal (leftIH.widen (Nat.zero_le _)) (rightIH.widen (Nat.zero_le _))
  | chosen value ih => exact .chosen (ih.widen (Nat.zero_le _))
  | others => exact .others
  | positional value ih => exact .positional ih
  | named choice value choiceIH ih => exact .named choiceIH ih
  | given value ih => exact .given ih
  | unconnected => exact .unconnected
  | actual value ih => exact .actual ih
  | formal i value ih => exact .formal i ih

end Grammar

/-- The grammar undoes printing: the tokens of an expression have a tree, and whichever level bounds
and choices are taken from, they have no other tree. -/
theorem Expr.tree_of_tokens (e : Expr) (ok : e.passes .documented = true) :
    Derives .expression (.level .expression) e.pieces.tokens e.norm ∧
      ∀ (place : Grammar.Level) (t : Tree),
        Derives place (.level .expression) e.pieces.tokens t → t = e.norm := by
  have printed := (e.derives ok).toLevel (l := .expression) (Nat.zero_le _)
  refine ⟨printed, ?_⟩
  intro place t derivation
  exact derivation.loosen.unique printed

/-- `-(a - b) mod (-1.0)`: the sign takes the whole product. -/
theorem Expr.tree_of_signed_product :
    let a := Expr.name (.simple (.basic "a"))
    let b := Expr.name (.simple (.basic "b"))
    let minusOne := Expr.literal (.real ⟨0xBFF0000000000000⟩)
    let e := Expr.unary .minus (.binary .mod (.binary .minus a b) minusOne)
    e.passes .documented = true ∧
      ∀ (place : Grammar.Level) (t : Tree), Derives place (.level .expression) e.pieces.tokens t →
        t = .unary .minus (.binary .mod (.binary .minus (.ident (.basic "a")) (.ident (.basic "b")))
          (.unary .minus (.literal (.real ⟨0x3FF0000000000000⟩)))) := by
  have ok : (Expr.unary .minus (.binary .mod (.binary .minus (.name (.simple (.basic "a")))
      (.name (.simple (.basic "b")))) (.literal (.real ⟨0xBFF0000000000000⟩)))).passes
        .documented = true := by
    decide
  exact ⟨ok, (Expr.tree_of_tokens _ ok).2⟩

end Vhdl93
