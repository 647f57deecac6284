import Mathlib.Data.List.Basic
import Vhdl93.Proofs.Grammar.Printed

set_option autoImplicit false

namespace Vhdl93.Grammar

def rise : Token → Int
  | .symbol .leftParen => 1
  | .symbol .rightParen => -1
  | _ => 0

def height : List Token → Int
  | [] => 0
  | t :: ts => rise t + height ts

def content (ts : List Token) : List Token := ts.filter (rise · = 0)

structure Balanced (ts : List Token) : Prop where
  level : height ts = 0
  above : ∀ front back, ts = front ++ back → 0 ≤ height front

@[simp] theorem height_nil : height [] = 0 := rfl

@[simp] theorem height_cons (t : Token) (ts : List Token) :
    height (t :: ts) = rise t + height ts := rfl

@[simp] theorem height_append (ts us : List Token) : height (ts ++ us) = height ts + height us := by
  induction ts with
  | nil => simp
  | cons t ts ih => simp [ih, Int.add_assoc]

@[simp] theorem content_nil : content [] = [] := rfl

@[simp] theorem content_append (ts us : List Token) :
    content (ts ++ us) = content ts ++ content us := by
  simp [content]

theorem content_cons {t : Token} (flat : rise t = 0) (ts : List Token) :
    content (t :: ts) = t :: content ts := by
  simp [content, flat]

@[simp] theorem content_enclosed (ts : List Token) : content (enclosed ts) = content ts := by
  simp [content, enclosed, rise]

@[simp] theorem rise_binary (op : BinaryOp) : rise op.token = 0 := by
  cases op <;> rfl

@[simp] theorem rise_unary (op : UnaryOp) : rise op.token = 0 := by
  cases op <;> rfl

@[simp] theorem rise_ident (i : Ident) : rise (.ident i) = 0 := rfl

@[simp] theorem rise_keyword (word : String) : rise (.keyword word) = 0 := rfl

theorem rise_literal {t : Token} {x : Literal} (value : literal? t = some x) : rise t = 0 := by
  cases t with
  | symbol s => cases value
  | ident | keyword | integer | real | character | string | bitString => rfl

def literalToken : Literal → Token
  | .integer n => .integer n
  | .real x => .real x
  | .character c => .character c
  | .string s => .string s
  | .bitString base digits => .bitString base digits
  | .null => .keyword "null"

theorem literalToken_of_literal? {t : Token} {x : Literal} (value : literal? t = some x) :
    literalToken x = t := by
  cases t with
  | symbol s | ident i => cases value
  | keyword word =>
    simp only [literal?] at value
    split at value
    · next null =>
      cases value
      rw [null]
      rfl
    · cases value
  | integer | real | character | string | bitString =>
    cases value
    rfl

namespace Balanced

variable {ts us : List Token}

theorem nil : Balanced [] where
  level := rfl
  above front back split := by simp [(List.append_eq_nil_iff.mp split.symm).1]

theorem token {t : Token} (flat : rise t = 0) : Balanced [t] where
  level := by simp [flat]
  above front back split := by
    cases front with
    | nil => simp
    | cons first front =>
      obtain ⟨rfl, rest⟩ := List.cons.inj split
      simp [(List.append_eq_nil_iff.mp rest.symm).1, flat]

theorem append (left : Balanced ts) (right : Balanced us) : Balanced (ts ++ us) where
  level := by simp [left.level, right.level]
  above front back split := by
    rcases List.append_eq_append_iff.mp split with ⟨middle, rfl, later⟩ | ⟨middle, early, -⟩
    · have inside := right.above middle back later
      rw [height_append, left.level]
      omega
    · exact left.above front middle early

theorem later {items : List (List Token)} (each : ∀ x ∈ items, Balanced x) :
    Balanced (items.flatMap (.symbol .comma :: ·)) := by
  induction items with
  | nil => exact .nil
  | cons x items ih =>
    rw [List.forall_mem_cons] at each
    exact ((Balanced.token rfl).append each.1).append (ih each.2)

theorem inside (balanced : Balanced ts) {front back : List Token}
    (split : enclosed ts = front ++ back) (started : front ≠ []) (unfinished : back ≠ []) :
    0 < height front := by
  cases front with
  | nil => exact absurd rfl started
  | cons first front =>
    obtain ⟨rfl, rest⟩ := List.cons.inj split
    have opening : rise (.symbol .leftParen) = 1 := rfl
    rw [height_cons, opening]
    rcases List.append_eq_append_iff.mp rest with ⟨middle, rfl, last⟩ | ⟨middle, early, -⟩
    · cases middle with
      | nil =>
        rw [List.append_nil, balanced.level]
        omega
      | cons closing middle =>
        obtain ⟨-, none⟩ := List.cons.inj last
        exact absurd (List.append_eq_nil_iff.mp none.symm).2 unfinished
    · have low := balanced.above front middle early
      omega

theorem enclosed (balanced : Balanced ts) : Balanced (Grammar.enclosed ts) where
  level := by simp [Grammar.enclosed, balanced.level, rise]
  above front back split := by
    by_cases started : front = []
    · simp [started]
    by_cases unfinished : back = []
    · have whole : height front = height (Grammar.enclosed ts) := by
        rw [split, unfinished, List.append_nil]
      simp [whole, Grammar.enclosed, balanced.level, rise]
    · have high := balanced.inside split started unfinished
      omega

theorem front_of_enclosed (balanced : Balanced ts) {front back : List Token}
    (split : Grammar.enclosed ts = front ++ back) (level : Balanced front) :
    front = [] ∨ back = [] := by
  by_cases started : front = []
  · exact .inl started
  by_cases unfinished : back = []
  · exact .inr unfinished
  have high := balanced.inside split started unfinished
  rw [level.level] at high
  omega

theorem enclosed_inj (same : Grammar.enclosed ts = Grammar.enclosed us) : ts = us := by
  simpa [Grammar.enclosed] using same

theorem nothing_before (inner : Balanced ts) (other : Balanced us) {front : List Token}
    (same : Grammar.enclosed ts = front ++ Grammar.enclosed us) : front = [] := by
  by_contra started
  have high := inner.inside same started (by simp [Grammar.enclosed])
  have whole := congrArg height same
  rw [height_append, inner.enclosed.level, other.enclosed.level] at whole
  omega

theorem enclosed_tail (inner : Balanced ts) (other : Balanced us) {left right : List Token}
    (same : left ++ Grammar.enclosed ts = right ++ Grammar.enclosed us) :
    left = right ∧ ts = us := by
  rcases List.append_eq_append_iff.mp same with ⟨middle, rfl, rest⟩ | ⟨middle, rfl, rest⟩
  · obtain rfl := inner.nothing_before other rest
    exact ⟨by simp, enclosed_inj rest⟩
  · obtain rfl := other.nothing_before inner rest
    exact ⟨by simp, (enclosed_inj rest).symm⟩

end Balanced

/-- Two texts of one content before tokens other than parentheses end at the same place. -/
theorem cut {left right rest later : List Token} {t u : Token}
    (contents : content left = content right) (flat : rise t = 0) (level : rise u = 0)
    (same : left ++ t :: rest = right ++ u :: later) : left = right ∧ t = u ∧ rest = later := by
  rcases List.append_eq_append_iff.mp same with ⟨middle, rfl, tail⟩ | ⟨middle, rfl, tail⟩ <;>
    cases middle with
    | nil => simpa [eq_comm] using tail
    | cons first middle =>
      obtain ⟨rfl, -⟩ := List.cons.inj tail
      rw [content_append, content_cons ‹_›] at contents
      simp at contents

@[simp] theorem listed_singleton (x : List Token) : listed [x] = x := by
  simp [listed]

theorem listed_cons_cons (x y : List Token) (xs : List (List Token)) :
    listed (x :: y :: xs) = x ++ .symbol .comma :: listed (y :: xs) := by
  simp [listed]

theorem content_later (xs : List (List Token)) :
    content (xs.flatMap (.symbol .comma :: ·)) =
      (xs.map content).flatMap (.symbol .comma :: ·) := by
  induction xs with
  | nil => rfl
  | cons x xs ih =>
    rw [List.flatMap_cons, content_append, content_cons rfl, ih]
    simp

@[simp] theorem content_listed (xs : List (List Token)) :
    content (listed xs) = listed (xs.map content) := by
  cases xs with
  | nil => rfl
  | cons x xs => simp [listed, content_later]

theorem listed_cut {xs ys : List (List Token)} (contents : xs.map content = ys.map content)
    (same : listed xs = listed ys) : xs = ys := by
  induction xs generalizing ys with
  | nil => simpa [eq_comm] using contents
  | cons x xs ih =>
    cases ys with
    | nil => simp at contents
    | cons y ys =>
      simp only [List.map_cons, List.cons.injEq] at contents
      cases xs with
      | nil =>
        have alone : ys = [] := by simpa [eq_comm] using contents.2
        simpa [listed, alone] using same
      | cons x' xs =>
        cases ys with
        | nil => simp at contents
        | cons y' ys =>
          rw [listed_cons_cons, listed_cons_cons] at same
          obtain ⟨rfl, -, rest⟩ := cut contents.1 rfl rfl same
          rw [ih contents.2 rest]

mutual

def Tree.content : Tree → List Token
  | .binary op l r => l.content ++ op.token :: r.content
  | .unary op e => op.token :: e.content
  | .literal x => [literalToken x]
  | .ident i => [.ident i]
  | .selected base suffix => base.content ++ .symbol .dot :: suffix.pieces.tokens
  | .attribute base i => base.content ++ [.symbol .tick, .ident i]
  | .applied base as => base.content ++ listed (Tree.contentAll as)
  | .aggregate es => listed (Tree.contentAll es)
  | .bounds d l r => l.content ++ .keyword d.text :: r.content
  | .named c v => c.content ++ .symbol .arrow :: v.content
  | .others => [.keyword "others"]
  | .unconnected => [.keyword "open"]

def Tree.contentAll : List Tree → List (List Token)
  | [] => []
  | t :: ts => t.content :: Tree.contentAll ts

end

theorem Tree.contentAll_eq_map (ts : List Tree) : Tree.contentAll ts = ts.map Tree.content := by
  induction ts with
  | nil => rfl
  | cons t ts ih => simp [Tree.contentAll, ih]

@[simp] theorem Tree.content_applied (base : Tree) (as : List Tree) :
    (Tree.applied base as).content = base.content ++ listed (as.map Tree.content) := by
  rw [Tree.content, Tree.contentAll_eq_map]

@[simp] theorem Tree.content_aggregate (es : List Tree) :
    (Tree.aggregate es).content = listed (es.map Tree.content) := by
  rw [Tree.content, Tree.contentAll_eq_map]

/-- A balanced text with the given tokens beside its parentheses. -/
structure Yields (ts : List Token) (ys : List Token) : Prop where
  balanced : Balanced ts
  content : content ts = ys

namespace Yields

variable {ts us xs ys : List Token}

theorem token {t : Token} (flat : rise t = 0) : Yields [t] [t] :=
  ⟨.token flat, content_cons flat []⟩

theorem append (left : Yields ts xs) (right : Yields us ys) : Yields (ts ++ us) (xs ++ ys) :=
  ⟨left.balanced.append right.balanced, by rw [content_append, left.content, right.content]⟩

theorem cons {t : Token} (flat : rise t = 0) (rest : Yields ts xs) : Yields (t :: ts) (t :: xs) :=
  (token flat).append rest

theorem enclosed (inner : Yields ts xs) : Yields (enclosed ts) xs :=
  ⟨inner.balanced.enclosed, by rw [content_enclosed, inner.content]⟩

theorem join {t : Token} (left : Yields ts xs) (flat : rise t = 0) (right : Yields us ys) :
    Yields (ts ++ t :: us) (xs ++ t :: ys) :=
  left.append (right.cons flat)

theorem replace {front back : List Token} (whole : Yields (front ++ ts ++ back) ys)
    (old : Yields ts xs) (new : Yields us xs) : Yields (front ++ us ++ back) ys where
  balanced := by
    have heights : height us = height ts := by rw [old.balanced.level, new.balanced.level]
    refine ⟨by simpa [heights] using whole.balanced.level, ?_⟩
    intro early late split
    -- A front of the new text ends before the part, inside of it, or behind it.
    rw [List.append_assoc] at split
    rcases List.append_eq_append_iff.mp split with ⟨middle, rfl, rest⟩ | ⟨middle, rfl, -⟩
    · rcases List.append_eq_append_iff.mp rest with ⟨tail, rfl, rfl⟩ | ⟨tail, rfl, -⟩
      · have above := whole.balanced.above (front ++ ts ++ tail) late (by simp)
        simpa [heights, Int.add_assoc] using above
      · have low := whole.balanced.above front (ts ++ back) (by simp)
        have inside := new.balanced.above middle tail rfl
        rw [height_append]
        omega
    · exact whole.balanced.above early (middle ++ (ts ++ back)) (by simp)
  content := by
    have contents : Grammar.content us = Grammar.content ts := by rw [old.content, new.content]
    simpa [contents] using whole.content

theorem listed {α : Type} {text : α → List Token} {tree : α → Tree} {items : List α}
    (each : ∀ x ∈ items, Yields (text x) (tree x).content) :
    Yields (listed (items.map text)) (listed ((items.map tree).map Tree.content)) where
  balanced := by
    have balanced : ∀ x ∈ items.map text, Balanced x := by
      simpa using fun x member => (each x member).balanced
    cases same : items.map text with
    | nil => exact .nil
    | cons x xs =>
      rw [same, List.forall_mem_cons] at balanced
      exact balanced.1.append (.later balanced.2)
  content := by
    rw [content_listed, List.map_map, List.map_map]
    congr 1
    exact List.map_congr_left fun x member => (each x member).content

theorem joined {t : Tree} (first : Yields ts t.content) {rest : List (BinaryOp × Phrase)}
    (each : ∀ x ∈ rest, Yields x.2.1 x.2.2.content) :
    Yields (ts ++ joined BinaryOp.token rest) (fold t rest).content := by
  induction rest generalizing ts t with
  | nil => simpa [Grammar.joined, fold] using first
  | cons x rest ih =>
    rw [List.forall_mem_cons] at each
    have longer : Yields (ts ++ x.1.token :: x.2.1) (Tree.binary x.1 t x.2.2).content :=
      first.join (rise_binary x.1) each.1
    simpa [Grammar.joined, fold] using ih longer each.2

end Yields

variable {place : Level}

theorem Derives.yields {c : Category} {ts : List Token} {t : Tree}
    (derivation : Derives place c ts t) : Yields ts t.content := by
  induction derivation with
  | operation terminals head operators operands joins headIH operandsIH =>
    rw [joined_terminals terminals]
    exact headIH.joined operandsIH
  | unsigned term ih | nameOrCall term ih | chosen term ih | positional term ih | given term ih
  | actual term ih => exact ih
  | signed terminal sign term ih | prefixed terminal word operand ih =>
    obtain rfl := unary?_eq_some_iff.1 terminal
    exact ih.cons (rise_unary _)
  | literal value =>
    rw [Tree.content, literalToken_of_literal? value]
    exact .token (rise_literal value)
  | parenthesized inner ih => exact ih.enclosed
  | aggregate nonempty elements distinct ih =>
    rw [Tree.content_aggregate]
    exact (Yields.listed ih).enclosed
  | simpleName i => exact .token (rise_ident i)
  | selected base i ih => exact ih.append ((Yields.token (rise_ident i)).cons rfl)
  | selectedAll base ih => exact ih.append ((Yields.token (rise_keyword _)).cons rfl)
  | attributed base i ih => exact ih.append ((Yields.token (rise_ident i)).cons rfl)
  | applied base nonempty arguments baseIH ih =>
    rw [Tree.content_applied]
    exact baseIH.append (Yields.listed ih).enclosed
  | slice base range baseIH ih => simpa using baseIH.append ih.enclosed
  | bounds terminal left right leftIH rightIH =>
    obtain rfl := direction?_eq_some_iff.1 terminal
    exact leftIH.join (rise_keyword _) rightIH
  | others => exact .token (rise_keyword _)
  | named choice value choiceIH ih => exact choiceIH.join rfl ih
  | unconnected => exact .token (rise_keyword _)
  | formal i value ih => exact (Yields.token (rise_ident i)).join rfl ih

theorem Yields.operand {ps : Pieces} {ys : List Token} (inner : Yields ps.tokens ys)
    (parens : Bool) : Yields (ps.operand parens).tokens ys := by
  cases parens with
  | false => exact inner
  | true => simpa [Pieces.operand] using inner.enclosed

theorem Yields.literal {x : Literal} (number : x.isNumeric = true) :
    Yields x.pieces.tokens (Expr.literal x).norm.content := by
  cases x with
  | real x =>
    simp only [Literal.isNumeric, Bool.not_eq_true'] at number
    cases sign : x.negative with
    | false =>
      have alone : Yields [.real x] [.real x] := token rfl
      simpa [Literal.pieces, Expr.norm, sign, Tree.content, literalToken] using alone
    | true =>
      have minus : Yields [.symbol .minus, .real x.magnitude] [.symbol .minus, .real x.magnitude] :=
        (token rfl).cons rfl
      simpa [Literal.pieces, Expr.norm, sign, number, Tree.content, literalToken, UnaryOp.token]
        using minus
  | integer | character | string | bitString | null => exact token rfl

theorem Yields.applied {ts : List Token} {t : Tree} (base : Yields ts t.content) {α : Type}
    {text : α → List Token} {tree : α → Tree} {items : List α}
    (each : ∀ x ∈ items, Yields (text x) (tree x).content) :
    Yields (ts ++ Grammar.enclosed (Grammar.listed (items.map text)))
      (Tree.applied t (items.map tree)).content := by
  rw [Tree.content_applied]
  exact base.append (listed each).enclosed

theorem Yields.argument {ts : List Token} {t : Tree} (base : Yields ts t.content) {e : Option Expr}
    (inner : ∀ x ∈ e, Yields x.pieces.tokens x.norm.content) :
    Yields (ts ++ (Expr.argumentPieces e).tokens) (Expr.normArgument t e).content := by
  cases e with
  | none => simpa [Expr.argumentPieces, Expr.normArgument] using base
  | some e =>
    simpa [Expr.argumentPieces, Expr.normArgument] using base.append (inner e rfl).enclosed

end Vhdl93.Grammar

namespace Vhdl93

open Grammar

theorem Expr.norm_aggregate (es : List Element) :
    (∀ e, es ≠ [.positional e]) ∧ (Expr.aggregate es).norm = .aggregate (es.map Element.norm) ∨
      ∃ e, es = [.positional e] ∧ (Expr.aggregate es).norm = e.norm := by
  match es with
  | [.positional e] => exact .inr ⟨e, rfl, by simp [Expr.norm]⟩
  | [] | [.named _ _] | _ :: _ :: _ =>
    exact .inl ⟨by simp, by simp [Expr.norm, Element.normAll_eq_map]⟩

theorem Expr.norm_call (n : Name) (as : List Association) (given : as ≠ []) :
    (Expr.call n as).norm = .applied n.norm (as.map Association.norm) := by
  cases as with
  | nil => exact absurd rfl given
  | cons a as => simp [Expr.norm, Association.normAll_eq_map]

mutual

theorem Name.yields : ∀ n : Name, n.passes .numeric = true → Yields n.pieces.tokens n.norm.content
  | .simple i, _ => .token (rise_ident i)
  | .selected base (.simple i), ok => by
      simp only [Name.passes, Bool.and_eq_true] at ok
      have whole := (base.yields ok.1).join (t := .symbol .dot) rfl (.token (rise_ident i))
      simpa [Name.pieces, Suffix.pieces, Name.norm, Tree.content] using whole
  | .selected base .all, ok => by
      simp only [Name.passes, Bool.and_eq_true] at ok
      have whole := (base.yields ok.1).join (t := .symbol .dot) rfl
        (.token (rise_keyword "all"))
      simpa [Name.pieces, Suffix.pieces, Name.norm, Tree.content] using whole
  | .indexed base es, ok => by
      simp only [Name.passes, Bool.and_eq_true] at ok
      have whole := (base.yields ok.1.1).applied (Expr.yieldsAll es ok.2)
      simpa [Name.pieces, Name.norm, Expr.normAll_eq_map, Function.comp_def] using whole
  | .slice base range, ok => by
      simp only [Name.passes, Bool.and_eq_true] at ok
      have whole := (base.yields ok.1).append (range.yields ok.2).enclosed
      simpa [Name.pieces, Name.norm] using whole
  | .attribute base i e, ok => by
      simp only [Name.passes, Bool.and_eq_true] at ok
      have stem : Yields (base.pieces.tokens ++ [.symbol .tick, .ident i])
          (Tree.attribute base.norm i).content :=
        (base.yields ok.1.1.1).join rfl (.token (rise_ident i))
      simpa [Name.pieces, Name.norm] using stem.argument (Expr.yieldsOption e ok.2)

theorem Range.yields :
    ∀ r : Range, r.passes .numeric = true → Yields r.pieces.tokens r.norm.content
  | .bounds d l r, ok => by
      simp only [Range.passes, Bool.and_eq_true] at ok
      have whole := (l.yields ok.1).join (rise_keyword d.text) (r.yields ok.2)
      simpa [Range.pieces, Range.norm, Tree.content] using whole
  | .attribute base i e, ok => by
      simp only [Range.passes, Bool.and_eq_true] at ok
      have stem : Yields (base.pieces.tokens ++ [.symbol .tick, .ident i])
          (Tree.attribute base.norm i).content :=
        (base.yields ok.1.1.1).join rfl (.token (rise_ident i))
      simpa [Range.pieces, Range.norm] using stem.argument (Expr.yieldsOption e ok.2)

theorem Expr.yields : ∀ e : Expr, e.passes .numeric = true → Yields e.pieces.tokens e.norm.content
  | .binary op l r, ok => by
      simp only [Expr.passes, Bool.and_eq_true] at ok
      have whole := ((l.yields ok.1).operand (op.parenthesizesLeft l)).join (rise_binary op)
        ((r.yields ok.2).operand (op.parenthesizesRight r))
      simpa [Expr.pieces, Expr.norm, Tree.content] using whole
  | .unary op e, ok => by
      have whole := ((e.yields ok).operand (op.parenthesizes e)).cons (rise_unary op)
      simpa [Expr.pieces, Expr.norm, Tree.content] using whole
  | .literal x, ok => .literal ok
  | .name n, ok => n.yields ok
  | .call n [], ok => by
      simp only [Expr.passes, Bool.and_eq_true] at ok
      simpa [Expr.pieces, Pieces.arguments, Expr.norm] using n.yields ok.1
  | .call n (a :: as), ok => by
      simp only [Expr.passes, Bool.and_eq_true] at ok
      have whole := (n.yields ok.1).applied (Association.yieldsAll (a :: as) ok.2)
      rw [Expr.norm_call n _ (by simp)]
      simpa [Expr.pieces, Pieces.arguments, Function.comp_def] using whole
  | .aggregate es, ok => by
      simp only [Expr.passes, Bool.and_eq_true] at ok
      have whole := (Yields.listed (Element.yieldsAll es ok.2)).enclosed
      rcases Expr.norm_aggregate es with ⟨-, tree⟩ | ⟨e, rfl, tree⟩
      · rw [tree]
        simpa [Expr.pieces, Function.comp_def] using whole
      · rw [tree]
        simpa [Expr.pieces, Element.norm] using whole

theorem Choice.yields :
    ∀ c : Choice, c.passes .numeric = true → Yields c.pieces.tokens c.norm.content
  | .expr e, ok => e.yields ok
  | .others, _ => .token (rise_keyword _)

theorem Element.yields :
    ∀ e : Element, e.passes .numeric = true → Yields e.pieces.tokens e.norm.content
  | .positional e, ok => e.yields ok
  | .named c e, ok => by
      simp only [Element.passes, Bool.and_eq_true] at ok
      have whole := (c.yields ok.1).join (t := .symbol .arrow) rfl (e.yields ok.2)
      simpa [Element.pieces, Element.norm, Tree.content] using whole

theorem Actual.yields :
    ∀ a : Actual, a.passes .numeric = true → Yields a.pieces.tokens a.norm.content
  | .name n, ok => n.yields ok
  | .expr e, ok => e.yields ok
  | .unconnected, _ => .token (rise_keyword _)

theorem Association.yields :
    ∀ a : Association, a.passes .numeric = true → Yields a.pieces.tokens a.norm.content
  | .positional a, ok => a.yields ok
  | .named i a, ok => by
      simp only [Association.passes, Bool.and_eq_true] at ok
      have whole := (Yields.token (rise_ident i)).join (t := .symbol .arrow) rfl (a.yields ok.2)
      simpa [Association.pieces, Association.norm, Tree.content] using whole

theorem Expr.yieldsOption : ∀ e : Option Expr, Expr.passesOption .numeric e = true →
    ∀ x ∈ e, Yields x.pieces.tokens x.norm.content
  | none, _ => by simp
  | some e, ok => by simpa using e.yields ok

theorem Expr.yieldsAll : ∀ es : List Expr, Expr.passesAll .numeric es = true →
    ∀ e ∈ es, Yields e.pieces.tokens e.norm.content
  | [], _ => by simp
  | e :: es, ok => by
      simp only [Expr.passesAll, Bool.and_eq_true] at ok
      simpa [e.yields ok.1] using Expr.yieldsAll es ok.2

theorem Element.yieldsAll : ∀ es : List Element, Element.passesAll .numeric es = true →
    ∀ e ∈ es, Yields e.pieces.tokens e.norm.content
  | [], _ => by simp
  | e :: es, ok => by
      simp only [Element.passesAll, Bool.and_eq_true] at ok
      simpa [e.yields ok.1] using Element.yieldsAll es ok.2

theorem Association.yieldsAll :
    ∀ as : List Association, Association.passesAll .numeric as = true →
      ∀ a ∈ as, Yields a.pieces.tokens a.norm.content
  | [], _ => by simp
  | a :: as, ok => by
      simp only [Association.passesAll, Bool.and_eq_true] at ok
      simpa [a.yields ok.1] using Association.yieldsAll as ok.2

end

end Vhdl93
