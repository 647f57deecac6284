import Vhdl93.Proofs.Lexer.Inline

set_option autoImplicit false

/-!
Where inline text ends among other lexemes. Outside its parentheses a leaf has none of the lexemes
that may stand behind it, so the text before the first of them is the leaf, whatever it contains.
-/

namespace Vhdl93.Lexer

/-- Lexemes with matching parentheses, outside of which there is none of `stops`. -/
inductive Closed : List Lexeme → List Lexeme → Prop where
  | nil {stops : List Lexeme} : Closed stops []
  | cons {stops ls : List Lexeme} {l : Lexeme} (free : l ∉ stops) (opening : l ≠ .delimiter "(")
      (closing : l ≠ .delimiter ")") (rest : Closed stops ls) : Closed stops (l :: ls)
  | parens {stops xs ls : List Lexeme} (inner : Closed [] xs) (rest : Closed stops ls) :
      Closed stops (.delimiter "(" :: (xs ++ .delimiter ")" :: ls))

def halts (stops : List Lexeme) (l : Lexeme) : Bool :=
  l = .delimiter ")" || l ∈ stops && l ≠ .delimiter "("

namespace Closed

variable {stops wider xs ys : List Lexeme}

theorem append (left : Closed stops xs) (right : Closed stops ys) : Closed stops (xs ++ ys) := by
  induction left with
  | nil => exact right
  | cons free opening closing _ ih => exact .cons free opening closing (ih right)
  | parens inner _ _ ih => simpa using Closed.parens inner (ih right)

theorem mono (closed : Closed wider xs) (subset : ∀ l ∈ stops, l ∈ wider) : Closed stops xs := by
  induction closed with
  | nil => exact .nil
  | @cons _ _ l free opening closing _ ih =>
    exact .cons (fun member => free (subset l member)) opening closing (ih subset)
  | parens inner _ _ ih => exact .parens inner (ih subset)

theorem inner (closed : Closed wider xs) : Closed [] xs := closed.mono (by simp)

theorem enclosed (inner : Closed [] xs) : Closed stops (.delimiter "(" :: xs ++ [.delimiter ")"]) :=
  .parens inner .nil

theorem single {l : Lexeme} (free : l ∉ stops) (plain : l ≠ .delimiter "(" ∧ l ≠ .delimiter ")") :
    Closed stops [l] :=
  .cons free plain.1 plain.2 .nil

theorem flat (plain : ∀ l ∈ xs, l ∉ .delimiter "(" :: .delimiter ")" :: stops) :
    Closed stops xs := by
  induction xs with
  | nil => exact .nil
  | cons l xs ih =>
    have first := plain l List.mem_cons_self
    simp only [List.mem_cons, not_or] at first
    exact .cons first.2.2 first.1 first.2.1
      (ih fun m member => plain m (List.mem_cons_of_mem l member))

theorem head_free {l a : Lexeme} {ls : List Lexeme} (free : l ∉ stops)
    (closing : l ≠ .delimiter ")") (stop : halts stops a = true) : a :: xs ≠ l :: ls := by
  intro same
  obtain rfl : a = l := (List.cons.inj same).1
  simp [halts, free, closing] at stop

theorem head_paren {a : Lexeme} {ls : List Lexeme} (stop : halts stops a = true) :
    a :: xs ≠ .delimiter "(" :: ls := by
  intro same
  obtain rfl : a = .delimiter "(" := (List.cons.inj same).1
  simp [halts] at stop

theorem cut {a b : Lexeme} {r r' : List Lexeme} (left : Closed stops xs) (right : Closed stops ys)
    (stop : halts stops a = true) (stop' : halts stops b = true)
    (same : xs ++ a :: r = ys ++ b :: r') : xs = ys ∧ a :: r = b :: r' := by
  -- Two closed texts that end at a stop have the same end.
  induction left generalizing ys a b r r' with
  | nil =>
    cases right with
    | nil => exact ⟨rfl, same⟩
    | cons free _ closing _ => exact absurd same (head_free free closing stop)
    | parens => exact absurd same (head_paren stop)
  | cons free opening closing _ ih =>
    cases right with
    | nil => exact absurd same.symm (head_free free closing stop')
    | cons _ _ _ rest =>
      obtain ⟨rfl, tail⟩ := List.cons.inj same
      obtain ⟨rfl, behind⟩ := ih rest stop stop' tail
      exact ⟨rfl, behind⟩
    | parens => exact absurd (List.cons.inj same).1 opening
  | @parens _ inside outside _ _ ihInner ih =>
    cases right with
    | nil => exact absurd same.symm (head_paren stop')
    | cons _ opening _ _ => exact absurd (List.cons.inj same).1.symm opening
    | @parens _ inside' outside' inner rest =>
      -- First the text inside of the parentheses, which ends at their own closing one.
      have body : inside ++ .delimiter ")" :: (outside ++ a :: r) =
          inside' ++ .delimiter ")" :: (outside' ++ b :: r') := by
        simpa using same
      obtain ⟨rfl, later⟩ := ihInner inner rfl rfl body
      obtain ⟨rfl, behind⟩ := ih rest stop stop' (List.cons.inj later).2
      exact ⟨rfl, behind⟩

end Closed

structure Leaf (stops xs : List Lexeme) : Prop where
  closed : Closed stops xs
  last : ∀ l ∈ xs.getLast?, l.isBlank = false

def stopped (stops : List Lexeme) : List Lexeme → Bool
  | [] => false
  | a :: r => halts stops a || a = .white " " && r.head?.any (halts stops)

namespace Leaf

variable {stops wider xs ys t t' : List Lexeme}

theorem mono (leaf : Leaf wider xs) (subset : ∀ l ∈ stops, l ∈ wider) : Leaf stops xs :=
  ⟨leaf.closed.mono subset, leaf.last⟩

theorem of_phrase {rules : Rules} (closed : Closed stops xs)
    (phrase : Phrase rules Lexeme.endsOperand xs) : Leaf stops xs := by
  obtain ⟨l, last, ends⟩ := phrase.ends
  refine ⟨closed, ?_⟩
  intro m member
  obtain rfl : l = m := Option.some.inj (last.symm.trans member)
  exact Lexeme.not_blank_of_endsOperand ends

theorem nil : Leaf stops [] := ⟨.nil, by simp⟩

theorem single {l : Lexeme} (free : l ∉ stops) (plain : l ≠ .delimiter "(" ∧ l ≠ .delimiter ")")
    (black : l.isBlank = false) : Leaf stops [l] :=
  ⟨.single free plain, by simpa using black⟩

theorem ne_blank (leaf : Leaf stops xs) (ys : List Lexeme) : ys ++ [.white " "] ≠ xs := by
  rintro rfl
  cases leaf.last (.white " ") (by simp)

theorem reaches (leaf : Leaf stops xs) (ends : stopped stops t = true) :
    ∃ a r, halts stops a = true ∧ (t = a :: r ∨ t = .white " " :: a :: r ∧
      Closed stops (xs ++ [.white " "])) := by
  -- What stands before a stop, with the blank before it if there is one.
  cases t with
  | nil => cases ends
  | cons a r =>
    by_cases stop : halts stops a = true
    · exact ⟨a, r, stop, .inl rfl⟩
    · simp only [stopped, stop, Bool.false_or, Bool.and_eq_true, decide_eq_true_eq] at ends
      obtain ⟨rfl, next⟩ := ends
      cases r with
      | nil => cases next
      | cons b r =>
        have free : Lexeme.white " " ∉ stops := by
          intro member
          simp [halts, member] at stop
        exact ⟨b, r, next, .inr ⟨rfl, leaf.closed.append (.single free (by simp))⟩⟩

theorem cut (left : Leaf stops xs) (right : Leaf stops ys) (same : xs ++ t = ys ++ t')
    (ends : stopped stops t = true) (ends' : stopped stops t' = true) : xs = ys ∧ t = t' := by
  -- A leaf is the text before the first stop behind it.
  obtain ⟨a, r, stop, rfl | ⟨rfl, closed⟩⟩ := left.reaches ends
  · obtain ⟨b, r', stop', rfl | ⟨rfl, closed'⟩⟩ := right.reaches ends'
    · exact left.closed.cut right.closed stop stop' same
    · have cut := left.closed.cut closed' stop stop' (by simpa using same)
      exact absurd cut.1.symm (left.ne_blank ys)
  · obtain ⟨b, r', stop', rfl | ⟨rfl, closed'⟩⟩ := right.reaches ends'
    · have cut := closed.cut right.closed stop stop' (by simpa using same)
      exact absurd cut.1 (right.ne_blank xs)
    · obtain ⟨texts, later⟩ := closed.cut closed' stop stop' (by simpa using same)
      exact ⟨List.append_cancel_right texts, by rw [later]⟩

end Leaf

structure Item (stops xs : List Lexeme) : Prop extends Leaf stops xs where
  nonempty : xs ≠ []

namespace Item

variable {stops wider xs : List Lexeme}

theorem mono (item : Item wider xs) (subset : ∀ l ∈ stops, l ∈ wider) : Item stops xs :=
  ⟨item.toLeaf.mono subset, item.nonempty⟩

theorem of_phrase {rules : Rules} (closed : Closed stops xs)
    (phrase : Phrase rules Lexeme.endsOperand xs) : Item stops xs := by
  refine ⟨.of_phrase closed phrase, ?_⟩
  rintro rfl
  obtain ⟨l, head, -⟩ := phrase.starts
  cases head

end Item

theorem Closed.separated {stops separator : List Lexeme} {items : List (List Lexeme)}
    (between : Closed stops separator) (each : ∀ x ∈ items, Closed stops x) :
    Closed stops (separated separator items) := by
  fun_induction Lexer.separated separator items with
  | case1 => exact .nil
  | case2 item => exact each item (by simp)
  | case3 item rest _ ih =>
    have later := ih fun x member => each x (List.mem_cons_of_mem item member)
    exact (each item (by simp)).append (between.append later)

section Separated

variable {stops separator t t' : List Lexeme} {items items' : List (List Lexeme)}
  (between : ∀ s, stopped stops (separator ++ s) = true)
include between

theorem later_stopped (ends : stopped stops t = true) :
    stopped stops (items.flatMap (separator ++ ·) ++ t) = true := by
  cases items with
  | nil => exact ends
  | cons x items =>
    rw [List.flatMap_cons, List.append_assoc, List.append_assoc]
    exact between _

theorem later_cut (each : ∀ x ∈ items, Item stops x) (each' : ∀ x ∈ items', Item stops x)
    (ends : stopped stops t = true ∧ ∀ s, separator ++ s ≠ t)
    (ends' : stopped stops t' = true ∧ ∀ s, separator ++ s ≠ t')
    (same : items.flatMap (separator ++ ·) ++ t = items'.flatMap (separator ++ ·) ++ t') :
    items = items' ∧ t = t' := by
  induction items generalizing items' with
  | nil =>
    cases items' with
    | nil => exact ⟨rfl, same⟩
    | cons y ys =>
      -- The separator of the one list would stand where the other one has ended.
      refine absurd ?_ (ends.2 (y ++ (ys.flatMap (separator ++ ·) ++ t')))
      simpa using same.symm
  | cons x xs ih =>
    cases items' with
    | nil =>
      refine absurd ?_ (ends'.2 (x ++ (xs.flatMap (separator ++ ·) ++ t)))
      simpa using same
    | cons y ys =>
      simp only [List.flatMap_cons, List.append_assoc, List.append_cancel_left_eq] at same
      obtain ⟨rfl, later⟩ := (each x List.mem_cons_self).cut (each' y List.mem_cons_self).toLeaf
        same (later_stopped between ends.1) (later_stopped between ends'.1)
      obtain ⟨rfl, behind⟩ := ih (fun z member => each z (List.mem_cons_of_mem _ member))
        (fun z member => each' z (List.mem_cons_of_mem _ member)) later
      exact ⟨rfl, behind⟩

theorem separated_cut (each : ∀ x ∈ items, Item stops x) (each' : ∀ x ∈ items', Item stops x)
    (ends : stopped stops t = true ∧ ∀ s, separator ++ s ≠ t)
    (ends' : stopped stops t' = true ∧ ∀ s, separator ++ s ≠ t')
    (same : separated separator items ++ t = separated separator items' ++ t') :
    items = items' ∧ t = t' := by
  cases items with
  | nil =>
    cases items' with
    | nil => exact ⟨rfl, same⟩
    | cons y ys =>
      -- A first item is not empty, so it cannot be cut off where the empty list ends.
      have item := each' y List.mem_cons_self
      rw [separated_cons, List.append_assoc] at same
      have cut := Leaf.nil.cut item.toLeaf same ends.1 (later_stopped between ends'.1)
      exact absurd cut.1.symm item.nonempty
  | cons x xs =>
    have item := each x List.mem_cons_self
    rw [separated_cons, List.append_assoc] at same
    cases items' with
    | nil =>
      have cut := item.cut .nil same (later_stopped between ends.1) ends'.1
      exact absurd cut.1 item.nonempty
    | cons y ys =>
      rw [separated_cons, List.append_assoc] at same
      obtain ⟨rfl, later⟩ := item.cut (each' y List.mem_cons_self).toLeaf same
        (later_stopped between ends.1) (later_stopped between ends'.1)
      obtain ⟨rfl, behind⟩ := later_cut between
        (fun z member => each z (List.mem_cons_of_mem _ member))
        (fun z member => each' z (List.mem_cons_of_mem _ member)) ends ends' later
      exact ⟨rfl, behind⟩

end Separated

theorem map_of_map {α β : Type} {f : α → List Lexeme} {g : α → β} {xs ys : List α}
    (faithful : ∀ x ∈ xs, ∀ y ∈ ys, f x = f y → g x = g y) (same : xs.map f = ys.map f) :
    xs.map g = ys.map g := by
  induction xs generalizing ys with
  | nil =>
    cases ys with
    | nil => rfl
    | cons y ys => cases same
  | cons x xs ih =>
    cases ys with
    | nil => cases same
    | cons y ys =>
      obtain ⟨first, rest⟩ := List.cons.inj same
      have later := ih (fun x member y member' =>
        faithful x (List.mem_cons_of_mem _ member) y (List.mem_cons_of_mem _ member')) rest
      rw [List.map_cons, List.map_cons, faithful x List.mem_cons_self y List.mem_cons_self first,
        later]

def stops : List Lexeme :=
  [.delimiter ";", .delimiter ":=", .delimiter "|", .delimiter "=>", .delimiter ",",
    .keyword "then",
    .keyword "is", .keyword "loop", .keyword "generate", .keyword "when", .keyword "else"]

/-- What may stand behind a name; there is no blank in a name outside of parentheses. -/
def nameStops : List Lexeme := .white " " :: stops

def waveformStops : List Lexeme := [.delimiter ";", .keyword "when", .keyword "else"]

def associationStops : List Lexeme := [.delimiter ","]

end Vhdl93.Lexer

namespace Vhdl93

open Lexer

variable {rules : Rules} {size : Nat → Bool}

theorem Token.ident_closed {i : Ident} (designator : i.isDesignator = true) :
    Closed nameStops [(Token.ident i).lexeme] := by
  cases accepted : i.isAccepted with
  | true => simpa [lexeme, accepted] using Closed.single (by simp [nameStops, stops]) (by simp)
  | false =>
    have range : i.render.toLower = "range" := by
      simp only [Ident.isDesignator, accepted, Bool.false_or, Bool.and_eq_true,
        decide_eq_true_eq] at designator
      cases i with
      | basic text => exact designator.2
      | extended text => cases designator.1
    have free : Lexeme.keyword i.render ∉ nameStops := by
      intro member
      simp only [nameStops, stops, List.mem_cons, List.not_mem_nil, or_false, reduceCtorEq,
        false_or, Lexeme.keyword.injEq] at member
      rcases member with same | same | same | same | same | same <;> rw [same] at range <;>
        exact absurd range (by decide +kernel)
    simpa [lexeme, accepted] using Closed.single free (by simp)

theorem Ident.isDesignator_of_accepted {i : Ident} (accepted : i.isAccepted = true) :
    i.isDesignator = true := by
  simp [isDesignator, accepted]

theorem Lexer.Closed.operand {ps : Pieces} (parens : Bool) (closed : Closed stops ps.lexemes) :
    Closed stops (ps.operand parens).lexemes := by
  cases parens with
  | false => exact closed
  | true => simpa [Pieces.operand] using Closed.enclosed closed.inner

theorem Literal.closed (x : Literal) : Closed stops x.pieces.lexemes := by
  cases x with
  | real x =>
    simp only [Literal.pieces]
    split
    · exact .cons (by decide) (by simp [Piece.lexeme, Token.lexeme, Piece.symbol, Symbol.text])
        (by simp [Piece.lexeme, Token.lexeme, Piece.symbol, Symbol.text])
        (.single (by simp [stops, Piece.lexeme, Token.lexeme])
          (by simp [Piece.lexeme, Token.lexeme]))
    · exact .single (by simp [stops, Piece.lexeme, Token.lexeme])
        (by simp [Piece.lexeme, Token.lexeme])
  | integer | character | string | bitString | null =>
    exact .single (by simp [stops, Piece.lexeme, Token.lexeme, Piece.keyword])
      (by simp [Piece.lexeme, Token.lexeme, Piece.keyword])

theorem Lexer.Closed.spaced {stops xs ys : List Lexeme} {l : Lexeme} (left : Closed stops xs)
    (right : Closed stops ys) (blank : .white " " ∉ stops) (free : l ∉ stops)
    (plain : l ≠ .delimiter "(" ∧ l ≠ .delimiter ")") :
    Closed stops (xs ++ .white " " :: l :: .white " " :: ys) :=
  left.append (.cons blank (by simp) (by simp)
    (.cons free plain.1 plain.2 (.cons blank (by simp) (by simp) right)))

theorem Lexer.Closed.list {items : List Pieces} (each : ∀ ps ∈ items, Closed [] ps.lexemes) :
    Closed [] (Pieces.commaSeparated items).lexemes := by
  rw [lexemes_commaSeparated]
  apply Closed.separated
  · exact .cons (by simp) (by simp) (by simp) (.single (by simp) (by simp))
  · intro x member
    obtain ⟨ps, origin, rfl⟩ := List.mem_map.mp member
    exact each ps origin

theorem Lexer.Closed.attributed {xs : List Lexeme} {i : Ident} (base : Closed nameStops xs)
    (designator : i.isDesignator = true) :
    Closed nameStops (xs ++ [.delimiter "'", (Token.ident i).lexeme]) :=
  base.append (.cons (by decide) (by simp) (by simp) (Token.ident_closed designator))

theorem BinaryOp.token_free (op : BinaryOp) :
    op.token.lexeme ∉ stops ∧
      op.token.lexeme ≠ .delimiter "(" ∧ op.token.lexeme ≠ .delimiter ")" := by
  cases op <;> decide

theorem UnaryOp.closed (op : UnaryOp) : Closed stops op.pieces.lexemes := by
  cases op with
  | plus | minus => exact .single (by decide) (by decide)
  | abs | not => exact .cons (by decide) (by decide) (by decide) (.single (by decide) (by decide))

theorem Lexer.Closed.of_name {xs : List Lexeme} (closed : Closed nameStops xs) : Closed stops xs :=
  closed.mono fun l member => by simp [nameStops, member]

theorem Suffix.closed {s : Suffix} (ok : s.passes (rules.checks size) = true) :
    Closed nameStops s.pieces.lexemes := by
  cases s with
  | simple i => exact Token.ident_closed (Ident.isDesignator_of_accepted ok)
  | all => exact .single (by decide) (by decide)

mutual

theorem Name.closed : ∀ n : Name, n.passes (rules.checks size) = true →
    Closed nameStops n.pieces.lexemes
  | .simple i, ok => Token.ident_closed (Ident.isDesignator_of_accepted ok)
  | .selected base suffix, ok => by
      simp only [Name.passes, Bool.and_eq_true] at ok
      have name := base.closed ok.1
      simpa [Name.pieces, Symbol.text] using
        name.append (.cons (l := .delimiter ".") (by decide) (by simp) (by simp)
          (Suffix.closed ok.2))
  | .indexed base es, ok => by
      simp only [Name.passes, Bool.and_eq_true] at ok
      have name := base.closed ok.1.1
      have list := Closed.list (Expr.closedAll es ok.2)
      simpa [Name.pieces] using name.append (.enclosed list)
  | .slice base range, ok => by
      simp only [Name.passes, Bool.and_eq_true] at ok
      have name := base.closed ok.1
      have bounds := range.closed ok.2
      simpa [Name.pieces] using name.append (.enclosed bounds.inner)
  | .attribute base i e, ok => by
      simp only [Name.passes, Bool.and_eq_true] at ok
      have name := (base.closed ok.1.1.1).attributed ok.1.2
      simpa [Name.pieces, Symbol.text] using name.append (Expr.closedArgument e ok.2)

theorem Range.closed : ∀ r : Range, r.passes (rules.checks size) = true →
    Closed stops r.pieces.lexemes
  | .bounds d l r, ok => by
      simp only [Range.passes, Bool.and_eq_true] at ok
      have left := l.closed ok.1
      have right := r.closed ok.2
      have free : Lexeme.keyword d.text ∉ stops := by cases d <;> decide
      simpa [Range.pieces] using left.spaced right (by decide) free (by simp)
  | .attribute base i e, ok => by
      simp only [Range.passes, Bool.and_eq_true] at ok
      have name := (base.closed ok.1.1.1).attributed ok.1.2
      have whole := (name.append (Expr.closedArgument e ok.2)).of_name
      simpa [Range.pieces, Symbol.text] using whole

theorem Expr.closed : ∀ e : Expr, e.passes (rules.checks size) = true →
    Closed stops e.pieces.lexemes
  | .binary op l r, ok => by
      simp only [Expr.passes, Bool.and_eq_true] at ok
      have left := (l.closed ok.1).operand (op.parenthesizesLeft l)
      have right := (r.closed ok.2).operand (op.parenthesizesRight r)
      simpa [Expr.pieces] using left.spaced right (by decide) op.token_free.1 op.token_free.2
  | .unary op e, ok => by
      have operand := (e.closed ok).operand (op.parenthesizes e)
      simpa [Expr.pieces] using op.closed.append operand
  | .literal x, _ => x.closed
  | .name n, ok => (n.closed ok).of_name
  | .call n as, ok => by
      simp only [Expr.passes, Bool.and_eq_true] at ok
      have name := n.closed ok.1
      have list := Closed.list (Association.closedAll as ok.2)
      have wide : Closed nameStops (Expr.call n as).pieces.lexemes := by
        cases as with
        | nil => simpa [Expr.pieces, Pieces.arguments] using name
        | cons a as => simpa [Expr.pieces, Pieces.arguments] using name.append (.enclosed list)
      exact wide.of_name
  | .aggregate es, ok => by
      simp only [Expr.passes, Bool.and_eq_true] at ok
      have list := Closed.list (Element.closedAll es ok.2)
      have enclosed : Closed stops _ := list.enclosed
      simpa [Expr.pieces] using enclosed

theorem Choice.closed : ∀ c : Choice, c.passes (rules.checks size) = true →
    Closed stops c.pieces.lexemes
  | .expr e, ok => e.closed ok
  | .others, _ => .single (by decide) (by decide)

theorem Element.closed : ∀ e : Element, e.passes (rules.checks size) = true →
    Closed associationStops e.pieces.lexemes
  | .positional e, ok => (e.closed ok).mono (by decide)
  | .named c e, ok => by
      simp only [Element.passes, Bool.and_eq_true] at ok
      have choice : Closed associationStops c.pieces.lexemes := (c.closed ok.1).mono (by decide)
      have value : Closed associationStops e.pieces.lexemes := (e.closed ok.2).mono (by decide)
      simpa [Element.pieces, Symbol.text] using
        choice.spaced (l := .delimiter "=>") value (by decide) (by decide) (by simp)

theorem Actual.closed : ∀ a : Actual, a.passes (rules.checks size) = true →
    Closed stops a.pieces.lexemes
  | .name n, ok => (n.closed ok).of_name
  | .expr e, ok => e.closed ok
  | .unconnected, _ => .single (by decide) (by decide)

theorem Association.closed : ∀ a : Association, a.passes (rules.checks size) = true →
    Closed associationStops a.pieces.lexemes
  | .positional a, ok => (a.closed ok).mono (by decide)
  | .named i a, ok => by
      simp only [Association.passes, Bool.and_eq_true] at ok
      have formal : Closed associationStops [(Token.ident i).lexeme] :=
        (Token.ident_closed (Ident.isDesignator_of_accepted ok.1)).mono (by decide)
      have actual : Closed associationStops a.pieces.lexemes := (a.closed ok.2).mono (by decide)
      simpa [Association.pieces, Symbol.text] using
        formal.spaced (l := .delimiter "=>") actual (by decide) (by decide) (by simp)

theorem Expr.closedArgument : ∀ e : Option Expr, Expr.passesOption (rules.checks size) e = true →
    Closed nameStops (Expr.argumentPieces e).lexemes
  | none, _ => .nil
  | some e, ok => by
      have inner := (e.closed ok).inner
      simpa [Expr.argumentPieces] using inner.enclosed

theorem Expr.closedAll : ∀ es : List Expr, Expr.passesAll (rules.checks size) es = true →
    ∀ ps ∈ Expr.piecesAll es, Closed [] ps.lexemes
  | [], _ => by simp [Expr.piecesAll]
  | e :: es, ok => by
      simp only [Expr.passesAll, Bool.and_eq_true] at ok
      have first := (e.closed ok.1).inner
      have later := Expr.closedAll es ok.2
      simpa [Expr.piecesAll, first] using later

theorem Element.closedAll : ∀ es : List Element, Element.passesAll (rules.checks size) es = true →
    ∀ ps ∈ Element.piecesAll es, Closed [] ps.lexemes
  | [], _ => by simp [Element.piecesAll]
  | e :: es, ok => by
      simp only [Element.passesAll, Bool.and_eq_true] at ok
      have first := (e.closed ok.1).inner
      have later := Element.closedAll es ok.2
      simpa [Element.piecesAll, first] using later

theorem Association.closedAll : ∀ as : List Association,
    Association.passesAll (rules.checks size) as = true →
    ∀ ps ∈ Association.piecesAll as, Closed [] ps.lexemes
  | [], _ => by simp [Association.piecesAll]
  | a :: as, ok => by
      simp only [Association.passesAll, Bool.and_eq_true] at ok
      have first := (a.closed ok.1).inner
      have later := Association.closedAll as ok.2
      simpa [Association.piecesAll, first] using later

end

theorem Name.leaf {n : Name} (ok : n.passes (rules.checks size) = true) :
    Leaf nameStops n.pieces.lexemes :=
  .of_phrase (n.closed ok) (n.phrase ok).phrase.operand

theorem Range.item {r : Range} (ok : r.passes (rules.checks size) = true) :
    Item stops r.pieces.lexemes :=
  .of_phrase (r.closed ok) (r.phrase ok)

theorem Expr.leaf {e : Expr} (ok : e.passes (rules.checks size) = true) :
    Leaf stops e.pieces.lexemes :=
  .of_phrase (e.closed ok) (e.phrase ok)

theorem Choice.item {c : Choice} (ok : c.passes (rules.checks size) = true) :
    Item stops c.pieces.lexemes :=
  .of_phrase (c.closed ok) (c.phrase ok)

theorem Association.item {a : Association} (ok : a.passes (rules.checks size) = true) :
    Item associationStops a.pieces.lexemes :=
  .of_phrase (a.closed ok) (a.phrase ok)

theorem Expr.call_leaf {n : Name} {as : List Association}
    (ok : (Expr.call n as).passes (rules.checks size) = true) :
    Leaf nameStops (Expr.call n as).pieces.lexemes := by
  -- A whole call has no blank outside of its parentheses either.
  refine .of_phrase ?_ ((Expr.call n as).phrase ok)
  simp only [Expr.passes, Bool.and_eq_true] at ok
  have name := n.closed ok.1
  have list := Closed.list (Association.closedAll as ok.2)
  cases as with
  | nil => simpa [Expr.pieces, Pieces.arguments] using name
  | cons a as => simpa [Expr.pieces, Pieces.arguments] using name.append (.enclosed list)

theorem Constraint.closed {c : Constraint} (ok : c.passes (rules.checks size) = true) :
    Closed stops c.pieces.lexemes := by
  cases c with
  | range r =>
    have spaced := Closed.nil.spaced (l := .keyword "range") (r.closed ok) (by decide)
      (by decide) (by simp)
    simpa [Constraint.pieces] using spaced
  | index rs =>
    simp only [Constraint.passes, Bool.and_eq_true, List.all_eq_true] at ok
    have list : Closed [] (Pieces.commaSeparated (rs.map Range.pieces)).lexemes :=
      Closed.list (by simpa using fun r member => (r.closed (ok.2 r member)).inner)
    have enclosed : Closed stops _ := list.enclosed
    simpa [Constraint.pieces, Range.indexPieces] using enclosed

theorem SubtypeIndication.leaf {s : SubtypeIndication} (ok : s.passes (rules.checks size) = true) :
    Leaf stops s.pieces.lexemes := by
  refine .of_phrase ?_ (SubtypeIndication.phrase ok)
  obtain ⟨mark, constraint⟩ := s
  simp only [SubtypeIndication.passes, Bool.and_eq_true] at ok
  have name := (Token.ident_closed (Ident.isDesignator_of_accepted ok.1)).of_name
  cases constraint with
  | none => exact name
  | some c => exact name.append (Constraint.closed ok.2)

theorem WaveformElement.closed {w : WaveformElement} (ok : w.passes (rules.checks size) = true) :
    Closed waveformStops w.pieces.lexemes := by
  obtain ⟨value, delay⟩ := w
  simp only [WaveformElement.passes, Bool.and_eq_true] at ok
  have first : Closed waveformStops value.pieces.lexemes := (value.closed ok.1).mono (by decide)
  cases delay with
  | none => exact first
  | some delay =>
    have second : Closed waveformStops delay.pieces.lexemes := (delay.closed ok.2).mono (by decide)
    simpa [WaveformElement.pieces] using
      first.spaced (l := .keyword "after") second (by decide) (by decide) (by simp)

theorem Waveform.closed {w : Waveform} (ok : w.passes (rules.checks size) = true) :
    Closed waveformStops w.pieces.lexemes := by
  cases w with
  | elements ws =>
    simp only [Waveform.passes, Bool.and_eq_true, List.all_eq_true] at ok
    rw [Waveform.pieces, lexemes_commaSeparated]
    apply Closed.separated
    · exact .cons (by decide) (by simp) (by simp) (.single (by decide) (by simp))
    · simpa using fun w member => WaveformElement.closed (ok.2 w member)
  | unaffected => exact .single (by decide) (by decide)

end Vhdl93
