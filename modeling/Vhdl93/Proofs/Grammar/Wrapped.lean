import Vhdl93.Expr.Pieces
import Vhdl93.Proofs.Inline.Checks

set_option autoImplicit false

namespace Vhdl93

/-- An operand in parentheses, with what stands before and behind them. -/
structure Wrapped where
  before : Pieces
  operand : Expr
  after : Pieces

namespace Wrapped

def whole (w : Wrapped) : Pieces := w.before ++ w.operand.pieces.parenthesized ++ w.after

def bare (w : Wrapped) : Pieces := w.before ++ w.operand.pieces ++ w.after

def within (front back : Pieces) (w : Wrapped) : Wrapped :=
  ⟨front ++ w.before, w.operand, w.after ++ back⟩

@[simp] theorem whole_within (front back : Pieces) (w : Wrapped) :
    (w.within front back).whole = front ++ w.whole ++ back := by
  simp [whole, within]

@[simp] theorem bare_within (front back : Pieces) (w : Wrapped) :
    (w.within front back).bare = front ++ w.bare ++ back := by
  simp [bare, within]

def inside (w : Wrapped) : Wrapped := w.within [.symbol .leftParen] [.symbol .rightParen]

@[simp] theorem whole_inside (w : Wrapped) : w.inside.whole = w.whole.parenthesized := by
  simp [inside, Pieces.parenthesized]

@[simp] theorem bare_inside (w : Wrapped) : w.inside.bare = w.bare.parenthesized := by
  simp [inside, Pieces.parenthesized]

def ofOperand (parens : Bool) (e : Expr) (inner : List Wrapped) : List Wrapped :=
  if parens then ⟨[], e, []⟩ :: inner.map inside else inner

def ofItems : List (Pieces × List Wrapped) → List Wrapped
  | [] => []
  | [item] => item.2
  | item :: rest =>
      let later := Pieces.commaSeparated (rest.map Prod.fst)
      item.2.map (within [] (.symbol .comma :: .blank :: later)) ++
        (ofItems rest).map (within (item.1 ++ [.symbol .comma, .blank]) [])

end Wrapped

mutual

def Name.wrapped : Name → List Wrapped
  | .simple _ => []
  | .selected base suffix => base.wrapped.map (.within [] (.symbol .dot :: suffix.pieces))
  | .indexed base es =>
      base.wrapped.map (.within [] (Pieces.commaSeparated (Expr.piecesAll es)).parenthesized) ++
        (Wrapped.ofItems (Expr.wrappedAll es)).map fun w => w.inside.within base.pieces []
  | .slice base range =>
      base.wrapped.map (.within [] range.pieces.parenthesized) ++
        range.wrapped.map fun w => w.inside.within base.pieces []
  | .attribute base i e =>
      base.wrapped.map (.within [] (.symbol .tick :: .ident i :: Expr.argumentPieces e)) ++
        (Expr.wrappedOption e).map fun w =>
          w.inside.within (base.pieces ++ [.symbol .tick, .ident i]) []

def Range.wrapped : Range → List Wrapped
  | .bounds d l r =>
      l.wrapped.map (.within [] (.blank :: .keyword d.text :: .blank :: r.pieces)) ++
        r.wrapped.map (.within (l.pieces ++ [.blank, .keyword d.text, .blank]) [])
  | .attribute base i e =>
      base.wrapped.map (.within [] (.symbol .tick :: .ident i :: Expr.argumentPieces e)) ++
        (Expr.wrappedOption e).map fun w =>
          w.inside.within (base.pieces ++ [.symbol .tick, .ident i]) []

def Expr.wrapped : Expr → List Wrapped
  | .binary op l r =>
      (Wrapped.ofOperand (op.parenthesizesLeft l) l l.wrapped).map
          (.within [] (.blank :: .token op.token :: .blank ::
            r.pieces.operand (op.parenthesizesRight r))) ++
        (Wrapped.ofOperand (op.parenthesizesRight r) r r.wrapped).map
          (.within (l.pieces.operand (op.parenthesizesLeft l) ++
            [.blank, .token op.token, .blank]) [])
  | .unary op e => (Wrapped.ofOperand (op.parenthesizes e) e e.wrapped).map (.within op.pieces [])
  | .literal _ => []
  | .name n => n.wrapped
  | .call n as =>
      n.wrapped.map (.within [] (Pieces.arguments (Association.piecesAll as))) ++
        (Wrapped.ofItems (Association.wrappedAll as)).map fun w => w.inside.within n.pieces []
  | .aggregate es => (Wrapped.ofItems (Element.wrappedAll es)).map .inside

def Choice.wrapped : Choice → List Wrapped
  | .expr e => e.wrapped
  | .others => []

def Element.wrapped : Element → List Wrapped
  | .positional e => e.wrapped
  | .named c e =>
      c.wrapped.map (.within [] (.blank :: .symbol .arrow :: .blank :: e.pieces)) ++
        e.wrapped.map (.within (c.pieces ++ [.blank, .symbol .arrow, .blank]) [])

def Actual.wrapped : Actual → List Wrapped
  | .name n => n.wrapped
  | .expr e => e.wrapped
  | .unconnected => []

def Association.wrapped : Association → List Wrapped
  | .positional a => a.wrapped
  | .named i a => a.wrapped.map (.within [.ident i, .blank, .symbol .arrow, .blank] [])

def Expr.wrappedOption : Option Expr → List Wrapped
  | none => []
  | some e => e.wrapped

def Expr.wrappedAll : List Expr → List (Pieces × List Wrapped)
  | [] => []
  | e :: es => (e.pieces, e.wrapped) :: Expr.wrappedAll es

def Element.wrappedAll : List Element → List (Pieces × List Wrapped)
  | [] => []
  | e :: es => (e.pieces, e.wrapped) :: Element.wrappedAll es

def Association.wrappedAll : List Association → List (Pieces × List Wrapped)
  | [] => []
  | a :: as => (a.pieces, a.wrapped) :: Association.wrappedAll as

end

theorem Expr.wrappedAll_eq_map (es : List Expr) :
    Expr.wrappedAll es = es.map fun e => (e.pieces, e.wrapped) := by
  induction es with
  | nil => rfl
  | cons e es ih => simp [Expr.wrappedAll, ih]

theorem Element.wrappedAll_eq_map (es : List Element) :
    Element.wrappedAll es = es.map fun e => (e.pieces, e.wrapped) := by
  induction es with
  | nil => rfl
  | cons e es ih => simp [Element.wrappedAll, ih]

theorem Association.wrappedAll_eq_map (as : List Association) :
    Association.wrappedAll as = as.map fun a => (a.pieces, a.wrapped) := by
  induction as with
  | nil => rfl
  | cons a as ih => simp [Association.wrappedAll, ih]

def Token.separates : Token → Bool
  | .keyword word => word ∈ reservedWords && word ≠ "all"
  | .symbol s => s ∉ [Symbol.tick, .leftParen, .rightParen]
  | _ => false

inductive Pieces.Opens : Pieces → Prop where
  | nil : Opens []
  | paren (front : Pieces) : Opens (front ++ [.symbol .leftParen])
  | sign (front : Pieces) {s : Symbol} (sign : s = .plus ∨ s = .minus) :
      Opens (front ++ [.symbol s])
  | spaced (front : Pieces) {t : Token} (separates : t.separates = true) :
      Opens (front ++ [.token t, .blank])

inductive Pieces.Closes : Pieces → Prop where
  | nil : Closes []
  | paren (back : Pieces) : Closes (.symbol .rightParen :: back)
  | comma (back : Pieces) : Closes (.symbol .comma :: back)
  | spaced (back : Pieces) {t : Token} (separates : t.separates = true) :
      Closes (.blank :: .token t :: back)

namespace Pieces

variable {ps qs : Pieces}

theorem Opens.behind (opens : Opens qs) (started : qs ≠ []) (ps : Pieces) : Opens (ps ++ qs) := by
  cases opens with
  | nil => exact absurd rfl started
  | paren front => exact List.append_assoc ps front _ ▸ .paren (ps ++ front)
  | sign front sign => exact List.append_assoc ps front _ ▸ .sign (ps ++ front) sign
  | spaced front separates => exact List.append_assoc ps front _ ▸ .spaced (ps ++ front) separates

theorem Opens.joint (ps : Pieces) {t : Token} (separates : t.separates = true) :
    Opens (ps ++ [.blank, .token t, .blank]) := by
  exact List.append_assoc ps [.blank] _ ▸ .spaced (ps ++ [.blank]) separates

theorem Opens.append (left : Opens ps) (right : Opens qs) : Opens (ps ++ qs) := by
  by_cases started : qs = []
  · simpa [started] using left
  · exact right.behind started ps

theorem Closes.before (closes : Closes ps) (started : ps ≠ []) (qs : Pieces) :
    Closes (ps ++ qs) := by
  cases closes with
  | nil => exact absurd rfl started
  | paren back => exact .paren (back ++ qs)
  | comma back => exact .comma (back ++ qs)
  | spaced back separates => exact .spaced (back ++ qs) separates

theorem Closes.append (left : Closes ps) (right : Closes qs) : Closes (ps ++ qs) := by
  by_cases started : ps = []
  · simpa [started] using right
  · exact left.before started qs

end Pieces

theorem BinaryOp.separates_token (op : BinaryOp) : op.token.separates = true := by
  cases op <;> decide

theorem Direction.separates_text (d : Direction) : (Token.keyword d.text).separates = true := by
  cases d <;> decide

theorem UnaryOp.opens_pieces (op : UnaryOp) : op.pieces.Opens := by
  cases op with
  | plus => exact .sign [] (.inl rfl)
  | minus => exact .sign [] (.inr rfl)
  | abs => exact .spaced [] (t := .keyword "abs") (by decide)
  | not => exact .spaced [] (t := .keyword "not") (by decide)

namespace Wrapped

/-- An operand that nothing around its parentheses touches. -/
structure Fenced (c : Checks) (w : Wrapped) : Prop where
  opens : w.before.Opens
  closes : w.after.Closes
  passes : w.operand.passes c = true

structure Sealed (c : Checks) (w : Wrapped) : Prop extends Fenced c w where
  followed : w.after ≠ []

variable {c : Checks} {w : Wrapped}

theorem Fenced.within {front back : Pieces} (fenced : w.Fenced c) (opens : front.Opens)
    (closes : back.Closes) : (w.within front back).Fenced c :=
  ⟨opens.append fenced.opens, fenced.closes.append closes, fenced.passes⟩

theorem Fenced.inside (fenced : w.Fenced c) : w.inside.Sealed c where
  toFenced := fenced.within (.paren []) (.paren [])
  followed := by simp [Wrapped.inside, Wrapped.within]

theorem Fenced.applied (fenced : w.Fenced c) (front : Pieces) :
    (w.inside.within front []).Sealed c where
  opens := fenced.inside.opens.behind (by simp [Wrapped.inside, Wrapped.within]) front
  closes := fenced.inside.closes.append .nil
  passes := fenced.passes
  followed := by simp [Wrapped.inside, Wrapped.within]

theorem Sealed.within (closed : w.Sealed c) (back : Pieces) : (w.within [] back).Sealed c where
  opens := closed.opens
  closes := closed.closes.before closed.followed back
  passes := closed.passes
  followed := by simp [Wrapped.within, closed.followed]

theorem fenced_of_operand {parens : Bool} {e : Expr} (ok : e.passes c = true)
    (each : ∀ w ∈ e.wrapped, w.Fenced c) : ∀ w ∈ ofOperand parens e e.wrapped, w.Fenced c := by
  intro w member
  cases parens with
  | false => exact each w member
  | true =>
    simp only [ofOperand, if_true, List.mem_cons, List.mem_map] at member
    rcases member with rfl | ⟨w, member, rfl⟩
    · exact ⟨.nil, .nil, ok⟩
    · exact (each w member).inside.toFenced

theorem fenced_of_items : ∀ {items : List (Pieces × List Wrapped)},
    (∀ item ∈ items, ∀ w ∈ item.2, w.Fenced c) → ∀ w ∈ ofItems items, w.Fenced c
  | [], _, w, member => by cases member
  | [item], each, w, member => each item List.mem_cons_self w member
  | item :: next :: rest, each, w, member => by
      simp only [ofItems, List.mem_append, List.mem_map] at member
      rw [List.forall_mem_cons] at each
      rcases member with ⟨w, member, rfl⟩ | ⟨w, member, rfl⟩
      · exact (each.1 w member).within .nil (.comma _)
      · exact (fenced_of_items each.2 w member).within (.spaced item.1 rfl) .nil

theorem sealed_of_attribute {base : Name} {i : Ident} {e : Option Expr}
    (stems : ∀ w ∈ base.wrapped, w.Sealed c) (inner : ∀ w ∈ Expr.wrappedOption e, w.Fenced c) :
    ∀ w ∈ base.wrapped.map (within [] (.symbol .tick :: .ident i :: Expr.argumentPieces e)) ++
        (Expr.wrappedOption e).map (fun w =>
          w.inside.within (base.pieces ++ [.symbol .tick, .ident i]) []), w.Sealed c := by
  intro w member
  rw [List.mem_append, List.mem_map, List.mem_map] at member
  rcases member with ⟨w, member, rfl⟩ | ⟨w, member, rfl⟩
  · exact (stems w member).within _
  · exact (inner w member).applied _

end Wrapped

section Fences

variable {c : Checks}

mutual

theorem Name.sealed : ∀ n : Name, n.passes c = true → ∀ w ∈ n.wrapped, w.Sealed c
  | .simple _, _, _, member => by cases member
  | .selected base suffix, ok, w, member => by
      simp only [Name.passes, Bool.and_eq_true] at ok
      simp only [Name.wrapped, List.mem_map] at member
      obtain ⟨w, member, rfl⟩ := member
      exact (base.sealed ok.1 w member).within _
  | .indexed base es, ok, w, member => by
      simp only [Name.passes, Bool.and_eq_true] at ok
      simp only [Name.wrapped, List.mem_append, List.mem_map] at member
      rcases member with ⟨w, member, rfl⟩ | ⟨w, member, rfl⟩
      · exact (base.sealed ok.1.1 w member).within _
      · exact (Wrapped.fenced_of_items (Expr.fencedAll es ok.2) w member).applied _
  | .slice base range, ok, w, member => by
      simp only [Name.passes, Bool.and_eq_true] at ok
      simp only [Name.wrapped, List.mem_append, List.mem_map] at member
      rcases member with ⟨w, member, rfl⟩ | ⟨w, member, rfl⟩
      · exact (base.sealed ok.1 w member).within _
      · exact (range.fenced ok.2 w member).applied _
  | .attribute base i e, ok, w, member => by
      simp only [Name.passes, Bool.and_eq_true] at ok
      exact Wrapped.sealed_of_attribute (base.sealed ok.1.1.1) (Expr.fencedOption e ok.2) w member

theorem Range.fenced : ∀ r : Range, r.passes c = true → ∀ w ∈ r.wrapped, w.Fenced c
  | .bounds d l r, ok, w, member => by
      simp only [Range.passes, Bool.and_eq_true] at ok
      simp only [Range.wrapped, List.mem_append, List.mem_map] at member
      rcases member with ⟨w, member, rfl⟩ | ⟨w, member, rfl⟩
      · exact (l.fenced ok.1 w member).within .nil (.spaced _ d.separates_text)
      · exact (r.fenced ok.2 w member).within (.joint _ d.separates_text) .nil
  | .attribute base i e, ok, w, member => by
      simp only [Range.passes, Bool.and_eq_true] at ok
      exact (Wrapped.sealed_of_attribute (base.sealed ok.1.1.1) (Expr.fencedOption e ok.2) w
        member).toFenced

theorem Expr.fenced : ∀ e : Expr, e.passes c = true → ∀ w ∈ e.wrapped, w.Fenced c
  | .binary op l r, ok, w, member => by
      simp only [Expr.passes, Bool.and_eq_true] at ok
      simp only [Expr.wrapped, List.mem_append, List.mem_map] at member
      rcases member with ⟨w, member, rfl⟩ | ⟨w, member, rfl⟩
      · exact (Wrapped.fenced_of_operand ok.1 (l.fenced ok.1) w member).within .nil
          (.spaced _ op.separates_token)
      · exact (Wrapped.fenced_of_operand ok.2 (r.fenced ok.2) w member).within
          (.joint _ op.separates_token) .nil
  | .unary op e, ok, w, member => by
      simp only [Expr.wrapped, List.mem_map] at member
      obtain ⟨w, member, rfl⟩ := member
      have inner : e.passes c = true := ok
      exact (Wrapped.fenced_of_operand inner (e.fenced inner) w member).within op.opens_pieces .nil
  | .literal _, _, _, member => by cases member
  | .name n, ok, w, member => (n.sealed ok w member).toFenced
  | .call n as, ok, w, member => by
      simp only [Expr.passes, Bool.and_eq_true] at ok
      simp only [Expr.wrapped, List.mem_append, List.mem_map] at member
      rcases member with ⟨w, member, rfl⟩ | ⟨w, member, rfl⟩
      -- No blank stands before the arguments: inside the name, something follows the operand.
      · exact ((n.sealed ok.1 w member).within _).toFenced
      · have fenced := Wrapped.fenced_of_items (Association.fencedAll as ok.2) w member
        exact (fenced.applied _).toFenced
  | .aggregate es, ok, w, member => by
      simp only [Expr.passes, Bool.and_eq_true] at ok
      simp only [Expr.wrapped, List.mem_map] at member
      obtain ⟨w, member, rfl⟩ := member
      exact (Wrapped.fenced_of_items (Element.fencedAll es ok.2) w member).inside.toFenced

theorem Choice.fenced : ∀ x : Choice, x.passes c = true → ∀ w ∈ x.wrapped, w.Fenced c
  | .expr e, ok, w, member => e.fenced ok w member
  | .others, _, _, member => by cases member

theorem Element.fenced : ∀ e : Element, e.passes c = true → ∀ w ∈ e.wrapped, w.Fenced c
  | .positional e, ok, w, member => e.fenced ok w member
  | .named x e, ok, w, member => by
      simp only [Element.passes, Bool.and_eq_true] at ok
      simp only [Element.wrapped, List.mem_append, List.mem_map] at member
      rcases member with ⟨w, member, rfl⟩ | ⟨w, member, rfl⟩
      · exact (x.fenced ok.1 w member).within .nil (.spaced (t := .symbol .arrow) _ rfl)
      · exact (e.fenced ok.2 w member).within (.joint (t := .symbol .arrow) _ rfl) .nil

theorem Actual.fenced : ∀ a : Actual, a.passes c = true → ∀ w ∈ a.wrapped, w.Fenced c
  | .name n, ok, w, member => (n.sealed ok w member).toFenced
  | .expr e, ok, w, member => e.fenced ok w member
  | .unconnected, _, _, member => by cases member

theorem Association.fenced : ∀ a : Association, a.passes c = true → ∀ w ∈ a.wrapped, w.Fenced c
  | .positional a, ok, w, member => a.fenced ok w member
  | .named i a, ok, w, member => by
      simp only [Association.passes, Bool.and_eq_true] at ok
      simp only [Association.wrapped, List.mem_map] at member
      obtain ⟨w, member, rfl⟩ := member
      exact (a.fenced ok.2 w member).within
        (.spaced (t := .symbol .arrow) [.ident i, .blank] rfl) .nil

theorem Expr.fencedOption : ∀ e : Option Expr, Expr.passesOption c e = true →
    ∀ w ∈ Expr.wrappedOption e, w.Fenced c
  | none, _, _, member => by cases member
  | some e, ok, w, member => e.fenced ok w member

theorem Expr.fencedAll : ∀ es : List Expr, Expr.passesAll c es = true →
    ∀ item ∈ Expr.wrappedAll es, ∀ w ∈ item.2, w.Fenced c
  | [], _ => by simp [Expr.wrappedAll]
  | e :: es, ok => by
      simp only [Expr.passesAll, Bool.and_eq_true] at ok
      rw [Expr.wrappedAll, List.forall_mem_cons]
      exact ⟨e.fenced ok.1, Expr.fencedAll es ok.2⟩

theorem Element.fencedAll : ∀ es : List Element, Element.passesAll c es = true →
    ∀ item ∈ Element.wrappedAll es, ∀ w ∈ item.2, w.Fenced c
  | [], _ => by simp [Element.wrappedAll]
  | e :: es, ok => by
      simp only [Element.passesAll, Bool.and_eq_true] at ok
      rw [Element.wrappedAll, List.forall_mem_cons]
      exact ⟨e.fenced ok.1, Element.fencedAll es ok.2⟩

theorem Association.fencedAll : ∀ as : List Association, Association.passesAll c as = true →
    ∀ item ∈ Association.wrappedAll as, ∀ w ∈ item.2, w.Fenced c
  | [], _ => by simp [Association.wrappedAll]
  | a :: as, ok => by
      simp only [Association.passesAll, Bool.and_eq_true] at ok
      rw [Association.wrappedAll, List.forall_mem_cons]
      exact ⟨a.fenced ok.1, Association.fencedAll as ok.2⟩

end

end Fences

end Vhdl93
