import Vhdl93.Proofs.Grammar.Forms
import Vhdl93.Proofs.Grammar.Wrapped

set_option autoImplicit false

/-!
Where one pair of parentheses around an operand is left out, the remaining text is not one of the
tree that was printed. What goes wrong is found at the operand itself: it is cut elsewhere, or it
binds too loosely for its place. Every text around it inherits that.
-/

namespace Vhdl93

open Grammar

namespace Grammar

variable {place : Level}

theorem left_wrapped {op : BinaryOp} {e : Expr} (parens : op.parenthesizesLeft e = true) :
    e.category.rank < (levelOf op).first.floor ∧
      ∀ inner l r, e = .binary inner l r → op.chainsWith inner = false := by
  -- A left operand in parentheses binds too loosely to come first, and does not chain.
  rcases operand_forms e with ⟨inner, l, r, rfl⟩ | ⟨operand, forms⟩
  · simp only [BinaryOp.parenthesizesLeft, precedence_levelOf, precedence_lt_iff, precedence_eq_iff,
      Bool.or_eq_true, decide_eq_true_eq, Bool.and_eq_true, Bool.not_eq_true'] at parens
    simp only [Expr.category, Category.rank, Expr.binary.injEq, and_imp]
    rcases parens with looser | ⟨same, apart⟩
    · refine ⟨Nat.lt_of_lt_of_le looser (rank_le_floor_first _), ?_⟩
      rintro _ _ _ rfl - -
      have tiers : op.tier ≠ inner.tier := by
        rw [tier_levelOf, tier_levelOf]
        intro equal
        have levels := (precedence_eq_iff _ _).mp (congrArg Tier.precedence equal)
        simp [levels] at looser
      simp [BinaryOp.chainsWith, tiers]
    · refine ⟨?_, by rintro _ _ _ rfl - -; exact apart⟩
      -- Adding operators always chain, so this is a level whose operands take no sign.
      have chain := mt (chainsWith_iff op inner same).mpr (by simp [apart])
      rw [same]
      cases level : levelOf op with
      | simple => simp [level] at chain
      | expression | relation | shift | term | factor => decide
  · refine ⟨?_, fun inner l r binary => absurd binary (operand inner l r)⟩
    rw [parenthesizesLeft_operand op operand] at parens
    rcases forms with ⟨-, leading⟩ | ⟨inner, leading, ⟨tier, category⟩ | ⟨tier, category⟩⟩
    · simp [leading] at parens
    all_goals
      simp only [leading, Option.any_some, UnaryOp.precedence, tier, precedence_levelOf,
        decide_eq_true_eq] at parens
      rw [category]
      revert parens
      cases levelOf op <;> decide

theorem right_wrapped {op : BinaryOp} {e : Expr} (parens : op.parenthesizesRight e = true) :
    e.category.rank < (levelOf op).operand.floor := by
  rw [floor_operand, Nat.lt_succ_iff]
  rcases operand_forms e with ⟨inner, l, r, rfl⟩ | ⟨operand, forms⟩
  · simp only [BinaryOp.parenthesizesRight, precedence_levelOf, decide_eq_true_eq] at parens
    rw [← Nat.not_lt, precedence_lt_iff, Nat.not_lt] at parens
    exact parens
  · rw [parenthesizesRight_operand op operand] at parens
    rcases forms with ⟨-, leading⟩ | ⟨inner, leading, ⟨tier, category⟩ | ⟨tier, category⟩⟩
    · simp [leading] at parens
    all_goals
      simp only [leading, Option.any_some, tier, precedence_levelOf, decide_eq_true_eq] at parens
      rw [category]
      revert parens
      cases levelOf op <;> decide

theorem unary_wrapped {op : UnaryOp} {e : Expr} (parens : op.parenthesizes e = true) :
    e.category.rank < (operandOf op).floor := by
  rcases operand_forms e with ⟨inner, l, r, rfl⟩ | ⟨operand, forms⟩
  · simp only [UnaryOp.parenthesizes, UnaryOp.precedence, precedence_levelOf, Bool.or_eq_true,
      decide_eq_true_eq] at parens
    simp only [Expr.category, Category.rank]
    revert parens
    cases op <;> cases levelOf inner <;> decide
  · rw [parenthesizes_operand op operand] at parens
    rcases forms with ⟨-, leading⟩ | ⟨inner, leading, ⟨tier, category⟩ | ⟨tier, category⟩⟩
    · simp [leading] at parens
    all_goals
      simp only [leading, Option.any_some, UnaryOp.precedence, tier, Bool.or_eq_true,
        decide_eq_true_eq] at parens
      rw [category]
      revert parens
      cases op <;> decide

theorem compound {e : Expr} (number : e.passes .numeric = true)
    (loose : e.category.rank < Category.primary.rank) :
    e.norm.rank = e.category.rank ∧ ∃ us vs token, e.pieces.tokens = us ++ token :: vs ∧
      Balanced us ∧ rise token = 0 := by
  cases e with
  | binary op l r =>
    simp only [Expr.passes, Bool.and_eq_true] at number
    have left := (l.yields number.1).operand (op.parenthesizesLeft l)
    exact ⟨rfl, _, (r.pieces.operand (op.parenthesizesRight r)).tokens, op.token,
      by simp [Expr.pieces], left.balanced, rise_binary op⟩
  | unary op e =>
    exact ⟨by cases op <;> rfl, [], (e.pieces.operand (op.parenthesizes e)).tokens, op.token,
      by simp [Expr.pieces], .nil, rise_unary op⟩
  | literal x =>
    cases x with
    | real x =>
      cases sign : x.negative with
      | false => simp [Expr.category, sign] at loose
      | true =>
        simp only [Expr.passes, Checks.ofLiterals_literal, Literal.isNumeric,
          Bool.not_eq_true'] at number
        refine ⟨by simp [Expr.norm, Expr.category, sign, Tree.rank, Category.rank], [],
          [.real x.magnitude], .symbol .minus, ?_, .nil, rfl⟩
        simp [Expr.pieces, Literal.pieces, sign, number]
    | integer | character | string | bitString | null => simp [Expr.category] at loose
  | name n | call n as | aggregate es => simp [Expr.category] at loose

theorem floor_le_category {e : Expr} {c : Category} (number : e.passes .numeric = true)
    (loose : e.category.rank < Category.primary.rank)
    (derivation : Derives place c e.pieces.tokens e.norm) : c.floor ≤ e.category.rank := by
  obtain ⟨rank, us, vs, token, text, front, flat⟩ := compound number loose
  rcases derivation.forms with ⟨ws, same, inner⟩ | ⟨bound, -⟩
  · rw [text] at same
    exact absurd same (front.ne_enclosed flat inner.yields.balanced)
  · exact rank ▸ bound

theorem binary_of_norm {e : Expr} {op : BinaryOp} {t u : Tree} (tree : e.norm = .binary op t u)
    (loose : e.category.rank < Category.primary.rank) : ∃ l r, e = .binary op l r := by
  cases e with
  | binary inner l r =>
    simp only [Expr.norm, Tree.binary.injEq] at tree
    exact ⟨l, r, by rw [tree.1]⟩
  | unary inner e => simp [Expr.norm] at tree
  | literal x =>
    cases x with
    | real x =>
      simp only [Expr.norm] at tree
      split at tree <;> cases tree
    | integer | character | string | bitString | null => simp [Expr.norm] at tree
  | name n | call n as | aggregate es => simp [Expr.category] at loose

theorem floor_le_primary (c : Category) : c.floor ≤ Category.primary.rank := by
  cases c with
  | level l => cases l <;> decide
  | lead | primary | name | choice | element | actual | argument | range => decide

theorem left_needed {op : BinaryOp} {e : Expr} (number : e.passes .numeric = true)
    (parens : op.parenthesizesLeft e = true) : ¬ Leads place op e.pieces.tokens e.norm := by
  obtain ⟨below, apart⟩ := left_wrapped parens
  have loose := Nat.lt_of_lt_of_le below (floor_le_primary _)
  rintro (first | ⟨-, inner, t, u, tree, chains⟩)
  · have bound := floor_le_category number loose first
    omega
  · obtain ⟨l, r, rfl⟩ := binary_of_norm tree loose
    simp [apart inner l r rfl] at chains

theorem operand_needed {c : Category} {e : Expr} (number : e.passes .numeric = true)
    (below : e.category.rank < c.floor) : ¬ Derives place c e.pieces.tokens e.norm := by
  intro derivation
  have loose := Nat.lt_of_lt_of_le below (floor_le_primary _)
  have bound := floor_le_category number loose derivation
  omega

end Grammar

/-- Leaving out the pair of parentheses turns pieces of a tree into a text that does not have it,
though what it contains and its outline stay. -/
structure Wrapped.Spoils (w : Wrapped) (ps : Pieces) (t : Tree) : Prop where
  whole : w.whole = ps
  yields : Yields w.bare.tokens t.content
  shaped : Shaped w.bare.tokens t
  unread : ∀ place, ¬ Reads place w.bare.tokens t

structure Wrapped.SpoilsItem (w : Wrapped) (ps : List Pieces) (ts : List Tree) : Prop where
  whole : w.whole = Pieces.commaSeparated ps
  items : ∃ items : List Phrase, w.bare.tokens = listed (items.map Prod.fst) ∧
    ts = items.map Prod.snd ∧ (∀ x ∈ items, Yields x.1 x.2.content) ∧
      ∃ x ∈ items, Shaped x.1 x.2 ∧ ∀ place, ¬ Reads place x.1 x.2

def Grammar.Tree.isPlain : Tree → Bool
  | .aggregate _ | .named .. => false
  | _ => true

theorem Grammar.Shaped.plain {ts : List Token} {t : Tree} (plain : t.isPlain = true) :
    Shaped ts t where
  aggregate := by
    rintro es rfl
    cases plain
  named := by
    rintro c v rfl
    cases plain

theorem Grammar.Shaped.item {us vs : List Token} {c v : Tree} (front : Balanced us) :
    Shaped (us ++ .symbol .arrow :: vs) (.named c v) where
  aggregate := by simp
  named _ _ _ := ⟨us, vs, rfl, front⟩

theorem Grammar.Yields.ne_nil {ts ys : List Token} (yields : Yields ts ys) (some : ys ≠ []) :
    ts ≠ [] := by
  rintro rfl
  exact some yields.content.symm

theorem Name.content_ne_nil : ∀ n : Name, n.norm.content ≠ []
  | .simple i => by simp [Name.norm, Tree.content]
  | .selected base suffix => by simp [Name.norm, Tree.content]
  | .indexed base es => by simp [Name.norm, base.content_ne_nil]
  | .slice base range => by simp [Name.norm, base.content_ne_nil]
  | .attribute base i none => by simp [Name.norm, Expr.normArgument, Tree.content]
  | .attribute base i (some e) => by simp [Name.norm, Expr.normArgument, Tree.content]

theorem Name.isValue_norm (n : Name) : n.norm.isValue = true := by
  match n with
  | .simple _ | .selected _ _ | .indexed _ _ | .slice _ _ | .attribute _ _ none
  | .attribute _ _ (some _) => simp [Name.norm, Expr.normArgument, Tree.isValue]

theorem Expr.isValue_norm : ∀ e : Expr, e.norm.isValue = true
  | .binary .. | .unary .. => rfl
  | .literal x => by
      cases x with
      | real x =>
        simp only [Expr.norm]
        split <;> rfl
      | integer | character | string | bitString | null => rfl
  | .name n | .call n [] => n.isValue_norm
  | .call _ (_ :: _) => rfl
  | .aggregate [.positional e] => e.isValue_norm
  | .aggregate [] | .aggregate [.named _ _] | .aggregate (_ :: _ :: _) => by
      simp [Expr.norm, Tree.isValue]

namespace Wrapped

variable {w : Wrapped} {ps qs : Pieces} {t u : Tree}

/-- What is spoiled stays so in a larger text, if that has a derivation only where it does. -/
theorem Spoils.within {front back : Pieces} (spoils : w.Spoils ps t)
    (old : Yields ps.tokens t.content) (parent : Yields qs.tokens u.content)
    (text : qs = front ++ ps ++ back)
    (part : ∀ place ts, Yields ts t.content →
      Reads place (front.tokens ++ ts ++ back.tokens) u → Reads place ts t)
    (shaped : Shaped (front.tokens ++ w.bare.tokens ++ back.tokens) u) :
    (w.within front back).Spoils qs u where
  whole := by rw [whole_within, spoils.whole, text]
  yields := by
    rw [text] at parent
    simp only [Pieces.tokens_append] at parent
    simpa using parent.replace old spoils.yields
  shaped := by simpa using shaped
  unread place := by
    intro reads
    rw [bare_within, Pieces.tokens_append, Pieces.tokens_append] at reads
    exact spoils.unread place (part place _ spoils.yields reads)

theorem spoils_alone {e : Expr} {front back : Pieces}
    (inner : Yields e.pieces.tokens e.norm.content) (parent : Yields qs.tokens u.content)
    (text : qs = front ++ e.pieces.parenthesized ++ back) (plain : u.isPlain = true)
    (needed : ∀ place, ¬ Reads place (front.tokens ++ e.pieces.tokens ++ back.tokens) u) :
    (within front back ⟨[], e, []⟩).Spoils qs u where
  whole := by simp [within, whole, text]
  yields := by
    rw [text] at parent
    simp only [Pieces.tokens_append, tokens_parenthesized] at parent
    simpa [within, bare] using parent.replace inner.enclosed inner
  shaped := .plain plain
  unread place := by simpa [within, bare] using needed place

theorem Spoils.inside (spoils : w.Spoils ps t) (value : t.isValue = true) :
    w.inside.Spoils ps.parenthesized t where
  whole := by rw [whole_inside, spoils.whole]
  yields := by simpa using spoils.yields.enclosed
  shaped := by
    refine ⟨fun es _ => ⟨w.bare.tokens, by simp, spoils.yields.balanced⟩, ?_⟩
    rintro c v rfl
    cases value
  unread place := by
    intro reads
    rw [bare_inside, tokens_parenthesized] at reads
    exact spoils.unread place (reads.strip spoils.yields spoils.shaped)

theorem Spoils.item (spoils : w.Spoils ps t) : w.SpoilsItem [ps] [t] where
  whole := spoils.whole
  items := by
    refine ⟨[(w.bare.tokens, t)], by simp [listed], rfl, ?_, _, List.mem_singleton_self _,
      spoils.shaped, spoils.unread⟩
    simpa using spoils.yields

theorem SpoilsItem.before {ps : List Pieces} {ts : List Tree} (spoils : w.SpoilsItem ps ts)
    (started : ps ≠ []) (first : Yields qs.tokens u.content) :
    (w.within (qs ++ [.symbol .comma, .blank]) []).SpoilsItem (qs :: ps) (u :: ts) where
  whole := by
    cases ps with
    | nil => exact absurd rfl started
    | cons p ps => simp [Pieces.commaSeparated, spoils.whole]
  items := by
    obtain ⟨items, text, trees, each, x, member, shaped, unread⟩ := spoils.items
    refine ⟨(qs.tokens, u) :: items, ?_, by simp [trees], by simpa [first] using each, x,
      List.mem_cons_of_mem _ member, shaped, unread⟩
    cases items with
    | nil => cases member
    | cons y items =>
      rw [List.map_cons, List.map_cons, listed_cons_cons, ← List.map_cons, ← text]
      simp

theorem Spoils.first {α : Type} {pieces : α → Pieces} {tree : α → Tree} {x y : α} {xs : List α}
    (spoils : w.Spoils (pieces x) (tree x))
    (later : ∀ z ∈ y :: xs, Yields (pieces z).tokens (tree z).content) :
    let rest := Pieces.commaSeparated ((y :: xs).map pieces)
    (w.within [] (.symbol .comma :: .blank :: rest)).SpoilsItem
      ((x :: y :: xs).map pieces) ((x :: y :: xs).map tree) where
  whole := by simp [Pieces.commaSeparated, spoils.whole]
  items := by
    refine ⟨(w.bare.tokens, tree x) :: (y :: xs).map fun z => ((pieces z).tokens, tree z), ?_,
      by simp, ?_, _, List.mem_cons_self, spoils.shaped, spoils.unread⟩
    · simp [listed, Function.comp_def]
    · rw [List.forall_mem_cons, List.forall_mem_map]
      exact ⟨spoils.yields, later⟩

theorem spoils_of_items {α : Type} {pieces : α → Pieces} {tree : α → Tree}
    {wrapped : α → List Wrapped} : ∀ {xs : List α},
      (∀ x ∈ xs, Yields (pieces x).tokens (tree x).content) →
      (∀ x ∈ xs, ∀ w ∈ wrapped x, w.Spoils (pieces x) (tree x)) →
      ∀ w ∈ ofItems (xs.map fun x => (pieces x, wrapped x)),
        w.SpoilsItem (xs.map pieces) (xs.map tree)
  | [], _, _, w, member => by cases member
  | [x], _, each, w, member => (each x List.mem_cons_self w member).item
  | x :: y :: xs, yields, each, w, member => by
      simp only [List.map_cons, ofItems, List.mem_append, List.mem_map] at member
      rw [List.forall_mem_cons] at yields each
      rcases member with ⟨w, member, rfl⟩ | ⟨w, member, rfl⟩
      · simpa [Function.comp_def] using (each.1 w member).first yields.2
      · exact (spoils_of_items yields.2 each.2 w member).before (by simp) yields.1

theorem SpoilsItem.single (spoils : w.SpoilsItem [ps] [t]) : w.Spoils ps t := by
  obtain ⟨items, text, trees, each, x, member, shaped, unread⟩ := spoils.items
  obtain ⟨y, rfl, rfl⟩ := List.map_eq_singleton_iff.mp trees.symm
  obtain rfl := List.mem_singleton.mp member
  have bare : w.bare.tokens = x.1 := by simpa [listed] using text
  exact ⟨spoils.whole, bare ▸ each x member, bare ▸ shaped, bare ▸ unread⟩

theorem SpoilsItem.applied {ps : List Pieces} {ts : List Tree} (spoils : w.SpoilsItem ps ts)
    (base : Yields qs.tokens u.content) (started : u.content ≠ []) :
    (w.inside.within qs []).Spoils (qs ++ (Pieces.commaSeparated ps).parenthesized)
      (.applied u ts) where
  whole := by simp [spoils.whole]
  yields := by
    obtain ⟨items, text, rfl, each, -⟩ := spoils.items
    simpa [text] using base.append (Yields.listed each).enclosed
  shaped := .plain rfl
  unread place := by
    intro reads
    obtain ⟨items, text, rfl, each, x, member, -, unread⟩ := spoils.items
    have parts := Reads.applied (base.ne_nil started) each (by simpa [text] using reads)
    exact unread place (parts.2 x member)

theorem Spoils.applying {α : Type} (spoils : w.Spoils ps t) (pieces : α → Pieces) (tree : α → Tree)
    (xs : List α) (started : t.content ≠ [])
    (each : ∀ x ∈ xs, Yields (pieces x).tokens (tree x).content) :
    (w.within [] (Pieces.commaSeparated (xs.map pieces)).parenthesized).Spoils
      (ps ++ (Pieces.commaSeparated (xs.map pieces)).parenthesized) (.applied t (xs.map tree)) where
  whole := by simp [spoils.whole]
  yields := by simpa [Function.comp_def] using spoils.yields.applied each
  shaped := .plain rfl
  unread place := by
    intro reads
    have parts := @Reads.applied place w.bare.tokens t
      (xs.map fun x => ((pieces x).tokens, tree x)) (spoils.yields.ne_nil started)
      (by simpa using each) (by simpa [Function.comp_def] using reads)
    exact spoils.unread place parts.1

theorem SpoilsItem.aggregate {es : List Element}
    (spoils : w.SpoilsItem (es.map Element.pieces) (es.map Element.norm)) :
    w.inside.Spoils (Expr.aggregate es).pieces (Expr.aggregate es).norm := by
  simp only [Expr.pieces, Element.piecesAll_eq_map]
  rcases Expr.norm_aggregate es with ⟨several, tree⟩ | ⟨e, rfl, tree⟩
  · rw [tree]
    obtain ⟨items, text, trees, each, x, member, shaped, unread⟩ := spoils.items
    rw [trees]
    refine ⟨by simp [spoils.whole], ?_, ⟨fun _ _ => ⟨listed (items.map Prod.fst), by simp [text],
      listed_balanced each⟩, by simp⟩, ?_⟩
    · simpa [text] using (Yields.listed each).enclosed
    · intro place reads
      refine unread place (Reads.aggregate each ?_ (by simpa [text] using reads) x member)
      -- A single item has a choice, so it shows an arrow.
      rintro y rfl
      obtain rfl := List.mem_singleton.mp member
      obtain ⟨e, rfl, same⟩ := List.map_eq_singleton_iff.mp trees
      cases e with
      | positional e => exact absurd rfl (several e)
      | named c e => exact shaped.named c.norm e.norm same.symm
  · rw [tree]
    exact spoils.single.inside e.isValue_norm

theorem spoils_of_operand {parens : Bool} {e : Expr} {front back : Pieces}
    (each : ∀ w ∈ e.wrapped, w.Spoils e.pieces e.norm)
    (inner : Yields e.pieces.tokens e.norm.content) (parent : Yields qs.tokens u.content)
    (text : qs = front ++ e.pieces.operand parens ++ back) (plain : u.isPlain = true)
    (part : ∀ place ts, Yields ts e.norm.content →
      Reads place (front.tokens ++ ts ++ back.tokens) u → Reads place ts e.norm)
    (needed : parens = true →
      ∀ place, ¬ Reads place (front.tokens ++ e.pieces.tokens ++ back.tokens) u) :
    ∀ w ∈ ofOperand parens e e.wrapped, (w.within front back).Spoils qs u := by
  intro w member
  cases parens with
  | false => exact (each w member).within inner parent text part (.plain plain)
  | true =>
    simp only [ofOperand, if_true, List.mem_cons, List.mem_map] at member
    rcases member with rfl | ⟨w, member, rfl⟩
    · exact spoils_alone inner parent text plain (needed rfl)
    · exact ((each w member).inside e.isValue_norm).within (inner.operand true) parent text part
        (.plain plain)

theorem within_within (front back front' back' : Pieces) (w : Wrapped) :
    (w.within front back).within front' back' = w.within (front' ++ front) (back ++ back') := by
  simp [within]

theorem spoils_of_attribute {base : Name} {i : Ident} {e : Option Expr}
    (stem : Yields base.pieces.tokens base.norm.content)
    (inner : ∀ x ∈ e, Yields x.pieces.tokens x.norm.content)
    (stems : ∀ w ∈ base.wrapped, w.Spoils base.pieces base.norm)
    (inners : ∀ x ∈ e, ∀ w ∈ x.wrapped, w.Spoils x.pieces x.norm) :
    ∀ w ∈ base.wrapped.map (within [] (.symbol .tick :: .ident i :: Expr.argumentPieces e)) ++
        (Expr.wrappedOption e).map (fun w =>
          w.inside.within (base.pieces ++ [.symbol .tick, .ident i]) []),
      w.Spoils (base.pieces ++ .symbol .tick :: .ident i :: Expr.argumentPieces e)
        (Expr.normArgument (.attribute base.norm i) e) := by
  intro w member
  rw [List.mem_append, List.mem_map, List.mem_map] at member
  have ticked : Yields (base.pieces ++ [Piece.symbol .tick, .ident i]).tokens
      (Tree.attribute base.norm i).content := by
    simpa [Tree.content] using stem.join (t := .symbol .tick) rfl (.token (rise_ident i))
  have started : (Tree.attribute base.norm i).content ≠ [] := by simp [Tree.content]
  rcases member with ⟨w, member, rfl⟩ | ⟨w, member, rfl⟩
  · have spoils : (w.within [] [.symbol .tick, .ident i]).Spoils
        (base.pieces ++ [.symbol .tick, .ident i]) (.attribute base.norm i) :=
      (stems w member).within stem ticked rfl
        (fun place ts yields reads => Reads.attribute yields (by simpa using reads)) (.plain rfl)
    cases e with
    | none => exact spoils
    | some e =>
      have applied := spoils.applying Expr.pieces Expr.norm [e] started (by simpa using inner e rfl)
      simpa [within_within, Pieces.commaSeparated, Expr.argumentPieces, Expr.normArgument]
        using applied
  · cases e with
    | none => cases member
    | some e =>
      have applied := (inners e rfl w member).item.applied ticked started
      simpa [Pieces.commaSeparated, Expr.argumentPieces, Expr.normArgument] using applied

end Wrapped

mutual

theorem Name.spoils : ∀ n : Name, n.passes .numeric = true →
    ∀ w ∈ n.wrapped, w.Spoils n.pieces n.norm
  | .simple _, _, _, member => by cases member
  | .selected base suffix, ok, w, member => by
      simp only [Name.wrapped, List.mem_map] at member
      obtain ⟨w, member, rfl⟩ := member
      have parts := ok
      simp only [Name.passes, Bool.and_eq_true] at parts
      exact (base.spoils parts.1 w member).within (base.yields parts.1) (Name.yields _ ok)
        (by simp [Name.pieces])
        (fun place ts yields reads => Reads.selected yields (by simpa [Name.norm] using reads))
        (.plain rfl)
  | .indexed base es, ok, w, member => by
      simp only [Name.passes, Bool.and_eq_true] at ok
      simp only [Name.wrapped, Expr.wrappedAll_eq_map, List.mem_append, List.mem_map] at member
      have items := Expr.yieldsAll es ok.2
      simp only [Name.pieces, Name.norm, Expr.piecesAll_eq_map, Expr.normAll_eq_map] at member ⊢
      rcases member with ⟨w, member, rfl⟩ | ⟨w, member, rfl⟩
      · exact (base.spoils ok.1.1 w member).applying _ _ es base.content_ne_nil items
      · exact (Wrapped.spoils_of_items items (Expr.spoilsAll es ok.2) w member).applied
          (base.yields ok.1.1) base.content_ne_nil
  | .slice base range, ok, w, member => by
      simp only [Name.passes, Bool.and_eq_true] at ok
      simp only [Name.wrapped, List.mem_append, List.mem_map] at member
      simp only [Name.pieces, Name.norm]
      rcases member with ⟨w, member, rfl⟩ | ⟨w, member, rfl⟩
      · exact (base.spoils ok.1 w member).applying Range.pieces Range.norm [range]
          base.content_ne_nil (by simpa using range.yields ok.2)
      · exact (range.spoils ok.2 w member).item.applied (base.yields ok.1) base.content_ne_nil
  | .attribute base i e, ok, w, member => by
      simp only [Name.passes, Bool.and_eq_true] at ok
      exact Wrapped.spoils_of_attribute (base.yields ok.1.1.1) (Expr.yieldsOption e ok.2)
        (base.spoils ok.1.1.1) (Expr.spoilsOption e ok.2) w member

theorem Range.spoils : ∀ r : Range, r.passes .numeric = true →
    ∀ w ∈ r.wrapped, w.Spoils r.pieces r.norm
  | .bounds d l r, ok, w, member => by
      have parts := ok
      simp only [Range.passes, Bool.and_eq_true] at parts
      simp only [Range.wrapped, List.mem_append, List.mem_map] at member
      rcases member with ⟨w, member, rfl⟩ | ⟨w, member, rfl⟩
      · exact (l.spoils parts.1 w member).within (l.yields parts.1) (Range.yields _ ok)
          (by simp [Range.pieces])
          (fun place ts yields reads =>
            (Reads.bounds yields (by simpa [Range.norm] using reads)).1) (.plain rfl)
      · exact (r.spoils parts.2 w member).within (r.yields parts.2) (Range.yields _ ok)
          (by simp [Range.pieces])
          (fun place ts _ reads =>
            (Reads.bounds (l.yields parts.1) (by simpa [Range.norm] using reads)).2) (.plain rfl)
  | .attribute base i e, ok, w, member => by
      simp only [Range.passes, Bool.and_eq_true] at ok
      exact Wrapped.spoils_of_attribute (base.yields ok.1.1.1) (Expr.yieldsOption e ok.2)
        (base.spoils ok.1.1.1) (Expr.spoilsOption e ok.2) w member

/-- Each pair of parentheses around an operand, at any depth, spoils the text if it is left out. -/
theorem Expr.spoils : ∀ e : Expr, e.passes .numeric = true →
    ∀ w ∈ e.wrapped, w.Spoils e.pieces e.norm
  | .binary op l r, ok, w, member => by
      have parts := ok
      simp only [Expr.passes, Bool.and_eq_true] at parts
      simp only [Expr.wrapped, List.mem_append, List.mem_map] at member
      have left := l.yields parts.1
      have right := r.yields parts.2
      have bracketed := left.operand (op.parenthesizesLeft l)
      have whole := Expr.yields _ ok
      rcases member with ⟨w, member, rfl⟩ | ⟨w, member, rfl⟩
      · exact Wrapped.spoils_of_operand (l.spoils parts.1) left whole (by simp [Expr.pieces]) rfl
          (fun place ts yields reads =>
            (Reads.binary yields (by simpa [Expr.norm] using reads)).1.reads)
          (fun parens place reads => left_needed parts.1 parens
            (Reads.binary left (by simpa [Expr.norm] using reads)).1) w member
      · exact Wrapped.spoils_of_operand (r.spoils parts.2) right whole (by simp [Expr.pieces]) rfl
          (fun place ts _ reads =>
            ⟨_, (Reads.binary bracketed (by simpa [Expr.norm] using reads)).2⟩)
          (fun parens place reads => operand_needed parts.2 (right_wrapped parens)
            (Reads.binary bracketed (by simpa [Expr.norm] using reads)).2) w member
  | .unary op e, ok, w, member => by
      simp only [Expr.wrapped, List.mem_map] at member
      obtain ⟨w, member, rfl⟩ := member
      have inner : e.passes .numeric = true := ok
      exact Wrapped.spoils_of_operand (e.spoils inner) (e.yields inner)
        (Expr.yields (.unary op e) ok) (by simp [Expr.pieces]) rfl
        (fun place ts _ reads => ⟨_, Reads.unary (by simpa [Expr.norm] using reads)⟩)
        (fun parens place reads => operand_needed inner (unary_wrapped parens)
          (Reads.unary (by simpa [Expr.norm] using reads))) w member
  | .literal _, _, _, member => by cases member
  | .name n, ok, w, member => n.spoils ok w member
  | .call n [], ok, w, member => by
      simp only [Expr.passes, Bool.and_eq_true] at ok
      simp only [Expr.wrapped, Association.wrappedAll, Wrapped.ofItems, List.map_nil,
        List.append_nil, List.mem_map] at member
      obtain ⟨w, member, rfl⟩ := member
      have spoils := n.spoils ok.1 w member
      simpa [Expr.pieces, Expr.norm, Pieces.arguments, Wrapped.within] using spoils
  | .call n (a :: as), ok, w, member => by
      simp only [Expr.passes, Bool.and_eq_true] at ok
      have items := Association.yieldsAll (a :: as) ok.2
      rw [Expr.norm_call n _ (by simp)]
      simp only [Expr.wrapped, Expr.pieces, Association.wrappedAll_eq_map,
        Association.piecesAll_eq_map, Pieces.arguments, List.map_cons, List.isEmpty_cons,
        Bool.false_eq_true, if_false, List.mem_append, List.mem_map] at member ⊢
      rcases member with ⟨w, member, rfl⟩ | ⟨w, member, rfl⟩
      · exact (n.spoils ok.1 w member).applying _ _ (a :: as) n.content_ne_nil items
      · have spoils := Wrapped.spoils_of_items items (Association.spoilsAll (a :: as) ok.2) w member
        exact spoils.applied (n.yields ok.1) n.content_ne_nil
  | .aggregate es, ok, w, member => by
      simp only [Expr.passes, Bool.and_eq_true] at ok
      simp only [Expr.wrapped, Element.wrappedAll_eq_map, List.mem_map] at member
      obtain ⟨w, member, rfl⟩ := member
      exact (Wrapped.spoils_of_items (Element.yieldsAll es ok.2) (Element.spoilsAll es ok.2) w
        member).aggregate

theorem Choice.spoils : ∀ c : Choice, c.passes .numeric = true →
    ∀ w ∈ c.wrapped, w.Spoils c.pieces c.norm
  | .expr e, ok, w, member => e.spoils ok w member
  | .others, _, _, member => by cases member

theorem Element.spoils : ∀ e : Element, e.passes .numeric = true →
    ∀ w ∈ e.wrapped, w.Spoils e.pieces e.norm
  | .positional e, ok, w, member => e.spoils ok w member
  | .named c e, ok, w, member => by
      have parts := ok
      simp only [Element.passes, Bool.and_eq_true] at parts
      simp only [Element.wrapped, List.mem_append, List.mem_map] at member
      rcases member with ⟨w, member, rfl⟩ | ⟨w, member, rfl⟩
      · have spoils := c.spoils parts.1 w member
        exact spoils.within (c.yields parts.1) (Element.yields _ ok) (by simp [Element.pieces])
          (fun place ts yields reads =>
            (Reads.named yields (by simpa [Element.norm] using reads)).1)
          (by simpa [Element.norm] using Shaped.item spoils.yields.balanced)
      · exact (e.spoils parts.2 w member).within (e.yields parts.2) (Element.yields _ ok)
          (by simp [Element.pieces])
          (fun place ts _ reads =>
            (Reads.named (c.yields parts.1) (by simpa [Element.norm] using reads)).2)
          (by simpa [Element.norm] using Shaped.item (c.yields parts.1).balanced)

theorem Actual.spoils : ∀ a : Actual, a.passes .numeric = true →
    ∀ w ∈ a.wrapped, w.Spoils a.pieces a.norm
  | .name n, ok, w, member => n.spoils ok w member
  | .expr e, ok, w, member => e.spoils ok w member
  | .unconnected, _, _, member => by cases member

theorem Association.spoils : ∀ a : Association, a.passes .numeric = true →
    ∀ w ∈ a.wrapped, w.Spoils a.pieces a.norm
  | .positional a, ok, w, member => a.spoils ok w member
  | .named i a, ok, w, member => by
      have parts := ok
      simp only [Association.passes, Bool.and_eq_true] at parts
      simp only [Association.wrapped, List.mem_map] at member
      obtain ⟨w, member, rfl⟩ := member
      have formal : Yields [.ident i] (Tree.ident i).content := .token (rise_ident i)
      exact (a.spoils parts.2 w member).within (a.yields parts.2) (Association.yields _ ok)
        (by simp [Association.pieces])
        (fun place ts _ reads =>
          (Reads.named formal (by simpa [Association.norm] using reads)).2)
        (by simpa [Association.norm] using Shaped.item formal.balanced)

theorem Expr.spoilsOption : ∀ e : Option Expr, Expr.passesOption .numeric e = true →
    ∀ x ∈ e, ∀ w ∈ x.wrapped, w.Spoils x.pieces x.norm
  | none, _ => by simp
  | some e, ok => by simpa using e.spoils ok

theorem Expr.spoilsAll : ∀ es : List Expr, Expr.passesAll .numeric es = true →
    ∀ e ∈ es, ∀ w ∈ e.wrapped, w.Spoils e.pieces e.norm
  | [], _ => by simp
  | e :: es, ok => by
      simp only [Expr.passesAll, Bool.and_eq_true] at ok
      rw [List.forall_mem_cons]
      exact ⟨e.spoils ok.1, Expr.spoilsAll es ok.2⟩

theorem Element.spoilsAll : ∀ es : List Element, Element.passesAll .numeric es = true →
    ∀ e ∈ es, ∀ w ∈ e.wrapped, w.Spoils e.pieces e.norm
  | [], _ => by simp
  | e :: es, ok => by
      simp only [Element.passesAll, Bool.and_eq_true] at ok
      rw [List.forall_mem_cons]
      exact ⟨e.spoils ok.1, Element.spoilsAll es ok.2⟩

theorem Association.spoilsAll : ∀ as : List Association,
    Association.passesAll .numeric as = true →
      ∀ a ∈ as, ∀ w ∈ a.wrapped, w.Spoils a.pieces a.norm
  | [], _ => by simp
  | a :: as, ok => by
      simp only [Association.passesAll, Bool.and_eq_true] at ok
      rw [List.forall_mem_cons]
      exact ⟨a.spoils ok.1, Association.spoilsAll as ok.2⟩

end

end Vhdl93
