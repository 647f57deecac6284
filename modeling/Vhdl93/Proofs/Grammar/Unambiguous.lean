import Mathlib.Data.List.Basic
import Vhdl93.Proofs.Grammar.Derivation

set_option autoImplicit false

/-!
No sequence of tokens has two trees. A phrase is compared with another phrase at the front of the
same tokens: where neither can go on with the token behind it, the two end at the same place. The
comparison goes by the number of tokens, and at one number from the primaries up to the expressions.
-/

namespace Vhdl93.Grammar

variable {place : Level}

/-- The tokens with which a phrase that is complete may still go on. -/
def Category.Continues (c : Category) (token : Token) : Prop :=
  token = .symbol .dot ∨ token = .symbol .tick ∨ token = .symbol .leftParen ∨
    ∃ op : BinaryOp, op.token = token ∧ c.rank ≤ (levelOf op).rank

def Category.Stops (c : Category) (rest : List Token) : Prop :=
  ∀ token ∈ rest.head?, ¬ c.Continues token

theorem Category.Stops.mono {c d : Category} {rest : List Token} (ranks : c.rank ≤ d.rank)
    (stops : c.Stops rest) : d.Stops rest := by
  intro token member continues
  apply stops token member
  rcases continues with dot | tick | paren | ⟨op, same, bound⟩
  · exact .inl dot
  · exact .inr (.inl tick)
  · exact .inr (.inr (.inl paren))
  · exact .inr (.inr (.inr ⟨op, same, Nat.le_trans ranks bound⟩))

theorem rank_operand (l : Level) : l.operand.rank = l.rank + 1 := by
  cases l <;> rfl

theorem rank_first (l : Level) : l.first.rank = l.rank + 1 := by
  cases l <;> rfl

theorem operator_stops {l : Level} {op : BinaryOp} {rest : List Token} {c : Category}
    (level : levelOf op = l) (rank : c.rank = l.rank + 1) : c.Stops (op.token :: rest) := by
  intro token member
  obtain rfl : op.token = token := by simpa using member
  rintro (dot | tick | paren | ⟨other, same, bound⟩)
  · cases op <;> cases dot
  · cases op <;> cases tick
  · cases op <;> cases paren
  · obtain rfl := token_inj same
    rw [rank, level] at bound
    omega

theorem separator_stops (c : Category) {token : Token} (rest : List Token)
    (separator : token ∈ [Token.symbol .comma, .symbol .rightParen, .symbol .arrow,
      .keyword "to", .keyword "downto"]) : c.Stops (token :: rest) := by
  -- Separators inside parentheses continue no phrase.
  intro other member
  obtain rfl : token = other := by simpa using member
  have unread : operator? token = none := by
    simp only [List.mem_cons, List.not_mem_nil, or_false] at separator
    rcases separator with rfl | rfl | rfl | rfl | rfl <;> rfl
  rintro (rfl | rfl | rfl | ⟨op, rfl, -⟩)
  · simp at separator
  · simp at separator
  · simp at separator
  · simp at unread

def UniqueBelow (place : Level) (bound : Nat) (c : Category) : Prop :=
  ∀ ⦃ts us rest rest' : List Token⦄ ⦃t u : Tree⦄, ts.length + rest.length < bound →
    Derives place c ts t → Derives place c us u → ts ++ rest = us ++ rest' →
    c.Stops rest → c.Stops rest' → ts = us ∧ t = u

def startsPrimary (token : Token) : Prop :=
  token = .symbol .leftParen ∨ (∃ i, token = .ident i) ∨ ∃ x, literal? token = some x

def Category.Starts : Category → Token → Prop
  | .name, token => ∃ i, token = .ident i
  | .primary, token => startsPrimary token
  | .level .factor, token | .level .term, token =>
      startsPrimary token ∨ token = UnaryOp.abs.token ∨ token = UnaryOp.not.token
  | .level _, token | .lead, token =>
      startsPrimary token ∨ ∃ op : UnaryOp, token = op.token
  | _, _ => True

theorem starts_of_first {l : Level} {token : Token} (starts : l.first.Starts token) :
    (Category.level l).Starts token := by
  cases l with
  | expression | relation | simple => exact starts
  | shift => exact starts
  | term => exact starts
  | factor => exact .inl starts

theorem starts_lead_of_term {token : Token} (starts : (Category.level .term).Starts token) :
    Category.lead.Starts token := by
  rcases starts with primary | abs | not
  · exact .inl primary
  · exact .inr ⟨.abs, abs⟩
  · exact .inr ⟨.not, not⟩

theorem Derives.starts {c : Category} {ts : List Token} {t : Tree}
    (derivation : Derives place c ts t) : ∃ token rest, ts = token :: rest ∧ c.Starts token := by
  induction derivation with
  | operation terminals head operators operands joins ih =>
    obtain ⟨token, rest, same, starts⟩ := ih
    exact ⟨token, _, by rw [same, List.cons_append], starts_of_first starts⟩
  | unsigned term ih =>
    obtain ⟨token, rest, same, starts⟩ := ih
    exact ⟨token, rest, same, starts_lead_of_term starts⟩
  | @signed token op ts t terminal sign term =>
    exact ⟨_, _, rfl, .inr ⟨op, unary?_eq_some_iff.1 terminal⟩⟩
  | prefixed terminal word operand =>
    obtain rfl := unary?_eq_some_iff.1 terminal
    refine ⟨_, _, rfl, .inr ?_⟩
    rcases word with rfl | rfl
    · exact .inl rfl
    · exact .inr rfl
  | literal value => exact ⟨_, _, rfl, .inr (.inr ⟨_, value⟩)⟩
  | nameOrCall name ih =>
    obtain ⟨token, rest, same, starts⟩ := ih
    exact ⟨token, rest, same, .inr (.inl starts)⟩
  | parenthesized inner => exact ⟨_, _, rfl, .inl rfl⟩
  | aggregate nonempty elements distinct => exact ⟨_, _, rfl, .inl rfl⟩
  | simpleName i => exact ⟨_, _, rfl, i, rfl⟩
  | selected base i ih | selectedAll base ih | attributed base i ih | applied base _ _ ih
  | slice base _ ih =>
    obtain ⟨token, rest, same, starts⟩ := ih
    exact ⟨token, _, by rw [same, List.cons_append], starts⟩
  | bounds terminal left right ih =>
    obtain ⟨token, rest, same, -⟩ := ih
    exact ⟨token, _, by rw [same, List.cons_append], trivial⟩
  | named choice value ih =>
    obtain ⟨token, rest, same, -⟩ := ih
    exact ⟨token, _, by rw [same, List.cons_append], trivial⟩
  | chosen value ih | positional value ih | given value ih | actual value ih =>
    obtain ⟨token, rest, same, -⟩ := ih
    exact ⟨token, rest, same, trivial⟩
  | others | unconnected => exact ⟨_, _, rfl, trivial⟩
  | formal i value => exact ⟨_, _, rfl, trivial⟩

def Tree.isValue : Tree → Bool
  | .bounds .. | .named .. | .others | .unconnected => false
  | _ => true

theorem isValue_fold (first : Tree) (rest : List (BinaryOp × Phrase))
    (value : first.isValue = true) : (fold first rest).isValue = true := by
  induction rest generalizing first with
  | nil => exact value
  | cons x rest ih => exact ih (.binary x.1 first x.2.2) rfl

def Category.ofValues : Category → Bool
  | .level _ | .lead | .primary | .name => true
  | _ => false

theorem ofValues_first (l : Level) : l.first.ofValues = true := by
  cases l <;> rfl

theorem Derives.isValue {c : Category} {ts : List Token} {t : Tree}
    (derivation : Derives place c ts t) (values : c.ofValues = true) : t.isValue = true := by
  induction derivation with
  | operation terminals head operators operands joins ih =>
    exact isValue_fold _ _ (ih (ofValues_first _))
  | unsigned term ih | nameOrCall term ih | parenthesized term ih => exact ih rfl
  | signed | prefixed | literal | aggregate | simpleName | selected | selectedAll | attributed
  | applied | slice => rfl
  | bounds | chosen | others | positional | named | given | unconnected | actual | formal =>
    simp [Category.ofValues] at values

inductive Side (place : Level) : List Token → Tree → Prop where
  | value {ts : List Token} {t : Tree} (value : Derives place (.level .expression) ts t) :
      Side place ts t
  | word {word : String} {t : Tree} (words : (word, t) ∈ [("others", Tree.others),
    ("open", .unconnected)]) :
      Side place [.keyword word] t

def dividers : List (Token × (Tree → Tree → Tree)) :=
  [(.symbol .arrow, .named), (.keyword "to", .bounds .ascending),
    (.keyword "downto", .bounds .descending)]

inductive Item (place : Level) : List Token → Tree → Prop where
  | plain {ts : List Token} {t : Tree} (side : Side place ts t) : Item place ts t
  | divided {ts us : List Token} {t u : Tree} {d : Token × (Tree → Tree → Tree)}
      (divider : d ∈ dividers) (left : Side place ts t) (right : Side place us u) :
      Item place (ts ++ d.1 :: us) (d.2 t u)

theorem side_of_choice {ts : List Token} {t : Tree} (derivation : Derives place .choice ts t) :
    Side place ts t := by
  cases derivation with
  | chosen value => exact .value (value.widen (Nat.zero_le _))
  | others => exact .word (by simp)

theorem side_of_actual {ts : List Token} {t : Tree} (derivation : Derives place .actual ts t) :
    Side place ts t := by
  cases derivation with
  | given value => exact .value value
  | unconnected => exact .word (by simp)

theorem item_of_element {ts : List Token} {t : Tree} (derivation : Derives place .element ts t) :
    Item place ts t := by
  cases derivation with
  | positional value => exact .plain (.value value)
  | named choice value =>
    exact .divided (d := (.symbol .arrow, .named)) (by simp [dividers]) (side_of_choice choice)
      (.value value)

theorem item_of_argument {ts : List Token} {t : Tree} (derivation : Derives place .argument ts t) :
    Item place ts t := by
  cases derivation with
  | actual value => exact .plain (side_of_actual value)
  | formal i value =>
    have name : Side place [.ident i] (.ident i) :=
      .value ((Derives.nameOrCall (.simpleName i)).ofPrimary _)
    exact .divided (d := (.symbol .arrow, .named)) (by simp [dividers]) name (side_of_actual value)

theorem item_of_range {ts : List Token} {t : Tree} (derivation : Derives place .range ts t) :
    Item place ts t := by
  cases derivation with
  | @bounds token d _ _ _ _ terminal left right =>
    obtain rfl := direction?_eq_some_iff.1 terminal
    have leftSide := Side.value (left.widen (m := .expression) (Nat.zero_le _))
    have rightSide := Side.value (right.widen (m := .expression) (Nat.zero_le _))
    cases d with
    | ascending =>
      exact .divided (d := (.keyword "to", .bounds .ascending)) (by simp [dividers])
        leftSide rightSide
    | descending =>
      exact .divided (d := (.keyword "downto", .bounds .descending)) (by simp [dividers]) leftSide
        rightSide

theorem divider_inj {d e : Token × (Tree → Tree → Tree)} (left : d ∈ dividers)
    (right : e ∈ dividers) (same : d.1 = e.1) : d = e := by
  simp only [dividers, List.mem_cons, List.not_mem_nil, or_false] at left right
  rcases left with rfl | rfl | rfl <;> rcases right with rfl | rfl | rfl <;> simp_all

def closers : List Token := [.symbol .comma, .symbol .rightParen]

theorem divider_not_closer {d : Token × (Tree → Tree → Tree)} (divider : d ∈ dividers) :
    d.1 ∉ closers := by
  simp only [dividers, List.mem_cons, List.not_mem_nil, or_false] at divider
  rcases divider with rfl | rfl | rfl <;> simp [closers]

theorem divider_stops (c : Category) {d : Token × (Tree → Tree → Tree)} (divider : d ∈ dividers)
    (rest : List Token) : c.Stops (d.1 :: rest) := by
  apply separator_stops
  simp only [dividers, List.mem_cons, List.not_mem_nil, or_false] at divider
  rcases divider with rfl | rfl | rfl <;> simp

def EndsItem (rest : List Token) : Prop := ∃ closer tail, closer ∈ closers ∧ rest = closer :: tail

theorem EndsItem.stops {rest : List Token} (ends : EndsItem rest) (c : Category) :
    c.Stops rest := by
  obtain ⟨closer, tail, closes, rfl⟩ := ends
  apply separator_stops
  simp only [closers, List.mem_cons, List.not_mem_nil, or_false] at closes
  rcases closes with rfl | rfl <;> simp

theorem EndsItem.not_divider {rest tail : List Token} {d : Token × (Tree → Tree → Tree)}
    (ends : EndsItem rest) (divider : d ∈ dividers) (same : rest = d.1 :: tail) : False := by
  obtain ⟨closer, _, closes, rfl⟩ := ends
  obtain ⟨rfl, -⟩ := List.cons.inj same
  exact divider_not_closer divider closes

theorem listed_map_cons (x : Phrase) (xs : List Phrase) :
    listed ((x :: xs).map Prod.fst) =
      x.1 ++ joined (fun _ => .symbol .comma) (xs.map (Prod.mk ())) := by
  simp [listed, joined, List.flatMap_map]

theorem word_not_value {word : String} {t : Tree} {us rest rest' : List Token} {u : Tree}
    (words : (word, t) ∈ [("others", Tree.others), ("open", .unconnected)])
    (value : Derives place (.level .expression) us u)
    (same : [Token.keyword word] ++ rest = us ++ rest') : False := by
  obtain ⟨token, tail, rfl, starts⟩ := value.starts
  simp only [List.cons_append, List.nil_append, List.cons.injEq] at same
  obtain ⟨rfl, -⟩ := same
  simp only [List.mem_cons, Prod.mk.injEq, List.not_mem_nil, or_false] at words
  rcases starts with (paren | ⟨i, ident⟩ | ⟨x, literal⟩) | ⟨op, operator⟩
  · cases paren
  · cases ident
  · rcases words with ⟨rfl, -⟩ | ⟨rfl, -⟩ <;> simp [literal?] at literal
  · rcases words with ⟨rfl, -⟩ | ⟨rfl, -⟩ <;> cases op <;> simp [UnaryOp.token] at operator

theorem joined_ends {α : Type} {separator : α → Token} {Allowed : α → Prop}
    {Ends : List Token → Prop} (divides : ∀ a rest, Allowed a → Ends (separator a :: rest))
    {xs : List (α × Phrase)} {rest : List Token} (each : ∀ x ∈ xs, Allowed x.1) (ends : Ends rest) :
    Ends (joined separator xs ++ rest) := by
  cases xs with
  | nil => exact ends
  | cons x xs => exact divides x.1 _ (each x List.mem_cons_self)

theorem joined_unique {α : Type} {separator : α → Token} {Allowed : α → Prop}
    {P : List Token → Tree → Prop} {Ends : List Token → Prop} {bound : Nat}
    (inj : ∀ a b, separator a = separator b → a = b)
    (divides : ∀ a rest, Allowed a → Ends (separator a :: rest))
    (unique : ∀ ⦃ts us rest rest' : List Token⦄ ⦃t u : Tree⦄, ts.length + rest.length < bound →
      P ts t → P us u → ts ++ rest = us ++ rest' → Ends rest → Ends rest' → ts = us ∧ t = u)
    {xs ys : List (α × Phrase)} {rest rest' : List Token}
    (size : (joined separator xs).length + rest.length < bound)
    (left : ∀ x ∈ xs, Allowed x.1 ∧ P x.2.1 x.2.2) (right : ∀ y ∈ ys, Allowed y.1 ∧ P y.2.1 y.2.2)
    (same : joined separator xs ++ rest = joined separator ys ++ rest')
    (last : Ends rest ∧ ∀ a tail, Allowed a → rest ≠ separator a :: tail)
    (last' : Ends rest' ∧ ∀ a tail, Allowed a → rest' ≠ separator a :: tail) : xs = ys := by
  -- Phrases that are unique up to `Ends` are so in a sequence with separators between them.
  induction xs generalizing ys with
  | nil =>
    cases ys with
    | nil => rfl
    | cons y ys => exact absurd same (last.2 _ _ (right y List.mem_cons_self).1)
  | cons x xs ih =>
    cases ys with
    | nil => exact absurd same.symm (last'.2 _ _ (left x List.mem_cons_self).1)
    | cons y ys =>
      have laterLeft : ∀ z ∈ xs, Allowed z.1 ∧ P z.2.1 z.2.2 :=
        fun z member => left z (List.mem_cons_of_mem _ member)
      have laterRight : ∀ z ∈ ys, Allowed z.1 ∧ P z.2.1 z.2.2 :=
        fun z member => right z (List.mem_cons_of_mem _ member)
      simp only [joined, List.flatMap_cons, List.cons_append, List.append_assoc, List.cons.injEq,
        List.length_append, List.length_cons] at same size
      have phrases := unique (by simp only [List.length_append]; omega)
        (left x List.mem_cons_self).2
        (right y List.mem_cons_self).2 same.2
        (joined_ends divides (fun z member => (laterLeft z member).1) last.1)
        (joined_ends divides (fun z member => (laterRight z member).1) last'.1)
      rw [phrases.1, List.append_cancel_left_eq] at same
      have later := ih (by simp only [joined]; omega) laterLeft laterRight same.2
      rw [later, Prod.ext (inj _ _ same.1) (Prod.ext phrases.1 phrases.2)]

theorem later_items {xs : List Phrase} (each : ∀ x ∈ xs, Item place x.1 x.2) :
    ∀ z ∈ xs.map (Prod.mk ()), True ∧ Item place z.2.1 z.2.2 := by
  intro z member
  obtain ⟨x, inside, rfl⟩ := List.mem_map.mp member
  exact ⟨trivial, each x inside⟩

section Items

variable {bound : Nat} (inner : UniqueBelow place bound (.level .expression))
include inner

theorem side_unique {ts us rest rest' : List Token} {t u : Tree}
    (size : ts.length + rest.length < bound) (left : Side place ts t) (right : Side place us u)
    (same : ts ++ rest = us ++ rest') (stops : (Category.level .expression).Stops rest)
    (stops' : (Category.level .expression).Stops rest') : ts = us ∧ t = u := by
  cases left with
  | value value =>
    cases right with
    | value value' => exact inner size value value' same stops stops'
    | word words => exact (word_not_value words value same.symm).elim
  | word words =>
    cases right with
    | value value => exact (word_not_value words value same).elim
    | word words' =>
      simp only [List.cons_append, List.nil_append, List.cons.injEq, Token.keyword.injEq] at same
      obtain ⟨rfl, -⟩ := same
      refine ⟨rfl, ?_⟩
      simp only [List.mem_cons, Prod.mk.injEq, List.not_mem_nil, or_false] at words words'
      rcases words with ⟨rfl, rfl⟩ | ⟨rfl, rfl⟩ <;> simp_all

theorem item_unique {ts us rest rest' : List Token} {t u : Tree}
    (size : ts.length + rest.length < bound) (left : Item place ts t) (right : Item place us u)
    (same : ts ++ rest = us ++ rest') (ends : EndsItem rest) (ends' : EndsItem rest') :
    ts = us ∧ t = u := by
  have stops := ends.stops (.level .expression)
  have stops' := ends'.stops (.level .expression)
  cases left with
  | plain side =>
    cases right with
    | plain side' => exact side_unique inner size side side' same stops stops'
    | divided divider side' =>
      rw [List.append_assoc] at same
      have sides := side_unique inner size side side' same stops (divider_stops _ divider _)
      rw [sides.1, List.append_cancel_left_eq] at same
      exact (ends.not_divider divider same).elim
  | @divided ts₁ ts₂ _ _ d divider side side₂ =>
    simp only [List.length_append, List.length_cons] at size
    have start : ts₁.length + (d.1 :: ts₂ ++ rest).length < bound := by
      simp only [List.length_append, List.length_cons]
      omega
    rw [List.append_assoc] at same
    cases right with
    | plain side' =>
      have sides := side_unique inner start side side' same (divider_stops _ divider _) stops'
      rw [sides.1, List.append_cancel_left_eq] at same
      exact (ends'.not_divider divider same.symm).elim
    | divided divider' side' side₂' =>
      rw [List.append_assoc] at same
      obtain ⟨rfl, rfl⟩ := side_unique inner start side side' same (divider_stops _ divider _)
        (divider_stops _ divider' _)
      rw [List.append_cancel_left_eq, List.cons_append, List.cons_append, List.cons.injEq] at same
      obtain rfl := divider_inj divider divider' same.1
      obtain ⟨rfl, rfl⟩ := side_unique inner (by omega) side₂ side₂' same.2 stops stops'
      exact ⟨rfl, rfl⟩

theorem items_unique {xs ys : List Phrase} {rest rest' : List Token}
    (size : (listed (xs.map Prod.fst)).length + rest.length + 1 < bound) (nonempty : xs ≠ [])
    (nonempty' : ys ≠ []) (left : ∀ x ∈ xs, Item place x.1 x.2)
    (right : ∀ y ∈ ys, Item place y.1 y.2)
    (same : listed (xs.map Prod.fst) ++ .symbol .rightParen :: rest =
      listed (ys.map Prod.fst) ++ .symbol .rightParen :: rest') : xs = ys := by
  have commas : ∀ (a : Unit) (tail : List Token), True →
      EndsItem ((fun _ => Token.symbol .comma) a :: tail) :=
    fun _ tail _ => ⟨_, tail, by simp [closers], rfl⟩
  have last (tail : List Token) : EndsItem (.symbol .rightParen :: tail) ∧
      ∀ (a : Unit) (rest : List Token), True →
        .symbol .rightParen :: tail ≠ Token.symbol .comma :: rest :=
    ⟨⟨_, tail, by simp [closers], rfl⟩, by simp⟩
  obtain ⟨x, xs, rfl⟩ := List.exists_cons_of_ne_nil nonempty
  obtain ⟨y, ys, rfl⟩ := List.exists_cons_of_ne_nil nonempty'
  simp only [listed_map_cons, List.append_assoc, List.length_append] at same size
  have first := item_unique inner (by simp only [List.length_append, List.length_cons]; omega)
    (left x List.mem_cons_self) (right y List.mem_cons_self) same
    (joined_ends commas (by simp) (last rest).1) (joined_ends commas (by simp) (last rest').1)
  rw [first.1, List.append_cancel_left_eq] at same
  have later := joined_unique (fun _ _ _ => rfl) commas
    (fun _ _ _ _ _ _ size left right => item_unique inner size left right)
    (by simp only [List.length_cons]; omega)
    (later_items fun z member => left z (List.mem_cons_of_mem _ member))
    (later_items fun z member => right z (List.mem_cons_of_mem _ member)) same (last rest)
      (last rest')
  have phrases := List.map_injective_iff.mpr (fun _ _ same => (Prod.mk.inj same).2) later
  rw [phrases, Prod.ext first.1 first.2]

end Items

/-- What may follow a name, with its effect on the tree of the name. -/
inductive Follows (place : Level) : List Token → (Tree → Tree) → Prop where
  | selected (i : Ident) : Follows place [.symbol .dot, .ident i] (.selected · (.simple i))
  | selectedAll : Follows place [.symbol .dot, .keyword "all"] (.selected · .all)
  | attributed (i : Ident) : Follows place [.symbol .tick, .ident i] (.attribute · i)
  | applied {items : List Phrase} (nonempty : items ≠ []) (each : ∀ x ∈ items, Item place x.1 x.2) :
      Follows place (enclosed (listed (items.map Prod.fst))) (.applied · (items.map Prod.snd))

abbrev Suffixes := List (List Token × (Tree → Tree))

def Suffixes.tokens (suffixes : Suffixes) : List Token := suffixes.flatMap Prod.fst

def Suffixes.apply (suffixes : Suffixes) (t : Tree) : Tree := suffixes.foldl (fun t x => x.2 t) t

def IsName (place : Level) (ts : List Token) (t : Tree) : Prop :=
  ∃ (i : Ident) (suffixes : Suffixes), (∀ x ∈ suffixes, Follows place x.1 x.2) ∧
    ts = .ident i :: suffixes.tokens ∧ t = suffixes.apply (.ident i)

theorem IsName.extend {ts us : List Token} {t : Tree} {f : Tree → Tree} (name : IsName place ts t)
    (follows : Follows place us f) : IsName place (ts ++ us) (f t) := by
  obtain ⟨i, suffixes, each, rfl, rfl⟩ := name
  refine ⟨i, suffixes ++ [(us, f)], ?_, by simp [Suffixes.tokens], by simp [Suffixes.apply]⟩
  intro x member
  rcases List.mem_append.mp member with old | new
  · exact each x old
  · obtain rfl := List.mem_singleton.mp new
    exact follows

theorem Derives.isName {ts : List Token} {t : Tree} (derivation : Derives place .name ts t) :
    IsName place ts t := by
  generalize same : Category.name = c at derivation
  induction derivation with
  | simpleName i => exact ⟨i, [], by simp, rfl, rfl⟩
  | selected base i ih => exact (ih same).extend (.selected i)
  | selectedAll base ih => exact (ih same).extend .selectedAll
  | attributed base i ih => exact (ih same).extend (.attributed i)
  | applied base nonempty arguments ih =>
    exact (ih same).extend (.applied nonempty fun x member => item_of_argument (arguments x member))
  | @slice ts us t u base range ih =>
    have item : ∀ x ∈ [(us, u)], Item place x.1 x.2 := by
      intro x member
      obtain rfl := List.mem_singleton.mp member
      exact item_of_range range
    have enclosedRange := (ih same).extend (.applied (by simp) item)
    simpa [listed] using enclosedRange
  | operation | unsigned | signed | prefixed | literal | nameOrCall | parenthesized | aggregate
  | bounds | chosen | others | positional | named | given | unconnected | actual | formal =>
    cases same

theorem Follows.head {ts : List Token} {f : Tree → Tree} (follows : Follows place ts f) :
    ∃ token tail, ts = token :: tail ∧ token ∈ [Token.symbol .dot, .symbol .tick,
      .symbol .leftParen] := by
  cases follows with
  | selected | selectedAll | attributed | applied => exact ⟨_, _, rfl, by simp⟩

def Tree.ofElements : List Tree → Tree
  | [t] => if t.isValue then t else .aggregate [t]
  | ts => .aggregate ts

theorem Derives.primaryForms {ts : List Token} {t : Tree}
    (derivation : Derives place .primary ts t) :
    (∃ token x, literal? token = some x ∧ ts = [token] ∧ t = .literal x) ∨
      Derives place .name ts t ∨
      ∃ items : List Phrase, items ≠ [] ∧ (∀ x ∈ items, Item place x.1 x.2) ∧
        ts = enclosed (listed (items.map Prod.fst)) ∧ t = Tree.ofElements (items.map Prod.snd) := by
  cases derivation with
  | literal value => exact .inl ⟨_, _, value, rfl, rfl⟩
  | nameOrCall name => exact .inr (.inl name)
  | @parenthesized ts t inner =>
    refine .inr (.inr ⟨[(ts, t)], by simp, ?_, by simp [listed], ?_⟩)
    · intro x member
      obtain rfl := List.mem_singleton.mp member
      exact .plain (.value inner)
    · simp [Tree.ofElements, inner.isValue rfl]
  | @aggregate items nonempty elements distinct =>
    refine .inr (.inr ⟨items, nonempty, fun x member => item_of_element (elements x member), rfl,
      ?_⟩)
    match items, distinct with
    | [], _ | _ :: _ :: _, _ => rfl
    | [x], distinct =>
      obtain ⟨choice, value, named⟩ := distinct x rfl
      simp [Tree.ofElements, named, Tree.isValue]

section Primaries

variable {bound : Nat} (inner : UniqueBelow place bound (.level .expression))
include inner

theorem follows_unique {ts us rest rest' : List Token} {f g : Tree → Tree}
    (size : ts.length + rest.length ≤ bound) (left : Follows place ts f)
    (right : Follows place us g) (same : ts ++ rest = us ++ rest') : ts = us ∧ f = g := by
  cases left with
  | selected i | selectedAll | attributed i => cases right <;> simp_all [enclosed]
  | @applied xs nonempty each =>
    cases right with
    | selected | selectedAll | attributed => simp [enclosed] at same
    | @applied ys nonempty' each' =>
      simp only [enclosed, List.cons_append, List.append_assoc, List.cons.injEq, List.nil_append,
        true_and, List.length_cons, List.length_append, List.length_nil] at same size
      have equal := items_unique inner (by omega) nonempty nonempty' each each' same
      rw [equal]
      exact ⟨rfl, rfl⟩

theorem suffixes_unique {xs ys : Suffixes} {rest rest' : List Token}
    (size : xs.tokens.length + rest.length ≤ bound) (left : ∀ x ∈ xs, Follows place x.1 x.2)
    (right : ∀ y ∈ ys, Follows place y.1 y.2) (same : xs.tokens ++ rest = ys.tokens ++ rest')
    (stops : Category.name.Stops rest) (stops' : Category.name.Stops rest') : xs = ys := by
  -- A suffix cannot start where the other name has ended.
  have apart {x : List Token × (Tree → Tree)} {tail rest : List Token}
      (follows : Follows place x.1 x.2)
      (stops : Category.name.Stops rest) : x.1 ++ tail ≠ rest := by
    rintro rfl
    obtain ⟨token, tail, begins, member⟩ := follows.head
    simp only [List.mem_cons, List.not_mem_nil, or_false] at member
    rw [begins] at stops
    exact stops token rfl (by rcases member with rfl | rfl | rfl <;> simp [Category.Continues])
  induction xs generalizing ys with
  | nil =>
    cases ys with
    | nil => rfl
    | cons y ys =>
      simp only [Suffixes.tokens, List.flatMap_nil, List.flatMap_cons, List.nil_append,
        List.append_assoc] at same
      exact absurd same.symm (apart (right y List.mem_cons_self) stops)
  | cons x xs ih =>
    simp only [Suffixes.tokens, List.flatMap_cons, List.append_assoc,
      List.length_append] at same size
    cases ys with
    | nil => exact absurd same (apart (left x List.mem_cons_self) stops')
    | cons y ys =>
      simp only [List.flatMap_cons, List.append_assoc] at same
      have first := follows_unique inner (by simp only [List.length_append]; omega)
        (left x List.mem_cons_self) (right y List.mem_cons_self) same
      rw [first.1, List.append_cancel_left_eq] at same
      have later := ih (by simp only [Suffixes.tokens]; omega)
        (fun z member => left z (List.mem_cons_of_mem _ member))
        (fun z member => right z (List.mem_cons_of_mem _ member)) same
      rw [later, Prod.ext first.1 first.2]

theorem name_unique : UniqueBelow place (bound + 1) .name := by
  intro ts us rest rest' t u size left right same stops stops'
  obtain ⟨i, xs, each, rfl, rfl⟩ := left.isName
  obtain ⟨j, ys, each', rfl, rfl⟩ := right.isName
  simp only [List.cons_append, List.cons.injEq, Token.ident.injEq, List.length_cons] at same size
  obtain ⟨rfl, same⟩ := same
  obtain rfl := suffixes_unique inner (by omega) each each' same stops stops'
  exact ⟨rfl, rfl⟩

theorem primary_unique : UniqueBelow place (bound + 1) .primary := by
  intro ts us rest rest' t u size left right same stops stops'
  have readsName {ts : List Token} {t : Tree} (name : Derives place .name ts t) :
      ∃ i tail, ts = .ident i :: tail := by
    obtain ⟨i, suffixes, -, rfl, -⟩ := name.isName
    exact ⟨i, _, rfl⟩
  rcases left.primaryForms with ⟨token, x, value, rfl, rfl⟩ | name | ⟨xs, nonempty, each, rfl, rfl⟩
  · rcases right.primaryForms with ⟨token', x', value', rfl, rfl⟩ | name' | ⟨ys, -, -, rfl, -⟩
    · obtain ⟨rfl, -⟩ := List.cons.inj same
      exact ⟨rfl, by rw [Option.some.inj (value.symm.trans value')]⟩
    · obtain ⟨i, tail, rfl⟩ := readsName name'
      obtain ⟨rfl, -⟩ := List.cons.inj same
      simp [literal?] at value
    · obtain ⟨rfl, -⟩ := List.cons.inj same
      simp [literal?] at value
  · rcases right.primaryForms with ⟨token', x', value', rfl, rfl⟩ | name' | ⟨ys, -, -, rfl, -⟩
    · obtain ⟨i, tail, rfl⟩ := readsName name
      obtain ⟨rfl, -⟩ := List.cons.inj same
      simp [literal?] at value'
    · exact name_unique inner size name name' same stops stops'
    · obtain ⟨i, tail, rfl⟩ := readsName name
      simp [enclosed] at same
  · rcases right.primaryForms with ⟨token', x', value', rfl, rfl⟩ | name' | ⟨ys, nonempty',
      each', rfl, rfl⟩
    · obtain ⟨rfl, -⟩ := List.cons.inj same
      simp [literal?] at value'
    · obtain ⟨i, tail, rfl⟩ := readsName name'
      simp [enclosed] at same
    · simp only [enclosed, List.cons_append, List.append_assoc, List.cons.injEq, List.nil_append,
        true_and, List.length_cons, List.length_append, List.length_nil] at same size
      have equal := items_unique inner (by omega) nonempty nonempty' each each' same
      rw [equal]
      exact ⟨rfl, rfl⟩

end Primaries

theorem lead_unique {bound : Nat} (terms : UniqueBelow place bound (.level .term)) :
    UniqueBelow place bound .lead := by
  intro ts us rest rest' t u size left right same stops stops'
  have noSign {op : UnaryOp} {ts us rest rest' : List Token} {t : Tree}
      (sign : op = .plus ∨ op = .minus)
      (term : Derives place (.level .term) us t) : op.token :: ts ++ rest ≠ us ++ rest' := by
    intro same
    obtain ⟨token, tail, rfl, starts⟩ := term.starts
    obtain ⟨rfl, -⟩ := List.cons.inj same
    rcases sign with rfl | rfl <;>
      simp [Category.Starts, startsPrimary, UnaryOp.token, literal?] at starts
  cases left with
  | unsigned term =>
    cases right with
    | unsigned term' => exact terms size term term' same stops stops'
    | signed terminal sign term' =>
      obtain rfl := unary?_eq_some_iff.1 terminal
      exact absurd same.symm (noSign sign term)
  | @signed _ op ts t terminal sign term =>
    obtain rfl := unary?_eq_some_iff.1 terminal
    cases right with
    | unsigned term' => exact absurd same (noSign sign term')
    | @signed _ op' us u terminal' sign' term' =>
      obtain rfl := unary?_eq_some_iff.1 terminal'
      simp only [List.cons_append, List.cons.injEq, List.length_cons] at same size
      have operators : op = op' := by
        rcases sign with rfl | rfl <;> rcases sign' with rfl | rfl <;> simp_all [UnaryOp.token]
      obtain ⟨rfl, rfl⟩ := terms (by omega) term term' same.2 stops stops'
      exact ⟨by rw [operators], by rw [operators]⟩

theorem level_unique {bound : Nat} {l : Level} (firsts : UniqueBelow place bound l.first)
    (operands : UniqueBelow place bound l.operand) : UniqueBelow place bound (.level l) := by
  intro ts us rest rest' t u size left right same stops stops'
  have divides (c : Category) (rank : c.rank = l.rank + 1) (op : BinaryOp) (tail : List Token)
      (level : levelOf op = l) : c.Stops (BinaryOp.token op :: tail) := operator_stops level rank
  have inside {rest : List Token} (stops : (Category.level l).Stops rest) (c : Category)
      (rank : c.rank = l.rank + 1) : c.Stops rest :=
    stops.mono (by simp only [Category.rank] at rank ⊢; omega)
  have last {rest : List Token} (stops : (Category.level l).Stops rest) : l.operand.Stops rest ∧
      ∀ op tail, levelOf op = l → rest ≠ BinaryOp.token op :: tail := by
    refine ⟨inside stops _ (rank_operand l), ?_⟩
    rintro op tail level rfl
    exact stops _ rfl (.inr (.inr (.inr ⟨op, rfl, by rw [level]; exact Nat.le_refl _⟩)))
  have noWord {op : UnaryOp} {ts us rest rest' : List Token} {t : Tree}
      (word : op = .abs ∨ op = .not)
      (primary : Derives place .primary us t) : op.token :: ts ++ rest ≠ us ++ rest' := by
    intro same
    obtain ⟨token, tail, rfl, starts⟩ := primary.starts
    obtain ⟨rfl, -⟩ := List.cons.inj same
    rcases word with rfl | rfl <;>
      simp [Category.Starts, startsPrimary, UnaryOp.token, literal?] at starts
  cases left with
  | @operation _ first xs _ terminals head operators each joins =>
    rw [joined_terminals terminals] at same size ⊢
    cases right with
    | @operation _ first' ys _ terminals' head' operators' each' joins' =>
      rw [joined_terminals terminals'] at same ⊢
      simp only [List.append_assoc, List.length_append] at same size
      have start := firsts (by simp only [List.length_append]; omega) head head' same
        (joined_ends (divides _ (rank_first l)) operators (inside stops _ (rank_first l)))
        (joined_ends (divides _ (rank_first l)) operators' (inside stops' _ (rank_first l)))
      rw [start.1, List.append_cancel_left_eq] at same
      have later := joined_unique (fun _ _ => token_inj) (divides _ (rank_operand l)) operands
        (show (joined BinaryOp.token xs).length + rest.length < bound by omega)
        (fun x member => ⟨operators x member, each x member⟩)
        (fun x member => ⟨operators' x member, each' x member⟩) same (last stops) (last stops')
      rw [start.1, start.2, later]
      exact ⟨rfl, rfl⟩
    | prefixed terminal word operand =>
      obtain rfl := unary?_eq_some_iff.1 terminal
      rw [List.append_assoc] at same
      exact absurd same.symm (noWord word head)
  | @prefixed _ op ts t terminal word operand =>
    obtain rfl := unary?_eq_some_iff.1 terminal
    cases right with
    | operation _ head' =>
      rw [List.append_assoc] at same
      exact absurd same (noWord word head')
    | @prefixed _ op' us u terminal' word' operand' =>
      obtain rfl := unary?_eq_some_iff.1 terminal'
      simp only [List.cons_append, List.cons.injEq, List.length_cons] at same size
      have operators : op = op' := by
        rcases word with rfl | rfl <;> rcases word' with rfl | rfl <;> simp_all [UnaryOp.token]
      obtain ⟨rfl, rfl⟩ := operands (by omega) operand operand' same.2
        (inside stops _ (rank_operand _)) (inside stops' _ (rank_operand _))
      exact ⟨by rw [operators], by rw [operators]⟩

theorem levels_unique (place : Level) (bound : Nat) (l : Level) :
    UniqueBelow place bound (.level l) := by
  induction bound generalizing l with
  | zero =>
    intro ts us rest rest' t u size
    exact absurd size (Nat.not_lt_zero _)
  | succ bound inner =>
    have primary := primary_unique (inner .expression)
    have factor := level_unique (l := .factor) primary primary
    have term := level_unique (l := .term) factor factor
    have simple := level_unique (l := .simple) (lead_unique term) term
    have shift := level_unique (l := .shift) simple simple
    have relation := level_unique (l := .relation) shift shift
    cases l with
    | expression => exact level_unique (l := .expression) relation relation
    | relation => exact relation
    | shift => exact shift
    | simple => exact simple
    | term => exact term
    | factor => exact factor

/-- Every sequence of tokens has at most one tree as an expression. -/
theorem Derives.unique {ts : List Token} {t u : Tree}
    (left : Derives place (.level .expression) ts t)
    (right : Derives place (.level .expression) ts u) : t = u := by
  have ends : (Category.level .expression).Stops [] := by simp [Category.Stops]
  exact (levels_unique place (ts.length + 1) .expression (by simp) left right rfl ends ends).2

end Vhdl93.Grammar
