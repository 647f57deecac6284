import Vhdl93.Proofs.Grammar.Nesting

set_option autoImplicit false

/-!
The last step of a derivation, read off the tree: unless the whole text stands in parentheses, it is
the text of the parts of the tree around its outermost operator, and that operator binds at least as
tightly as the category asks. A part is found in the text by what its tree contains.
-/

namespace Vhdl93.Grammar

def Tree.rank : Tree → Nat
  | .binary op _ _ => (levelOf op).rank
  | .unary .plus _ | .unary .minus _ => Level.simple.rank
  | .unary .abs _ | .unary .not _ => Level.factor.rank
  | _ => Category.primary.rank

/-- The least rank in a category, outside of parentheses. -/
def Category.floor : Category → Nat
  | .level l => l.rank
  | .lead => Level.simple.rank
  | .primary | .name => Category.primary.rank
  | _ => 0

def operandOf : UnaryOp → Category
  | .plus | .minus => .level .term
  | .abs | .not => .primary

variable {place : Level}

def Reads (place : Level) (ts : List Token) (t : Tree) : Prop := ∃ c, Derives place c ts t

def Leads (place : Level) (op : BinaryOp) (ts : List Token) (t : Tree) : Prop :=
  Derives place (levelOf op).first ts t ∨
    Reads place ts t ∧ ∃ inner l r, t = .binary inner l r ∧ op.chainsWith inner = true

/-- The texts of a tree whose last step is not a pair of parentheses. -/
def Bare (place : Level) (ts : List Token) : Tree → Prop
  | .binary op l r => ∃ us vs, ts = us ++ op.token :: vs ∧ Leads place op us l ∧
      Derives place (levelOf op).operand vs r
  | .unary op e => ∃ us, ts = op.token :: us ∧ Derives place (operandOf op) us e
  | .selected base suffix => ∃ us, ts = us ++ .symbol .dot :: suffix.pieces.tokens ∧
      Reads place us base
  | .attribute base i => ∃ us, ts = us ++ [.symbol .tick, .ident i] ∧ Reads place us base
  | .applied base as => ∃ us, ∃ items : List Phrase,
      ts = us ++ enclosed (listed (items.map Prod.fst)) ∧ as = items.map Prod.snd ∧
        Derives place .name us base ∧ ∀ x ∈ items, Reads place x.1 x.2
  | .aggregate es => ∃ items : List Phrase,
      ts = enclosed (listed (items.map Prod.fst)) ∧ es = items.map Prod.snd ∧
        (∀ x ∈ items, Reads place x.1 x.2) ∧ ∀ x, items = [x] → ∃ c v, x.2 = .named c v
  | .bounds d l r => ∃ us vs, ts = us ++ .keyword d.text :: vs ∧ Reads place us l ∧
      Reads place vs r
  | .named c v => ∃ us vs, ts = us ++ .symbol .arrow :: vs ∧ Reads place us c ∧ Reads place vs v
  | .literal _ | .ident _ | .others | .unconnected => ∃ token, rise token = 0 ∧ ts = [token]

theorem rank_le_floor_first (l : Level) : l.rank ≤ l.first.floor := by
  cases l <;> decide

theorem floor_operand (l : Level) : l.operand.floor = l.rank + 1 := by
  cases l <;> rfl

theorem chainsWith_of_joins {l : Level} {ops : List BinaryOp} {inner op : BinaryOp}
    (inside : levelOf inner = l) (outside : levelOf op = l)
    (joins : l.Joins (ops ++ [inner] ++ [op])) : op.chainsWith inner = true := by
  rw [chainsWith_iff op inner (inside.trans outside.symm), outside]
  cases l with
  | simple => exact .inl rfl
  | term => exact .inr (.inl rfl)
  | relation | shift | factor => simp [Level.Joins] at joins
  | expression =>
    rcases joins with short | ⟨other, repeats, all⟩
    · simp at short
    · obtain rfl : inner = other := all inner (by simp)
      obtain rfl : op = inner := all op (by simp)
      exact .inr (.inr ⟨rfl, repeats⟩)

theorem joins_init {l : Level} {ops : List BinaryOp} {op : BinaryOp}
    (joins : l.Joins (ops ++ [op])) : l.Joins ops := by
  cases l with
  | simple | term => trivial
  | relation | shift | factor =>
    simp only [Level.Joins, List.length_append, List.length_singleton] at joins ⊢
    omega
  | expression =>
    rcases joins with short | ⟨other, repeats, all⟩
    · refine .inl ?_
      simp only [List.length_append, List.length_singleton] at short
      omega
    · exact .inr ⟨other, repeats, fun x member => all x (List.mem_append_left _ member)⟩

theorem operation_leads {l : Level} {first : Phrase} {init : List (BinaryOp × Phrase)}
    {op : BinaryOp} (level : levelOf op = l) (head : Derives place l.first first.1 first.2)
    (operators : ∀ x ∈ init, levelOf x.1 = l)
    (operands : ∀ x ∈ init, Derives place l.operand x.2.1 x.2.2)
    (joins : l.Joins (init.map Prod.fst ++ [op])) :
    Leads place op (first.1 ++ joined BinaryOp.token init) (fold first.2 init) := by
  rcases List.eq_nil_or_concat init with rfl | ⟨front, x, rfl⟩
  · simpa [Leads, joined, fold, level] using .inl head
  · have left := Derives.operators head operators operands (joins_init joins)
    refine .inr ⟨⟨_, left⟩, x.1, fold first.2 front, x.2.2, by simp [fold], ?_⟩
    exact @chainsWith_of_joins l (front.map Prod.fst) x.1 op (operators x (by simp)) level
      (by simpa using joins)

theorem Derives.forms {c : Category} {ts : List Token} {t : Tree}
    (derivation : Derives place c ts t) :
    (∃ us, ts = enclosed us ∧ Derives place (.level .expression) us t) ∨
      c.floor ≤ t.rank ∧ Bare place ts t := by
  -- Steps that only pass on a narrower category keep the form of what they take.
  induction derivation with
  | @operation l first rest _ terminals head operators operands joins ih =>
    rw [joined_terminals terminals]
    rcases List.eq_nil_or_concat rest with rfl | ⟨init, x, rfl⟩
    · simp only [joined, List.flatMap_nil, List.append_nil, fold, List.foldl_nil]
      exact ih.imp_right (And.imp_left (Nat.le_trans (rank_le_floor_first l)))
    · have level : levelOf x.1 = l := operators x (by simp)
      have leads := @operation_leads place l first init x.1 level head
        (fun y member => operators y (by simp [member]))
        (fun y member => operands y (by simp [member])) (by simpa using joins)
      refine .inr ⟨by simp [fold, Tree.rank, Category.floor, level], ?_⟩
      simp only [fold, List.concat_eq_append, List.foldl_append, List.foldl_cons, List.foldl_nil]
      exact ⟨_, x.2.1, by simp [joined], leads, level ▸ operands x (by simp)⟩
  | unsigned term ih => exact ih.imp_right (And.imp_left (Nat.le_trans (by decide)))
  | signed terminal sign term =>
    obtain rfl := unary?_eq_some_iff.1 terminal
    rcases sign with rfl | rfl <;> exact .inr ⟨Nat.le_refl _, _, rfl, term⟩
  | prefixed terminal word operand =>
    obtain rfl := unary?_eq_some_iff.1 terminal
    rcases word with rfl | rfl <;> exact .inr ⟨Nat.le_refl _, _, rfl, operand⟩
  | literal value => exact .inr ⟨Nat.le_refl _, _, rise_literal value, rfl⟩
  | nameOrCall name ih => exact ih
  | parenthesized inner => exact .inl ⟨_, rfl, inner⟩
  | aggregate nonempty elements distinct =>
    exact .inr ⟨Nat.le_refl _, _, rfl, rfl, fun x member => ⟨_, elements x member⟩, distinct⟩
  | simpleName i => exact .inr ⟨Nat.le_refl _, _, rise_ident i, rfl⟩
  | selected base | selectedAll base => exact .inr ⟨Nat.le_refl _, _, rfl, _, base⟩
  | attributed base => exact .inr ⟨Nat.le_refl _, _, rfl, _, base⟩
  | applied base nonempty arguments =>
    exact .inr ⟨Nat.le_refl _, _, _, rfl, rfl, base, fun x member => ⟨_, arguments x member⟩⟩
  | @slice ts us t u base range =>
    refine .inr ⟨Nat.le_refl _, ts, [(us, u)], by simp [listed], rfl, base, ?_⟩
    simpa using ⟨_, range⟩
  | bounds terminal left right =>
    obtain rfl := direction?_eq_some_iff.1 terminal
    exact .inr ⟨Nat.zero_le _, _, _, rfl, ⟨_, left⟩, ⟨_, right⟩⟩
  | chosen value ih | positional value ih | given value ih | actual value ih =>
    exact ih.imp_right (And.imp_left fun _ => Nat.zero_le _)
  | others | unconnected => exact .inr ⟨Nat.zero_le _, _, rise_keyword _, rfl⟩
  | named choice value => exact .inr ⟨Nat.zero_le _, _, _, rfl, ⟨_, choice⟩, ⟨_, value⟩⟩
  | formal i value =>
    exact .inr ⟨Nat.zero_le _, [.ident i], _, rfl, ⟨_, .simpleName i⟩, ⟨_, value⟩⟩

theorem Balanced.ne_enclosed {us vs ws : List Token} {token : Token} (front : Balanced us)
    (flat : rise token = 0) (inner : Balanced ws) : us ++ token :: vs ≠ Grammar.enclosed ws := by
  intro same
  rcases inner.front_of_enclosed same.symm front with rfl | none
  · obtain ⟨rfl, -⟩ := List.cons.inj same
    cases flat
  · cases none

theorem Reads.yields {ts : List Token} {t : Tree} (reads : Reads place ts t) :
    Yields ts t.content := by
  obtain ⟨c, derivation⟩ := reads
  exact derivation.yields

theorem Leads.reads {op : BinaryOp} {ts : List Token} {t : Tree} (leads : Leads place op ts t) :
    Reads place ts t := by
  rcases leads with first | ⟨reads, -⟩
  · exact ⟨_, first⟩
  · exact reads

theorem Reads.forms {ts : List Token} {t : Tree} (reads : Reads place ts t) :
    (∃ us, ts = enclosed us ∧ Derives place (.level .expression) us t) ∨ Bare place ts t := by
  obtain ⟨c, derivation⟩ := reads
  exact derivation.forms.imp_right And.right

theorem Reads.bare {us vs : List Token} {token : Token} {t : Tree} (front : Balanced us)
    (flat : rise token = 0) (reads : Reads place (us ++ token :: vs) t) :
    Bare place (us ++ token :: vs) t := by
  rcases reads.forms with ⟨ws, same, inner⟩ | bare
  · exact absurd same (front.ne_enclosed flat inner.yields.balanced)
  · exact bare

section Parts

variable {us vs : List Token}

theorem Reads.binary {op : BinaryOp} {l r : Tree} (left : Yields us l.content)
    (reads : Reads place (us ++ op.token :: vs) (.binary op l r)) :
    Leads place op us l ∧ Derives place (levelOf op).operand vs r := by
  obtain ⟨us', vs', same, leads, right⟩ := reads.bare left.balanced (rise_binary op)
  have contents := left.content.trans leads.reads.yields.content.symm
  obtain ⟨rfl, -, rfl⟩ := cut contents (rise_binary op) (rise_binary op) same
  exact ⟨leads, right⟩

theorem Reads.unary {op : UnaryOp} {e : Tree} (reads : Reads place (op.token :: us) (.unary op e)) :
    Derives place (operandOf op) us e := by
  obtain ⟨us', same, operand⟩ := Reads.bare .nil (rise_unary op) reads
  obtain ⟨-, rfl⟩ := List.cons.inj same
  exact operand

theorem Reads.selected {suffix : Suffix} {base : Tree} (front : Yields us base.content)
    (reads : Reads place (us ++ .symbol .dot :: suffix.pieces.tokens) (.selected base suffix)) :
    Reads place us base := by
  obtain ⟨us', same, inner⟩ := reads.bare front.balanced rfl
  obtain ⟨rfl, -⟩ := cut (front.content.trans inner.yields.content.symm) rfl rfl same
  exact inner

theorem Reads.attribute {i : Ident} {base : Tree} (front : Yields us base.content)
    (reads : Reads place (us ++ [.symbol .tick, .ident i]) (.attribute base i)) :
    Reads place us base := by
  obtain ⟨us', same, inner⟩ := reads.bare front.balanced rfl
  obtain ⟨rfl, -⟩ := cut (front.content.trans inner.yields.content.symm) rfl rfl same
  exact inner

theorem Reads.bounds {d : Direction} {l r : Tree} (left : Yields us l.content)
    (reads : Reads place (us ++ .keyword d.text :: vs) (.bounds d l r)) :
    Reads place us l ∧ Reads place vs r := by
  obtain ⟨us', vs', same, first, second⟩ := reads.bare left.balanced (rise_keyword _)
  have contents := left.content.trans first.yields.content.symm
  obtain ⟨rfl, -, rfl⟩ := cut contents (rise_keyword _) (rise_keyword _) same
  exact ⟨first, second⟩

theorem Reads.named {c v : Tree} (left : Yields us c.content)
    (reads : Reads place (us ++ .symbol .arrow :: vs) (.named c v)) :
    Reads place us c ∧ Reads place vs v := by
  obtain ⟨us', vs', same, choice, value⟩ := reads.bare left.balanced rfl
  obtain ⟨rfl, -, rfl⟩ := cut (left.content.trans choice.yields.content.symm) rfl rfl same
  exact ⟨choice, value⟩

theorem phrases_unique {xs ys : List Phrase} (left : ∀ x ∈ xs, Yields x.1 x.2.content)
    (right : ∀ y ∈ ys, Yields y.1 y.2.content) (trees : xs.map Prod.snd = ys.map Prod.snd)
    (same : listed (xs.map Prod.fst) = listed (ys.map Prod.fst)) : xs = ys := by
  have contents {zs : List Phrase} (each : ∀ z ∈ zs, Yields z.1 z.2.content) :
      (zs.map Prod.fst).map content = (zs.map Prod.snd).map Tree.content := by
    simpa using fun ts t member => (each (ts, t) member).content
  have texts := listed_cut (by rw [contents left, contents right, trees]) same
  rw [← List.zip_unzip xs, ← List.zip_unzip ys]
  simp only [List.unzip_eq_map, texts, trees]

theorem listed_balanced {items : List Phrase} (each : ∀ x ∈ items, Yields x.1 x.2.content) :
    Balanced (listed (items.map Prod.fst)) :=
  (Yields.listed each).balanced

theorem Reads.applied {base : Tree} {items : List Phrase} (nonempty : us ≠ [])
    (each : ∀ x ∈ items, Yields x.1 x.2.content)
    (reads : Reads place (us ++ enclosed (listed (items.map Prod.fst)))
      (.applied base (items.map Prod.snd))) :
    Reads place us base ∧ ∀ x ∈ items, Reads place x.1 x.2 := by
  rcases reads.forms with ⟨ws, same, inner⟩ | ⟨us', items', same, trees, name, arguments⟩
  · exact absurd (inner.yields.balanced.nothing_before (listed_balanced each) same.symm) nonempty
  · have each' (x : Phrase) (member : x ∈ items') : Yields x.1 x.2.content :=
      (arguments x member).yields
    obtain ⟨rfl, lists⟩ := (listed_balanced each).enclosed_tail (listed_balanced each') same
    obtain rfl := phrases_unique each each' trees lists
    exact ⟨⟨_, name⟩, arguments⟩

end Parts

/-- The places where the text of an aggregate or of a named item shows what it is. -/
structure Shaped (ts : List Token) (t : Tree) : Prop where
  aggregate : ∀ es, t = .aggregate es → ∃ us, ts = enclosed us ∧ Balanced us
  named : ∀ c v, t = .named c v → ∃ us vs, ts = us ++ .symbol .arrow :: vs ∧ Balanced us

theorem Reads.shaped {ts : List Token} {t : Tree} (reads : Reads place ts t) : Shaped ts t where
  aggregate := by
    rintro es rfl
    rcases reads.forms with ⟨us, rfl, inner⟩ | ⟨items, rfl, -, elements, -⟩
    · exact ⟨us, rfl, inner.yields.balanced⟩
    · exact ⟨_, rfl, listed_balanced fun x member => (elements x member).yields⟩
  named := by
    rintro c v rfl
    rcases reads.forms with ⟨us, rfl, inner⟩ | ⟨us, vs, rfl, choice, -⟩
    · exact absurd (inner.isValue rfl) (by simp [Tree.isValue])
    · exact ⟨us, vs, rfl, choice.yields.balanced⟩

theorem listed_ne_enclosed {items : List Phrase} {ws : List Token}
    (each : ∀ x ∈ items, Balanced x.1)
    (single : ∀ x, items = [x] → ∃ us vs, x.1 = us ++ .symbol .arrow :: vs ∧ Balanced us)
    (inner : Balanced ws) : listed (items.map Prod.fst) ≠ enclosed ws := by
  match items with
  | [] => simp [listed, enclosed]
  | [x] =>
    obtain ⟨us, vs, text, front⟩ := single x rfl
    simpa [listed, text] using front.ne_enclosed (show rise (.symbol .arrow) = 0 from rfl) inner
  | x :: y :: rest =>
    rw [List.map_cons, List.map_cons, listed_cons_cons]
    exact (each x List.mem_cons_self).ne_enclosed (by rfl) inner

theorem Reads.aggregate {items : List Phrase} (each : ∀ x ∈ items, Yields x.1 x.2.content)
    (single : ∀ x, items = [x] → ∃ us vs, x.1 = us ++ .symbol .arrow :: vs ∧ Balanced us)
    (reads : Reads place (enclosed (listed (items.map Prod.fst)))
      (.aggregate (items.map Prod.snd))) : ∀ x ∈ items, Reads place x.1 x.2 := by
  rcases reads.forms with ⟨us, same, inner⟩ | ⟨items', same, trees, elements, -⟩
  · obtain ⟨ws, again, balanced⟩ := (Reads.shaped ⟨_, inner⟩).aggregate _ rfl
    rw [← Balanced.enclosed_inj same] at again
    exact absurd again
      (listed_ne_enclosed (fun x member => (each x member).balanced) single balanced)
  · obtain rfl := phrases_unique each (fun x member => (elements x member).yields) trees
      (Balanced.enclosed_inj same)
    exact elements

/-- Parentheses around the text of a tree may be left out, unless they are those of an aggregate. -/
theorem Reads.strip {ts : List Token} {t : Tree} (yields : Yields ts t.content)
    (shaped : Shaped ts t) (reads : Reads place (enclosed ts) t) : Reads place ts t := by
  rcases reads.forms with ⟨us, same, inner⟩ | bare
  · rw [Balanced.enclosed_inj same]
    exact ⟨_, inner⟩
  · -- Only the last step for an aggregate adds parentheses of its own.
    have apart {us vs : List Token} {token : Token} (front : Balanced us) (flat : rise token = 0) :
        enclosed ts ≠ us ++ token :: vs :=
      (front.ne_enclosed flat yields.balanced).symm
    cases t with
    | binary op l r =>
      obtain ⟨us, vs, same, leads, -⟩ := bare
      exact absurd same (apart leads.reads.yields.balanced (rise_binary op))
    | unary op e =>
      obtain ⟨us, same, -⟩ := bare
      exact absurd same (apart .nil (rise_unary op))
    | literal | ident | others | unconnected =>
      obtain ⟨token, flat, same⟩ := bare
      exact absurd same (apart .nil flat)
    | selected base suffix | «attribute» base i =>
      obtain ⟨us, same, inner⟩ := bare
      exact absurd same (apart inner.yields.balanced rfl)
    | applied base as =>
      obtain ⟨us, items, same, -, name, arguments⟩ := bare
      have none := yields.balanced.nothing_before
        (listed_balanced fun x member => (arguments x member).yields) same
      obtain ⟨token, rest, text, -⟩ := name.starts
      simp [none] at text
    | aggregate es =>
      obtain ⟨items, same, -, elements, distinct⟩ := bare
      obtain ⟨ws, again, balanced⟩ := shaped.aggregate es rfl
      rw [Balanced.enclosed_inj same] at again
      refine absurd again (listed_ne_enclosed (fun x member => (elements x member).yields.balanced)
        ?_ balanced)
      rintro x rfl
      obtain ⟨c, v, tree⟩ := distinct x rfl
      exact (elements x List.mem_cons_self).shaped.named c v tree
    | bounds d l r | named c v =>
      obtain ⟨us, vs, same, first, -⟩ := bare
      exact absurd same (apart first.yields.balanced (by rfl))

end Vhdl93.Grammar
