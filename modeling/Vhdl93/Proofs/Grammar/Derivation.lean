import Vhdl93.Expr.Pieces

set_option autoImplicit false

/-!
The grammar of expressions over tokens, and the trees that its derivations yield. Each level joins
operands of the next one: an expression joins relations, a relation shift expressions, then simple
expressions, terms, factors and primaries. A parenthesized list after a name is not classified: an
indexed name, a slice, a call and the argument of an attribute are all applications.
-/

namespace Vhdl93.Grammar

inductive Tree where
  | binary (op : BinaryOp) (left right : Tree)
  | unary (op : UnaryOp) (operand : Tree)
  | literal (value : Literal)
  | ident (ident : Ident)
  | selected (base : Tree) (suffix : Suffix)
  | attribute (base : Tree) (designator : Ident)
  | applied (base : Tree) (arguments : List Tree)
  | aggregate (elements : List Tree)
  -- These stand between parentheses only.
  | bounds (direction : Direction) (left right : Tree)
  | named (choice value : Tree)
  | others
  | unconnected

inductive Level where
  | expression | relation | shift | simple | term | factor
  deriving DecidableEq

def Level.rank : Level → Nat
  | .expression => 0
  | .relation => 1
  | .shift => 2
  | .simple => 3
  | .term => 4
  | .factor => 5

inductive Category where
  | level (level : Level)
  -- A term with or without a sign.
  | lead
  | primary
  | name
  | choice
  | element
  | actual
  | argument
  | range
  deriving DecidableEq

def Category.rank : Category → Nat
  | .level l => l.rank
  | .lead => Level.term.rank
  | _ => 6

def Level.operand : Level → Category
  | .expression => .level .relation
  | .relation => .level .shift
  | .shift => .level .simple
  | .simple => .level .term
  | .term => .level .factor
  | .factor => .primary

/-- Only the first term of a simple expression takes a sign. -/
def Level.first : Level → Category
  | .simple => .lead
  | l => l.operand

def levelOf : BinaryOp → Level
  | .and | .or | .nand | .nor | .xor | .xnor => .expression
  | .equal | .notEqual | .less | .lessEqual | .greater | .greaterEqual => .relation
  | .sll | .srl | .sla | .sra | .rol | .ror => .shift
  | .plus | .minus | .concat => .simple
  | .times | .divide | .mod | .rem => .term
  | .power => .factor

def Level.Joins : Level → List BinaryOp → Prop
  | .expression, ops =>
      ops.length ≤ 1 ∨ ∃ op ∈ [BinaryOp.and, .or, .xor, .xnor], ∀ other ∈ ops, other = op
  | .relation, ops | .shift, ops | .factor, ops => ops.length ≤ 1
  | .simple, _ | .term, _ => True

abbrev Phrase := List Token × Tree

def listed : List (List Token) → List Token
  | [] => []
  | item :: rest => item ++ rest.flatMap (.symbol .comma :: ·)

def enclosed (ts : List Token) : List Token := .symbol .leftParen :: ts ++ [.symbol .rightParen]

def joined {α : Type} (separator : α → Token) (rest : List (α × Phrase)) : List Token :=
  rest.flatMap fun x => separator x.1 :: x.2.1

def fold (first : Tree) (rest : List (BinaryOp × Phrase)) : Tree :=
  rest.foldl (fun t x => .binary x.1 t x.2.2) first

def literal? : Token → Option Literal
  | .integer n => some (.integer n)
  | .real x => some (.real x)
  | .character c => some (.character c)
  | .string s => some (.string s)
  | .bitString base digits => some (.bitString base digits)
  | .keyword word => if word = "null" then some .null else none
  | _ => none

-- The operators are terminals of the grammar, read off the tokens and not taken from how a tree is
-- written.
def operator? : Token → Option BinaryOp
  | .keyword "and" => some .and
  | .keyword "or" => some .or
  | .keyword "nand" => some .nand
  | .keyword "nor" => some .nor
  | .keyword "xor" => some .xor
  | .keyword "xnor" => some .xnor
  | .symbol .equal => some .equal
  | .symbol .notEqual => some .notEqual
  | .symbol .less => some .less
  | .symbol .lessEqual => some .lessEqual
  | .symbol .greater => some .greater
  | .symbol .greaterEqual => some .greaterEqual
  | .keyword "sll" => some .sll
  | .keyword "srl" => some .srl
  | .keyword "sla" => some .sla
  | .keyword "sra" => some .sra
  | .keyword "rol" => some .rol
  | .keyword "ror" => some .ror
  | .symbol .plus => some .plus
  | .symbol .minus => some .minus
  | .symbol .ampersand => some .concat
  | .symbol .star => some .times
  | .symbol .slash => some .divide
  | .keyword "mod" => some .mod
  | .keyword "rem" => some .rem
  | .symbol .doubleStar => some .power
  | _ => none

def unary? : Token → Option UnaryOp
  | .symbol .plus => some .plus
  | .symbol .minus => some .minus
  | .keyword "abs" => some .abs
  | .keyword "not" => some .not
  | _ => none

def direction? : Token → Option Direction
  | .keyword "to" => some .ascending
  | .keyword "downto" => some .descending
  | _ => none

-- `place` is the level of the expressions that may bound a range or choose an element.
inductive Derives (place : Level) : Category → List Token → Tree → Prop where
  | operation {l : Level} {first : Phrase} {rest : List (BinaryOp × Phrase)}
      {spelled : BinaryOp → Token} (terminals : ∀ x ∈ rest, operator? (spelled x.1) = some x.1)
      (head : Derives place l.first first.1 first.2)
      (operators : ∀ x ∈ rest, levelOf x.1 = l)
      (operands : ∀ x ∈ rest, Derives place l.operand x.2.1 x.2.2)
      (joins : l.Joins (rest.map Prod.fst)) :
      Derives place (.level l) (first.1 ++ joined spelled rest) (fold first.2 rest)
  | unsigned {ts : List Token} {t : Tree} (term : Derives place (.level .term) ts t) :
      Derives place .lead ts t
  | signed {token : Token} {op : UnaryOp} {ts : List Token} {t : Tree}
      (terminal : unary? token = some op) (sign : op = .plus ∨ op = .minus)
      (term : Derives place (.level .term) ts t) :
      Derives place .lead (token :: ts) (.unary op t)
  | prefixed {token : Token} {op : UnaryOp} {ts : List Token} {t : Tree}
      (terminal : unary? token = some op) (word : op = .abs ∨ op = .not)
      (operand : Derives place .primary ts t) :
      Derives place (.level .factor) (token :: ts) (.unary op t)
  | literal {token : Token} {x : Literal} (value : literal? token = some x) :
      Derives place .primary [token] (.literal x)
  | nameOrCall {ts : List Token} {t : Tree} (name : Derives place .name ts t) :
      Derives place .primary ts t
  | parenthesized {ts : List Token} {t : Tree} (inner : Derives place (.level .expression) ts t) :
      Derives place .primary (enclosed ts) t
  | aggregate {items : List Phrase} (nonempty : items ≠ [])
      (elements : ∀ x ∈ items, Derives place .element x.1 x.2)
      -- One element without a choice would be a parenthesized expression.
      (distinct : ∀ x, items = [x] → ∃ choice value, x.2 = .named choice value) :
      Derives place .primary (enclosed (listed (items.map Prod.fst)))
        (.aggregate (items.map Prod.snd))
  | simpleName (i : Ident) : Derives place .name [.ident i] (.ident i)
  | selected {ts : List Token} {t : Tree} (base : Derives place .name ts t) (i : Ident) :
      Derives place .name (ts ++ [.symbol .dot, .ident i]) (.selected t (.simple i))
  | selectedAll {ts : List Token} {t : Tree} (base : Derives place .name ts t) :
      Derives place .name (ts ++ [.symbol .dot, .keyword "all"]) (.selected t .all)
  | attributed {ts : List Token} {t : Tree} (base : Derives place .name ts t) (i : Ident) :
      Derives place .name (ts ++ [.symbol .tick, .ident i]) (.attribute t i)
  | applied {ts : List Token} {t : Tree} {items : List Phrase}
      (base : Derives place .name ts t) (nonempty : items ≠ [])
      (arguments : ∀ x ∈ items, Derives place .argument x.1 x.2) :
      Derives place .name (ts ++ enclosed (listed (items.map Prod.fst)))
        (.applied t (items.map Prod.snd))
  | slice {ts us : List Token} {t u : Tree} (base : Derives place .name ts t)
      (range : Derives place .range us u) :
      Derives place .name (ts ++ enclosed us) (.applied t [u])
  | bounds {token : Token} {d : Direction} {ts us : List Token} {t u : Tree}
      (terminal : direction? token = some d)
      (left : Derives place (.level place) ts t) (right : Derives place (.level place) us u) :
      Derives place .range (ts ++ token :: us) (.bounds d t u)
  | chosen {ts : List Token} {t : Tree} (value : Derives place (.level place) ts t) :
      Derives place .choice ts t
  | others : Derives place .choice [.keyword "others"] .others
  | positional {ts : List Token} {t : Tree} (value : Derives place (.level .expression) ts t) :
      Derives place .element ts t
  | named {ts us : List Token} {t u : Tree} (choice : Derives place .choice ts t)
      (value : Derives place (.level .expression) us u) :
      Derives place .element (ts ++ .symbol .arrow :: us) (.named t u)
  | given {ts : List Token} {t : Tree} (value : Derives place (.level .expression) ts t) :
      Derives place .actual ts t
  | unconnected : Derives place .actual [.keyword "open"] .unconnected
  | actual {ts : List Token} {t : Tree} (value : Derives place .actual ts t) :
      Derives place .argument ts t
  | formal {ts : List Token} {t : Tree} (i : Ident) (value : Derives place .actual ts t) :
      Derives place .argument (.ident i :: .symbol .arrow :: ts) (.named (.ident i) t)

@[simp] theorem operator?_token (op : BinaryOp) : operator? op.token = some op := by
  cases op <;> rfl

theorem operator?_eq_some_iff {token : Token} {op : BinaryOp} :
    operator? token = some op ↔ token = op.token := by
  constructor
  · intro terminal
    unfold operator? at terminal
    split at terminal <;> simp at terminal <;> subst terminal <;> rfl
  · rintro rfl
    exact operator?_token op

theorem unary?_eq_some_iff {token : Token} {op : UnaryOp} :
    unary? token = some op ↔ token = op.token := by
  constructor
  · intro terminal
    unfold unary? at terminal
    split at terminal <;> simp at terminal <;> subst terminal <;> rfl
  · rintro rfl
    cases op <;> rfl

theorem direction?_eq_some_iff {token : Token} {d : Direction} :
    direction? token = some d ↔ token = .keyword d.text := by
  constructor
  · intro terminal
    unfold direction? at terminal
    split at terminal <;> simp at terminal <;> subst terminal <;> rfl
  · rintro rfl
    cases d <;> rfl

theorem joined_terminals {spelled : BinaryOp → Token} {rest : List (BinaryOp × Phrase)}
    (terminals : ∀ x ∈ rest, operator? (spelled x.1) = some x.1) :
    joined spelled rest = joined BinaryOp.token rest := by
  have each : rest.map (fun x => spelled x.1 :: x.2.1) = rest.map fun x => x.1.token :: x.2.1 :=
    List.map_congr_left fun x member => by rw [operator?_eq_some_iff.1 (terminals x member)]
  rw [joined, joined, List.flatMap_def, List.flatMap_def, each]

theorem token_inj {op other : BinaryOp} (same : op.token = other.token) : op = other := by
  have read : some op = some other := by rw [← operator?_token, ← operator?_token, same]
  exact Option.some.inj read

variable {place : Level}

theorem rank_inj {l m : Level} (same : l.rank = m.rank) : l = m := by
  revert same
  cases l <;> cases m <;> decide

theorem joins_short {l : Level} {ops : List BinaryOp} (short : ops.length ≤ 1) : l.Joins ops := by
  cases l with
  | expression => exact .inl short
  | relation | shift | factor => exact short
  | simple | term => trivial

theorem Derives.operators {l : Level} {first : Phrase} {rest : List (BinaryOp × Phrase)}
    (head : Derives place l.first first.1 first.2) (operators : ∀ x ∈ rest, levelOf x.1 = l)
    (operands : ∀ x ∈ rest, Derives place l.operand x.2.1 x.2.2)
    (joins : l.Joins (rest.map Prod.fst)) :
    Derives place (.level l) (first.1 ++ joined BinaryOp.token rest) (fold first.2 rest) :=
  .operation (fun x _ => operator?_token x.1) head operators operands joins

theorem Derives.ofBounds (d : Direction) {ts us : List Token} {t u : Tree}
    (left : Derives place (.level place) ts t) (right : Derives place (.level place) us u) :
    Derives place .range (ts ++ .keyword d.text :: us) (.bounds d t u) :=
  .bounds (direction?_eq_some_iff.2 rfl) left right

theorem Derives.ofFirst {l : Level} {ts : List Token} {t : Tree}
    (head : Derives place l.first ts t) : Derives place (.level l) ts t := by
  have alone := @Derives.operators place l (ts, t) [] head (by simp) (by simp)
    (joins_short (by simp))
  simpa [joined, fold] using alone

theorem Derives.toFirst {l : Level} {ts : List Token} {t : Tree}
    (operand : Derives place l.operand ts t) : Derives place l.first ts t := by
  cases l with
  | simple => exact .unsigned operand
  | expression | relation | shift | term | factor => exact operand

theorem Derives.ofOperand {l : Level} {ts : List Token} {t : Tree}
    (operand : Derives place l.operand ts t) : Derives place (.level l) ts t :=
  operand.toFirst.ofFirst

theorem Derives.pair {l : Level} {op : BinaryOp} {ts us : List Token} {t u : Tree}
    (left : Derives place l.operand ts t) (right : Derives place l.operand us u)
    (level : levelOf op = l) :
    Derives place (.level l) (ts ++ op.token :: us) (.binary op t u) := by
  have joined := @Derives.operators place l (ts, t) [(op, (us, u))] left.toFirst
    (by simpa using level)
    (by simpa using right) (joins_short (by simp))
  simpa [Grammar.joined, fold] using joined

theorem Derives.ofPrimary {ts : List Token} {t : Tree} (primary : Derives place .primary ts t)
    (l : Level) : Derives place (.level l) ts t := by
  have factor : Derives place (.level .factor) ts t := .ofOperand primary
  have term : Derives place (.level .term) ts t := .ofOperand factor
  have simple : Derives place (.level .simple) ts t := .ofOperand term
  have shift : Derives place (.level .shift) ts t := .ofOperand simple
  have relation : Derives place (.level .relation) ts t := .ofOperand shift
  cases l with
  | expression => exact .ofOperand relation
  | relation => exact relation
  | shift => exact shift
  | simple => exact simple
  | term => exact term
  | factor => exact factor

theorem Derives.widen {l m : Level} {ts : List Token} {t : Tree}
    (derivation : Derives place (.level l) ts t) (ranks : m.rank ≤ l.rank) :
    Derives place (.level m) ts t := by
  -- A phrase of a tighter level is one of each looser level.
  obtain ⟨gap, distance⟩ := Nat.exists_eq_add_of_le ranks
  induction gap generalizing m with
  | zero => exact rank_inj distance ▸ derivation
  | succ gap ih =>
    apply Derives.ofOperand
    cases m with
    | factor =>
      have bounded : l.rank ≤ 5 := by cases l <;> simp [Level.rank]
      simp only [Level.rank] at distance bounded
      omega
    | expression | relation | shift | simple | term =>
      exact ih (by simp only [Level.rank] at distance ⊢; omega)
        (by simp only [Level.rank] at distance ⊢; omega)

end Vhdl93.Grammar
