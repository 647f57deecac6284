import Vhdl93.Proofs.Grammar.Scanned

set_option autoImplicit false

namespace Vhdl93

open Grammar Lexer

def Expr.isUnsigned : Expr → Bool
  | .name _ => true
  | .literal (.real x) => !x.negative
  | .literal _ => true
  | _ => false

def Expr.chain (first : Expr) (rest : List (BinaryOp × Expr)) : Expr :=
  rest.foldl (fun e x => .binary x.1 e x.2) first

theorem Expr.leadingOp?_of_isUnsigned {e : Expr} (plain : e.isUnsigned = true) :
    IsOperand e ∧ e.leadingOp? = none := by
  cases e with
  | name n => simp [IsOperand, Expr.leadingOp?]
  | literal x =>
    cases x with
    | real x => simpa [IsOperand, Expr.leadingOp?, Expr.isUnsigned] using plain
    | integer | character | string | bitString | null => simp [IsOperand, Expr.leadingOp?]
  | binary | unary | call | aggregate => simp [Expr.isUnsigned] at plain

def Chains (ops : List BinaryOp) : Prop :=
  (∀ op ∈ ops, op.tier = .adding) ∨ (∀ op ∈ ops, op.tier = .multiplying) ∨
    ∃ op ∈ [BinaryOp.and, .or, .xor, .xnor], ∀ other ∈ ops, other = op

theorem Chains.chainsWith {ops : List BinaryOp} {inner op : BinaryOp} (chains : Chains ops)
    (inside : inner ∈ ops) (outside : op ∈ ops) : op.chainsWith inner = true := by
  rcases chains with adding | multiplying | ⟨same, repeats, all⟩
  · simp [BinaryOp.chainsWith, adding op outside, adding inner inside]
  · simp [BinaryOp.chainsWith, multiplying op outside, multiplying inner inside]
  · have alone : ∀ op ∈ [BinaryOp.and, .or, .xor, .xnor], op.chainsWith op = true := by decide
    rw [all op outside, all inner inside]
    exact alone same repeats

theorem BinaryOp.parenthesizesLeft_of_chainsWith {op inner : BinaryOp}
    (chains : op.chainsWith inner = true) (l r : Expr) :
    op.parenthesizesLeft (.binary inner l r) = false := by
  have tiers : op.tier = inner.tier := by
    simp only [BinaryOp.chainsWith, Bool.and_eq_true, decide_eq_true_eq] at chains
    exact chains.1
  simp [BinaryOp.parenthesizesLeft, BinaryOp.precedence, tiers, chains]

theorem Expr.bare_of_isUnsigned {e : Expr} (plain : e.isUnsigned = true) (op : BinaryOp) :
    op.parenthesizesLeft e = false ∧ op.parenthesizesRight e = false := by
  obtain ⟨operand, leading⟩ := leadingOp?_of_isUnsigned plain
  rw [parenthesizesLeft_operand op operand, parenthesizesRight_operand op operand, leading]
  exact ⟨rfl, rfl⟩

theorem Chains.tail {op : BinaryOp} {ops : List BinaryOp} (chains : Chains (op :: ops)) :
    Chains ops := by
  simp only [Chains, List.forall_mem_cons] at chains
  exact chains.imp And.right (.imp And.right fun ⟨same, repeats, all⟩ => ⟨same, repeats, all.2⟩)

theorem Expr.pieces_chain {first : Expr} {rest : List (BinaryOp × Expr)}
    (chains : Chains (rest.map Prod.fst)) (bare : ∀ x ∈ rest, x.1.parenthesizesLeft first = false)
    (plain : ∀ x ∈ rest, x.2.isUnsigned = true) :
    (chain first rest).pieces = first.pieces ++
      rest.flatMap fun x => .blank :: .token x.1.token :: .blank :: x.2.pieces := by
  -- The chain so far is the left operand of the next operator, hence the hypothesis on `first`.
  induction rest generalizing first with
  | nil => simp [chain]
  | cons x rest ih =>
    rw [List.forall_mem_cons] at bare plain
    have later (y : BinaryOp × Expr) (member : y ∈ rest) :
        y.1.parenthesizesLeft (.binary x.1 first x.2) = false := by
      apply BinaryOp.parenthesizesLeft_of_chainsWith
      exact chains.chainsWith (by simp) (List.mem_cons_of_mem _ (List.mem_map_of_mem member))
    have step : (Expr.binary x.1 first x.2).pieces =
        first.pieces ++ .blank :: .token x.1.token :: .blank :: x.2.pieces := by
      simp [Expr.pieces, Pieces.operand, bare.1, (bare_of_isUnsigned plain.1 x.1).2]
    have whole : (chain (.binary x.1 first x.2) rest).pieces = _ := ih chains.tail later plain.2
    rw [chain, List.foldl_cons, ← chain, whole, step]
    simp

/-- No parentheses around an operand can be left out: without one pair, what is left of the tokens
has no derivation that yields the tree they were printed from, whichever level bounds and choices
are taken from, and nor have the tokens that a lexer finds in what is left of the text. Names and
literals without a sign that are joined from the left by adding operators, by multiplying operators
or by one repeated operator get no parentheses. -/
theorem Expr.parentheses_needed (e : Expr) (number : e.passes .numeric = true) :
    (∀ w ∈ e.wrapped, e.pieces = w.whole ∧ ∀ (place : Grammar.Level) (t : Tree),
      (Derives place (.level .expression) w.bare.tokens t → t ≠ e.norm) ∧
      (e.passes (standard.checks fun _ => true) = true → ∀ ts, Scans w.bare.text ts →
        Derives place (.level .expression) ts t → t ≠ e.norm)) ∧
    ∀ (first : Expr) (rest : List (BinaryOp × Expr)), Chains (rest.map Prod.fst) →
      first.isUnsigned = true → (∀ x ∈ rest, x.2.isUnsigned = true) →
      (chain first rest).pieces = first.pieces ++
        rest.flatMap fun x => .blank :: .token x.1.token :: .blank :: x.2.pieces := by
  constructor
  · intro w member
    have spoils := e.spoils number w member
    refine ⟨spoils.whole.symm, fun place t => ⟨?_, ?_⟩⟩
    · rintro derivation rfl
      exact spoils.unread place ⟨_, derivation⟩
    · rintro ok ts scans derivation rfl
      exact spoils.unscanned (e.fenced ok w member) (e.phrase ok).legible scans place
        ⟨_, derivation⟩
  · intro first rest chains plain others
    exact pieces_chain chains (fun x _ => (bare_of_isUnsigned plain x.1).1) others

/-- `-(-a) - (b - c)` is a comment without its first parentheses and another difference without its
second ones; `a + b & c` has none. -/
theorem Expr.parentheses_of_differences :
    let name := fun text => Expr.name (.simple (.basic text))
    let e := Expr.binary .minus (.unary .minus (.unary .minus (name "a")))
      (.binary .minus (name "b") (name "c"))
    e.text = "-(-a) - (b - c)" ∧
      e.wrapped.map (fun w => w.bare.text) = ["--a - (b - c)", "-(-a) - b - c"] ∧
      (∀ w ∈ e.wrapped, ∀ (place : Grammar.Level) (ts : List Token), Scans w.bare.text ts →
        ¬ Derives place (.level .expression) ts e.norm) ∧
      (chain (name "a") [(.plus, name "b"), (.concat, name "c")]).text = "a + b & c" := by
  intro name e
  have number : e.passes .numeric = true := by decide +kernel
  have ok : e.passes (standard.checks fun _ => true) = true := by decide +kernel
  obtain ⟨needed, chained⟩ := Expr.parentheses_needed e number
  refine ⟨by decide +kernel, by decide +kernel, ?_, ?_⟩
  · intro w member place ts scans derivation
    exact ((needed w member).2 place e.norm).2 ok ts scans derivation rfl
  · have pieces := chained (name "a") [(.plus, name "b"), (.concat, name "c")]
      (.inl (by simp [BinaryOp.tier])) rfl (by simp [name, Expr.isUnsigned])
    rw [Expr.text, pieces]
    decide +kernel

end Vhdl93
