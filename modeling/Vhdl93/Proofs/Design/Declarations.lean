import Vhdl93.Proofs.Design.Decoding

set_option autoImplicit false

namespace Vhdl93

open Lexer

variable {rules : Rules} {t t' : List Lexeme}

theorem Mode.text_injective {m m' : Mode} (same : m.text = m'.text) : m = m' := by
  cases m <;> cases m' <;> first | rfl | exact absurd same (by decide)

theorem ObjectClass.text_injective {c c' : ObjectClass} (same : c.text = c'.text) : c = c' := by
  cases c <;> cases c' <;> first | rfl | exact absurd same (by decide)

theorem Port.lexemes_injective {p q : Port} (same : p.lexemes = q.lexemes) : p = q := by
  obtain ⟨name, mode, mark⟩ := p
  simp only [Port.lexemes, List.cons.injEq, Lexeme.ident.injEq, Lexeme.keyword.injEq, true_and,
    and_true] at same
  simp [same, Mode.text_injective same.2.1]

theorem FunctionParameter.lexemes_injective {p q : FunctionParameter}
    (same : p.lexemes = q.lexemes) : p = q := by
  obtain ⟨name, mark⟩ := p
  simp only [FunctionParameter.lexemes, List.cons.injEq, Lexeme.ident.injEq, true_and,
    and_true] at same
  simp [same]

theorem ProcedureParameter.lexemes_injective {p q : ProcedureParameter}
    (same : p.lexemes = q.lexemes) : p = q := by
  obtain ⟨kind, name, mode, mark⟩ := p
  simp only [ProcedureParameter.lexemes, List.cons.injEq, Lexeme.ident.injEq, Lexeme.keyword.injEq,
    true_and, and_true] at same
  simp [same, ObjectClass.text_injective same.1, Mode.text_injective same.2.2.1]

def parameterStops : List Lexeme := [.delimiter ";"]

theorem Port.item (p : Port) : Item parameterStops p.lexemes :=
  ⟨⟨.flat (by simp [Port.lexemes, parameterStops]), by simp [Port.lexemes, Lexeme.isBlank]⟩, by simp [Port.lexemes]⟩

theorem FunctionParameter.item (p : FunctionParameter) : Item parameterStops p.lexemes :=
  ⟨⟨.flat (by simp [FunctionParameter.lexemes, parameterStops]),
    by simp [FunctionParameter.lexemes, Lexeme.isBlank]⟩, by simp [FunctionParameter.lexemes]⟩

theorem ProcedureParameter.item (p : ProcedureParameter) : Item parameterStops p.lexemes :=
  ⟨⟨.flat (by simp [ProcedureParameter.lexemes, parameterStops]),
    by simp [ProcedureParameter.lexemes, Lexeme.isBlank]⟩, by simp [ProcedureParameter.lexemes]⟩

theorem Spec.parameters_cut {α : Type} {f : α → List Lexeme} {xs ys : List α}
    (each : ∀ x, Item parameterStops (f x)) (faithful : ∀ x y, f x = f y → x = y)
    (same : Spec.parameterLexemes (xs.map f) ++ t = Spec.parameterLexemes (ys.map f) ++ t') :
    xs = ys ∧ t = t' := by
  simp only [Spec.parameterLexemes, List.cons_append, List.append_assoc, List.cons.injEq,
    true_and] at same
  have items (zs : List α) : ∀ x ∈ zs.map f, Item parameterStops x := by
    simpa using fun z _ => each z
  obtain ⟨items, behind⟩ := separated_cut (fun _ => rfl) (items xs) (items ys) ⟨rfl, by simp⟩
    ⟨rfl, by simp⟩ same
  have equal := map_of_map (g := id) (fun x _ y _ => faithful x y) items
  exact ⟨by simpa using equal, by simpa using behind⟩

def Unopened (r : List Lexeme) : Prop := r.head? ≠ some (.delimiter "(")

theorem Spec.optional_cut {α : Type} {f : α → List Lexeme} {xs ys : List α}
    (each : ∀ x, Item parameterStops (f x)) (faithful : ∀ x y, f x = f y → x = y)
    (ends : Unopened t) (ends' : Unopened t')
    (same : (if xs.isEmpty then [] else Spec.parameterLexemes (xs.map f)) ++ t =
      (if ys.isEmpty then [] else Spec.parameterLexemes (ys.map f)) ++ t') : xs = ys ∧ t = t' := by
  -- Without parameters there are no parentheses.
  cases xs with
  | nil =>
    cases ys with
    | nil => exact ⟨rfl, by simpa using same⟩
    | cons y ys =>
      refine absurd ?_ ends
      have first : t = Spec.parameterLexemes ((y :: ys).map f) ++ t' := by simpa using same
      rw [first]
      rfl
  | cons x xs =>
    cases ys with
    | nil =>
      refine absurd ?_ ends'
      have first : Spec.parameterLexemes ((x :: xs).map f) ++ t = t' := by simpa using same
      rw [← first]
      rfl
    | cons y ys => exact Spec.parameters_cut each faithful same

theorem Spec.reads (s s' : Spec) : Reads Unopened Spec.lexemes id s s' := by
  intro r r' ends ends' same
  cases s with
  | function name ps result =>
    cases s' with
    | function name' ps' result' =>
      simp only [Spec.lexemes, List.cons_append, List.append_assoc, List.nil_append,
        List.cons.injEq, Lexeme.ident.injEq, true_and] at same
      obtain ⟨rfl, same⟩ := same
      obtain ⟨rfl, behind⟩ := Spec.optional_cut FunctionParameter.item
        (fun _ _ => FunctionParameter.lexemes_injective) (by simp [Unopened])
          (by simp [Unopened]) same
      simp only [List.cons.injEq, Lexeme.ident.injEq, true_and] at behind
      exact ⟨by rw [behind.1], behind.2⟩
    | procedure => simp [Spec.lexemes] at same
  | procedure name ps =>
    cases s' with
    | function => simp [Spec.lexemes] at same
    | procedure name' ps' =>
      simp only [Spec.lexemes, List.cons_append, List.cons.injEq, Lexeme.ident.injEq,
        true_and] at same
      obtain ⟨rfl, same⟩ := same
      obtain ⟨rfl, behind⟩ := Spec.optional_cut ProcedureParameter.item
        (fun _ _ => ProcedureParameter.lexemes_injective) ends ends' same
      exact ⟨rfl, behind⟩

theorem ObjectDecl.value_cut {v v' : Option Expr} (ok : v.all (Expr.passes rules.design) = true)
    (ok' : v'.all (Expr.passes rules.design) = true)
    (same : ObjectDecl.valueLexemes v ++ .delimiter ";" :: t = ObjectDecl.valueLexemes v' ++
      .delimiter ";" :: t') : v.map Expr.quoted = v'.map Expr.quoted ∧ t = t' := by
  cases v with
  | none =>
    cases v' with
    | none => exact ⟨rfl, by simpa [ObjectDecl.valueLexemes] using same⟩
    | some e' => simp [ObjectDecl.valueLexemes] at same
  | some e =>
    cases v' with
    | none => simp [ObjectDecl.valueLexemes] at same
    | some e' =>
      simp only [ObjectDecl.valueLexemes, List.cons_append, List.cons.injEq, true_and] at same
      obtain ⟨value, behind⟩ := Expr.cut ok ok' same rfl rfl
      exact ⟨by simp [value], by simpa using behind⟩

theorem ObjectDecl.cut {kind kind' : ObjectClass} {d d' : ObjectDecl}
    (ok : d.passes rules.design = true) (ok' : d'.passes rules.design = true)
    (same : d.lexemes kind ++ t = d'.lexemes kind' ++ t') :
    kind = kind' ∧ d.skeleton = d'.skeleton ∧ t = t' := by
  obtain ⟨name, mark, value⟩ := d
  obtain ⟨name', mark', value'⟩ := d'
  simp only [ObjectDecl.passes, Bool.and_eq_true] at ok ok'
  simp only [ObjectDecl.lexemes, List.cons_append, List.append_assoc, List.nil_append,
    List.cons.injEq, Lexeme.keyword.injEq, Lexeme.ident.injEq, true_and] at same
  obtain ⟨words, rfl, same⟩ := same
  have ends (v : Option Expr) (r : List Lexeme) :
      stopped stops (ObjectDecl.valueLexemes v ++ .delimiter ";" :: r) = true := by
    cases v <;> rfl
  obtain ⟨subtypes, same⟩ := SubtypeIndication.cut ok.1.2 ok'.1.2 same (ends value _)
    (ends value' _)
  obtain ⟨values, behind⟩ := ObjectDecl.value_cut ok.2 ok'.2 same
  exact ⟨ObjectClass.text_injective words, by simp [ObjectDecl.skeleton, subtypes, values], behind⟩

theorem SubtypeDecl.reads {d d' : SubtypeDecl} (ok : d.passes rules.design = true)
    (ok' : d'.passes rules.design = true) :
    Reads Anything SubtypeDecl.lexemes SubtypeDecl.skeleton d d' := by
  obtain ⟨name, mark⟩ := d
  obtain ⟨name', mark'⟩ := d'
  intro r r' _ _ same
  simp only [SubtypeDecl.passes, Bool.and_eq_true] at ok ok'
  simp only [SubtypeDecl.lexemes, List.cons_append, List.append_assoc, List.nil_append,
    List.cons.injEq, Lexeme.ident.injEq, true_and] at same
  obtain ⟨rfl, same⟩ := same
  obtain ⟨subtypes, behind⟩ := SubtypeIndication.cut ok.2 ok'.2 same rfl rfl
  exact ⟨by simp [SubtypeDecl.skeleton, subtypes], by simpa using behind⟩

theorem EnumLiteral.lexeme_injective {l l' : EnumLiteral} (same : l.lexeme = l'.lexeme) :
    l = l' := by
  cases l <;> cases l' <;> simp_all [EnumLiteral.lexeme]

theorem EnumLiteral.item (l : EnumLiteral) : Item associationStops [l.lexeme] := by
  cases l <;> exact ⟨.single (by simp [EnumLiteral.lexeme, associationStops])
    (by simp [EnumLiteral.lexeme]) rfl, by simp⟩

theorem Ident.unbounded_item (i : Ident) : Item associationStops i.unboundedLexemes :=
  ⟨⟨.flat (by simp [Ident.unboundedLexemes, associationStops]), by simp [Ident.unboundedLexemes, Lexeme.isBlank]⟩,
    by simp [Ident.unboundedLexemes]⟩

theorem FieldDecl.reads (f f' : FieldDecl) : Reads Anything FieldDecl.lexemes id f f' := by
  intro r r' _ _ same
  obtain ⟨name, mark⟩ := f
  simp only [FieldDecl.lexemes, List.cons_append, List.nil_append, List.cons.injEq,
    Lexeme.ident.injEq, true_and] at same
  simp [same]

theorem Range.ne_unbounded {r : Range} {i : Ident} (ok : r.passes rules.design = true) :
    r.pieces.lexemes ≠ i.unboundedLexemes := by
  -- A range does not end with a box, so bounds are not read as an index without bounds.
  intro same
  obtain ⟨l, last, ends⟩ := (r.phrase ok).ends
  rw [same] at last
  obtain rfl : .delimiter "<>" = l := by simpa [Ident.unboundedLexemes] using last
  simp [Lexeme.endsOperand, Lexeme.endsName] at ends

theorem TypeDef.array_cut {xs ys : List (List Lexeme)} {i j : Ident}
    (each : ∀ x ∈ xs, Item associationStops x) (each' : ∀ y ∈ ys, Item associationStops y)
    (same : TypeDef.arrayLexemes xs i ++ t = TypeDef.arrayLexemes ys j ++ t') :
    xs = ys ∧ i = j ∧ t = t' := by
  simp only [TypeDef.arrayLexemes, List.cons_append, List.append_assoc, List.nil_append,
    List.cons.injEq, true_and] at same
  obtain ⟨items, behind⟩ := enlisted_cut each each' same
  simp only [List.cons.injEq, Lexeme.ident.injEq, true_and] at behind
  exact ⟨items, behind⟩

theorem Range.items {rs : List Range} (ok : ∀ r ∈ rs, r.passes rules.design = true) :
    ∀ x ∈ rs.map (fun r => r.pieces.lexemes), Item associationStops x := by
  simpa using fun r member => (Range.item (ok r member)).mono (by decide)

theorem Ident.unbounded_items (is : List Ident) :
    ∀ x ∈ is.map Ident.unboundedLexemes, Item associationStops x := by
  simpa using fun i _ => i.unbounded_item

theorem TypeDef.unconstrained_ne {is : List Ident} {rs : List Range}
    {element element' : Ident}
    (ok : (TypeDef.unconstrainedArray is element).passes rules.design = true)
    (ok' : (TypeDef.constrainedArray rs element').passes rules.design = true) :
    (TypeDef.unconstrainedArray is element).lexemes ++ t ≠
      (TypeDef.constrainedArray rs element').lexemes ++ t' := by
  intro same
  simp only [TypeDef.passes, Bool.and_eq_true, List.all_eq_true] at ok ok'
  obtain ⟨items, -, -⟩ :=
    TypeDef.array_cut (Ident.unbounded_items is) (Range.items ok'.1.2) same
  cases is with
  | nil => simp [Rules.checks] at ok
  | cons i is =>
    cases rs with
    | nil => cases items
    | cons q rs =>
      exact Range.ne_unbounded (ok'.1.2 q List.mem_cons_self) (List.cons.inj items).1.symm

theorem TypeDef.reads {d d' : TypeDef} (ok : d.passes rules.design = true)
    (ok' : d'.passes rules.design = true) :
    Reads Anything TypeDef.lexemes TypeDef.skeleton d d' := by
  intro r r' _ _ same
  cases d with
  | enumeration ls =>
    cases d' with
    | enumeration ls' =>
      simp only [TypeDef.lexemes, List.append_assoc] at same
      have items (ls : List EnumLiteral) :
          ∀ x ∈ ls.map (fun l => [l.lexeme]), Item associationStops x := by
        simpa using fun l _ => l.item
      obtain ⟨literals, behind⟩ := enlisted_cut (items ls) (items ls') same
      have equal := map_of_map (g := id) (fun l _ l' _ same => EnumLiteral.lexeme_injective
        (List.cons.inj same).1) literals
      exact ⟨by simpa [TypeDef.skeleton] using equal, by simpa using behind⟩
    | integer | unconstrainedArray | constrainedArray | record =>
      simp [TypeDef.lexemes, enlisted, TypeDef.arrayLexemes, block] at same
  | integer q =>
    cases d' with
    | integer q' =>
      simp only [TypeDef.lexemes, List.cons_append, List.append_assoc, List.cons.injEq,
        true_and] at same
      obtain ⟨range, behind⟩ := Range.cut ok ok' same rfl rfl
      exact ⟨by simp [TypeDef.skeleton, range], by simpa using behind⟩
    | enumeration | unconstrainedArray | constrainedArray | record =>
      simp [TypeDef.lexemes, enlisted, TypeDef.arrayLexemes, block] at same
  | unconstrainedArray is element =>
    cases d' with
    | unconstrainedArray is' element' =>
      obtain ⟨items, rfl, behind⟩ :=
        TypeDef.array_cut (Ident.unbounded_items is) (Ident.unbounded_items is') same
      have equal := map_of_map (g := id)
        (fun i _ j _ same => by simpa [Ident.unboundedLexemes] using same) items
      exact ⟨by simpa [TypeDef.skeleton] using equal, behind⟩
    | constrainedArray => exact absurd same (TypeDef.unconstrained_ne ok ok')
    | enumeration | integer | record =>
      simp [TypeDef.lexemes, enlisted, TypeDef.arrayLexemes, block] at same
  | constrainedArray rs element =>
    cases d' with
    | constrainedArray rs' element' =>
      simp only [TypeDef.passes, Bool.and_eq_true, List.all_eq_true] at ok ok'
      obtain ⟨items, rfl, behind⟩ :=
        TypeDef.array_cut (Range.items ok.1.2) (Range.items ok'.1.2) same
      have quoted : rs.map Range.quoted = rs'.map Range.quoted := by
        refine map_of_map (fun q _ q' _ same => ?_) items
        simp [Range.quoted, Range.text, Pieces.text_of_lexemes same]
      exact ⟨by simp [TypeDef.skeleton, quoted], behind⟩
    | unconstrainedArray => exact absurd same.symm (TypeDef.unconstrained_ne ok' ok)
    | enumeration | integer | record =>
      simp [TypeDef.lexemes, enlisted, TypeDef.arrayLexemes, block] at same
  | record fs =>
    cases d' with
    | record fs' =>
      simp only [TypeDef.lexemes, block, List.cons_append, List.nil_append, List.append_assoc,
        List.cons.injEq, true_and] at same
      obtain ⟨fields, behind⟩ := lines_cut isInner same (fun f _ f' _ => f.reads f')
        (fun _ _ => rfl) (fun _ _ => rfl)
        (fun _ => trivial) (fun _ => trivial) rfl rfl
      exact ⟨by simpa [TypeDef.skeleton] using fields, by simpa [ending] using behind⟩
    | enumeration | integer | unconstrainedArray | constrainedArray =>
      simp [TypeDef.lexemes, enlisted, TypeDef.arrayLexemes, block] at same

theorem TypeDecl.reads {d d' : TypeDecl} (ok : d.passes rules.design = true)
    (ok' : d'.passes rules.design = true) :
    Reads Anything TypeDecl.lexemes TypeDecl.skeleton d d' := by
  obtain ⟨name, definition⟩ := d
  obtain ⟨name', definition'⟩ := d'
  intro r r' _ _ same
  simp only [TypeDecl.passes, Bool.and_eq_true] at ok ok'
  simp only [TypeDecl.lexemes, List.cons_append, List.cons.injEq, Lexeme.ident.injEq,
    true_and] at same
  obtain ⟨rfl, same⟩ := same
  obtain ⟨definitions, behind⟩ := TypeDef.reads ok.2 ok'.2 r r' trivial trivial same
  exact ⟨by simp [TypeDecl.skeleton, definitions], behind⟩

def Declared.passes (c : Checks) : Declared → Bool
  | .object _ d => d.passes c
  | .type d => d.passes c
  | .subtype d => d.passes c
  | .spec s => s.passes c
  | .body b => b.passes c

def Declared.skeleton : Declared → Declared
  | .object kind d => .object kind d.skeleton
  | .type d => .type d.skeleton
  | .subtype d => .subtype d.skeleton
  | .spec s => .spec s
  | .body b => .body b.skeleton

def Declared.lead : Declared → String
  | .object kind _ => kind.text
  | .type _ => "type"
  | .subtype _ => "subtype"
  | .spec s | .body (.mk s _ _) => s.word

theorem Declared.head_lexemes (d : Declared) : ∃ tail, d.lexemes = .keyword d.lead :: tail := by
  cases d with
  | object | type | subtype => exact ⟨_, rfl⟩
  | spec s => cases s <;> exact ⟨_, rfl⟩
  | body b =>
    obtain ⟨s, items, body⟩ := b
    cases s <;> exact ⟨_, rfl⟩

theorem Declared.lead_eq {d d' : Declared} (same : d.lexemes ++ t = d'.lexemes ++ t') :
    d.lead = d'.lead := by
  obtain ⟨tail, head⟩ := d.head_lexemes
  obtain ⟨tail', head'⟩ := d'.head_lexemes
  rw [head, head'] at same
  simpa using (List.cons.inj same).1

/-- What the first word of a declaration tells of it; a specification and a body start alike. -/
inductive Opening where
  | object
  | type
  | subtype
  | subprogram

def Opening.ofWord (word : String) : Opening :=
  if word = "type" then .type
  else if word = "subtype" then .subtype
  else if word = "function" ∨ word = "procedure" then .subprogram
  else .object

def Declared.opening : Declared → Opening
  | .object _ _ => .object
  | .type _ => .type
  | .subtype _ => .subtype
  | .spec _ | .body _ => .subprogram

theorem Spec.ofWord_word (s : Spec) : Opening.ofWord s.word = .subprogram := by
  cases s <;> rfl

theorem Declared.ofWord_lead (d : Declared) : Opening.ofWord d.lead = d.opening := by
  cases d with
  | object kind => cases kind <;> rfl
  | type | subtype => rfl
  | spec s => exact s.ofWord_word
  | body b =>
    obtain ⟨s, items, body⟩ := b
    exact s.ofWord_word

theorem Declared.opening_eq {d d' : Declared} (same : d.lexemes ++ t = d'.lexemes ++ t') :
    d.opening = d'.opening := by
  rw [← d.ofWord_lead, ← d'.ofWord_lead, Declared.lead_eq same]

def isDeclared (word : Option String) : Bool :=
  [some "signal", some "constant", some "variable", some "type", some "subtype", some "function",
    some "procedure"].contains word

theorem Declared.led_lexemes (d : Declared) : led isDeclared d.lexemes = true := by
  obtain ⟨tail, head⟩ := d.head_lexemes
  rw [head]
  show isDeclared (some d.lead) = true
  cases d with
  | object kind => cases kind <;> rfl
  | type | subtype => rfl
  | spec s => cases s <;> rfl
  | body b =>
    obtain ⟨s, items, body⟩ := b
    cases s <;> rfl

theorem declared_cut {α β : Type} {declared : α → Declared} {g : α → β} {is is' : List α}
    (each : ∀ i ∈ is, ∀ i' ∈ is', Reads Anything (fun i => (declared i).lexemes) g i i')
    (ends : led isDeclared t.tail = false) (ends' : led isDeclared t'.tail = false)
    (same : lines (is.map fun i => (declared i).lexemes) ++ t =
      lines (is'.map fun i => (declared i).lexemes) ++ t') : is.map g = is'.map g ∧ t = t' :=
  lines_cut isDeclared same each (fun i _ => (declared i).led_lexemes)
    (fun i _ => (declared i).led_lexemes) (fun _ => trivial) (fun _ => trivial) ends ends'

theorem region_cut {α β : Type} {declared : α → Declared} {g : α → β} {is is' : List α}
    {body body' : List Sequential} {closing : List String}
    (each : ∀ i ∈ is, ∀ i' ∈ is', Reads Anything (fun i => (declared i).lexemes) g i i')
    (ok : ∀ s ∈ body, s.passes rules.design = true)
    (ok' : ∀ s ∈ body', s.passes rules.design = true)
    (same : lines (is.map fun i => (declared i).lexemes) ++ .white " " ::
      (block [.keyword "begin"] (body.map Sequential.lexemes) closing ++ t) =
      lines (is'.map fun i => (declared i).lexemes) ++ .white " " ::
      (block [.keyword "begin"] (body'.map Sequential.lexemes) closing ++ t')) :
    is.map g = is'.map g ∧ body.map Sequential.skeleton = body'.map Sequential.skeleton ∧
      t = t' := by
  obtain ⟨items, same⟩ := declared_cut each rfl rfl same
  simp only [block, List.cons_append, List.nil_append, List.append_assoc, List.cons.injEq,
    true_and] at same
  obtain ⟨statements, same⟩ := Sequential.body_cut (fun s _ => s.reads) ok ok' same rfl rfl
  exact ⟨items, statements, by simpa using same⟩

theorem Spec.ne_body {s : Spec} {b : SubprogramBody} :
    (Declared.spec s).lexemes ++ t ≠ (Declared.body b).lexemes ++ t' := by
  -- A specification without a body ends with a semicolon at once.
  obtain ⟨s', items, body⟩ := b
  intro same
  simp only [Declared.lexemes, SubprogramBody.lexemes, region, List.append_assoc, List.cons_append,
    List.nil_append] at same
  have behind := (Spec.reads s s' _ _ (by simp [Unopened]) (by simp [Unopened]) same).2
  simp at behind

theorem Declared.reads {d d' : Declared} (ok : d.passes rules.design = true)
    (ok' : d'.passes rules.design = true)
    (inside : ∀ b b', d = .body b → b'.passes rules.design = true →
      Reads Anything SubprogramBody.lexemes SubprogramBody.skeleton b b') :
    Reads Anything Declared.lexemes Declared.skeleton d d' := by
  intro r r' _ _ same
  have opening := Declared.opening_eq same
  cases d with
  | object kind d =>
    cases d' with
    | object kind' d' =>
      obtain ⟨rfl, decls, behind⟩ := ObjectDecl.cut ok ok' same
      exact ⟨by simp [Declared.skeleton, decls], behind⟩
    | type | subtype | spec | body => cases opening
  | type d =>
    cases d' with
    | type d' =>
      obtain ⟨decls, behind⟩ := TypeDecl.reads ok ok' r r' trivial trivial same
      exact ⟨by simp [Declared.skeleton, decls], behind⟩
    | object | subtype | spec | body => cases opening
  | subtype d =>
    cases d' with
    | subtype d' =>
      obtain ⟨decls, behind⟩ := SubtypeDecl.reads ok ok' r r' trivial trivial same
      exact ⟨by simp [Declared.skeleton, decls], behind⟩
    | object | type | spec | body => cases opening
  | spec s =>
    cases d' with
    | spec s' =>
      simp only [Declared.lexemes, List.append_assoc, List.cons_append, List.nil_append] at same
      obtain ⟨specs, behind⟩ := Spec.reads s s' _ _ (by simp [Unopened]) (by simp [Unopened]) same
      obtain rfl : s = s' := specs
      exact ⟨rfl, by simpa using behind⟩
    | body b' => exact absurd same Spec.ne_body
    | object | type | subtype => cases opening
  | body b =>
    cases d' with
    | body b' =>
      obtain ⟨bodies, behind⟩ := inside b b' rfl ok' r r' trivial trivial same
      exact ⟨by simp [Declared.skeleton, bodies], behind⟩
    | spec s' => exact absurd same.symm Spec.ne_body
    | object | type | subtype => cases opening

theorem SubprogramItem.passes_declared (c : Checks) (i : SubprogramItem) :
    i.declared.passes c = i.passes c := by
  cases i <;> simp [SubprogramItem.declared, Declared.passes, SubprogramItem.passes]

theorem SubprogramItem.of_declared_body {i : SubprogramItem} {b : SubprogramBody}
    (origin : i.declared = .body b) : i = .subprogram b := by
  cases i with
  | variableDecl | constantDecl => cases origin
  | subprogram => rw [Declared.body.inj origin]

theorem SubprogramItem.skeleton_declared {i i' : SubprogramItem}
    (same : i.declared.skeleton = i'.declared.skeleton) : i.skeleton = i'.skeleton := by
  cases i <;> cases i' <;> simp_all [SubprogramItem.declared, Declared.skeleton,
    SubprogramItem.skeleton]

theorem SubprogramBody.reads (b : SubprogramBody) :
    ∀ b' : SubprogramBody, b.passes rules.design = true →
    b'.passes rules.design = true → Reads Anything SubprogramBody.lexemes SubprogramBody.skeleton b
    b' := by
  induction b using SubprogramBody.induction with
  | mk spec items body inside =>
    rintro ⟨spec', items', body'⟩ ok ok' r r' - - same
    simp only [SubprogramBody.passes, SubprogramItem.passesAll_eq_all, Bool.and_eq_true,
      List.all_eq_true] at ok ok'
    simp only [SubprogramBody.lexemes, region, SubprogramItem.lexemesAll_eq_map, List.append_assoc,
      List.cons_append, List.nil_append] at same
    obtain ⟨specs, same⟩ := Spec.reads spec spec' _ _ (by simp [Unopened]) (by simp [Unopened]) same
    obtain rfl : spec = spec' := specs
    simp only [List.cons.injEq, true_and] at same
    have each : ∀ i ∈ items, ∀ i' ∈ items',
        Reads Anything (fun i => i.declared.lexemes) SubprogramItem.skeleton i i' := by
      intro i member i' member' r r' _ _ same
      have passes := (i.passes_declared rules.design).trans (ok.1.2 i member)
      have passes' := (i'.passes_declared rules.design).trans (ok'.1.2 i' member')
      have nested (b b' : SubprogramBody) (origin : i.declared = .body b)
          (ok' : b'.passes rules.design = true) :
          Reads Anything SubprogramBody.lexemes SubprogramBody.skeleton b b' := by
        obtain rfl := SubprogramItem.of_declared_body origin
        exact inside b member b' passes ok'
      obtain ⟨skeletons, behind⟩ := Declared.reads passes passes' nested r r' trivial trivial same
      exact ⟨SubprogramItem.skeleton_declared skeletons, behind⟩
    obtain ⟨declared, statements, behind⟩ := region_cut each ok.2 ok'.2 same
    exact ⟨by simp [SubprogramBody.skeleton, declared, statements], behind⟩

theorem Declared.item_reads {α β : Type} {declared : α → Declared} {g : α → β} {x y : α}
    (ok : (declared x).passes rules.design = true) (ok' : (declared y).passes rules.design = true)
    (erases : (declared x).skeleton = (declared y).skeleton → g x = g y) :
    Reads Anything (fun x => (declared x).lexemes) g x y := by
  intro r r' _ _ same
  have inside (b b' : SubprogramBody) (origin : declared x = .body b)
      (ok' : b'.passes rules.design = true) :
      Reads Anything SubprogramBody.lexemes SubprogramBody.skeleton b b' := by
    rw [origin] at ok
    exact b.reads b' ok ok'
  obtain ⟨skeletons, behind⟩ := Declared.reads ok ok' inside r r' trivial trivial same
  exact ⟨erases skeletons, behind⟩

theorem SubprogramItem.reads {i i' : SubprogramItem} (ok : i.passes rules.design = true)
    (ok' : i'.passes rules.design = true) :
    Reads Anything (fun i => i.declared.lexemes) SubprogramItem.skeleton i i' :=
  Declared.item_reads ((i.passes_declared _).trans ok) ((i'.passes_declared _).trans ok')
    SubprogramItem.skeleton_declared

theorem PackageItem.passes_declared (c : Checks) (i : PackageItem) :
    i.declared.passes c = i.passes c := by
  cases i <;> rfl

theorem PackageItem.reads {i i' : PackageItem} (ok : i.passes rules.design = true)
    (ok' : i'.passes rules.design = true) :
    Reads Anything (fun i => i.declared.lexemes) PackageItem.skeleton i i' := by
  refine Declared.item_reads ((i.passes_declared _).trans ok) ((i'.passes_declared _).trans ok') ?_
  intro same
  cases i <;> cases i' <;> simp_all [PackageItem.declared, Declared.skeleton, PackageItem.skeleton]

theorem PackageBodyItem.passes_declared (c : Checks) (i : PackageBodyItem) :
    i.declared.passes c = i.passes c := by
  cases i <;> rfl

theorem PackageBodyItem.reads {i i' : PackageBodyItem} (ok : i.passes rules.design = true)
    (ok' : i'.passes rules.design = true) :
    Reads Anything (fun i => i.declared.lexemes) PackageBodyItem.skeleton i i' := by
  refine Declared.item_reads ((i.passes_declared _).trans ok) ((i'.passes_declared _).trans ok') ?_
  intro same
  cases i <;> cases i' <;> simp_all [PackageBodyItem.declared, Declared.skeleton,
    PackageBodyItem.skeleton]

theorem BlockItem.passes_declared (c : Checks) (i : BlockItem) :
    i.declared.passes c = i.passes c := by
  cases i <;> rfl

theorem BlockItem.reads {i i' : BlockItem} (ok : i.passes rules.design = true)
    (ok' : i'.passes rules.design = true) :
    Reads Anything (fun i => i.declared.lexemes) BlockItem.skeleton i i' := by
  refine Declared.item_reads ((i.passes_declared _).trans ok) ((i'.passes_declared _).trans ok') ?_
  intro same
  cases i <;> cases i' <;> simp_all [BlockItem.declared, Declared.skeleton, BlockItem.skeleton]

end Vhdl93
