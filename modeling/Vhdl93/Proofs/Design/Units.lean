import Vhdl93.Proofs.Design.Declarations

set_option autoImplicit false

namespace Vhdl93

open Lexer

variable {rules : Rules} {t t' : List Lexeme}

theorem Ident.item (i : Ident) : Item associationStops [.ident i] :=
  ⟨.single (by simp [associationStops]) (by simp) rfl, by simp⟩

theorem Declared.lead_ne_port (d : Declared) : d.lead ≠ "port" := by
  cases d with
  | object kind => cases kind <;> simp [Declared.lead, ObjectClass.text]
  | type | subtype => simp [Declared.lead]
  | spec s => cases s <;> simp [Declared.lead, Spec.word]
  | body b =>
    obtain ⟨s, items, body⟩ := b
    cases s <;> simp [Declared.lead, Spec.word]

theorem region_head {α : Type} (declared : α → Declared) (is : List α) (r : List Lexeme) :
    ∃ word tail, lines (is.map fun i => (declared i).lexemes) ++ .white " " ::
      .keyword "begin" :: r =
      .white " " :: .keyword word :: tail ∧ word ≠ "port" := by
  -- Behind the head of a region there is a declaration or its `begin`.
  cases is with
  | nil => exact ⟨"begin", r, rfl, by simp⟩
  | cons i is =>
    obtain ⟨tail, head⟩ := (declared i).head_lexemes
    exact ⟨_, _, by simp [head]; rfl, (declared i).lead_ne_port⟩

theorem Process.sensitivity_cut {is is' : List Ident}
    (ends : ∀ r, t ≠ .white " " :: .delimiter "(" :: r)
    (ends' : ∀ r, t' ≠ .white " " :: .delimiter "(" :: r)
    (same : Process.sensitivityLexemes is ++ t = Process.sensitivityLexemes is' ++ t') :
    is = is' ∧ t = t' := by
  cases is with
  | nil =>
    cases is' with
    | nil => exact ⟨rfl, same⟩
    | cons i is' => exact absurd same (by simpa [Process.sensitivityLexemes, enlisted] using ends _)
  | cons i is =>
    cases is' with
    | nil => exact absurd same.symm (by simpa [Process.sensitivityLexemes, enlisted] using ends' _)
    | cons i' is' =>
      have items (is : List Ident) : ∀ x ∈ is.map (fun i => [Lexeme.ident i]),
          Item associationStops x := by
        simpa using fun i _ => i.item
      simp only [Process.sensitivityLexemes, List.isEmpty_cons, Bool.false_eq_true, if_false,
        List.cons_append, List.cons.injEq, true_and] at same
      obtain ⟨idents, behind⟩ := enlisted_cut (items (i :: is)) (items (i' :: is')) same
      have equal := map_of_map (g := id) (fun i _ j _ same => by simpa using same) idents
      exact ⟨by simpa using equal, behind⟩

theorem Process.cut {p p' : Process} (ok : p.passes rules.design = true)
    (ok' : p'.passes rules.design = true) (same : p.lexemes ++ t = p'.lexemes ++ t') :
    p.skeleton = p'.skeleton ∧ t = t' := by
  obtain ⟨label, sensitivity, items, body⟩ := p
  obtain ⟨label', sensitivity', items', body'⟩ := p'
  simp only [Process.passes, Bool.and_eq_true, List.all_eq_true] at ok ok'
  simp only [Process.lexemes, region, List.cons_append, List.append_assoc, List.cons.injEq,
    Lexeme.ident.injEq, true_and] at same
  obtain ⟨rfl, same⟩ := same
  have unopened (is : List SubprogramItem) (ss : List Sequential) (r s : List Lexeme) :
      lines (is.map fun i => i.declared.lexemes) ++ .white " " ::
        (block [.keyword "begin"] (ss.map Sequential.lexemes) ["process"] ++ r) ≠
          .white " " :: .delimiter "(" :: s := by
    obtain ⟨word, tail, head, -⟩ := region_head SubprogramItem.declared is
      (lines (ss.map Sequential.lexemes) ++ .white " " :: .keyword "end" ::
        (ending ["process"] ++ r))
    simp [block, head]
  obtain ⟨rfl, behind⟩ := Process.sensitivity_cut (unopened items body _)
    (unopened items' body' _) same
  obtain ⟨declared, statements, behind⟩ := region_cut
    (fun i member i' member' => SubprogramItem.reads (ok.1.2 i member) (ok'.1.2 i' member'))
    ok.2 ok'.2 behind
  exact ⟨by simp [Process.skeleton, declared, statements], behind⟩

def partStops : List Lexeme := [.delimiter ";", .keyword "else"]

theorem Waveform.guarded_phrase {w : Waveform} {condition : Option Expr}
    (ok : w.passes rules.design = true) (passes : condition.all (Expr.passes rules.design) = true) :
    Phrase rules Lexeme.endsOperand (w.guardedLexemes condition) := by
  have first := Waveform.design_phrase ok
  cases condition with
  | none => simpa [Waveform.guardedLexemes] using first
  | some e => exact first.join (.keyword (by decide) (by decide)) (e.phrase passes)

theorem Waveform.guarded_item {w : Waveform} {condition : Option Expr}
    (ok : w.passes rules.design = true) (passes : condition.all (Expr.passes rules.design) = true) :
    Item partStops (w.guardedLexemes condition) := by
  refine .of_phrase ?_ (Waveform.guarded_phrase ok passes)
  have first : Closed partStops w.pieces.lexemes := (Waveform.closed ok).mono (by decide)
  cases condition with
  | none => simpa [Waveform.guardedLexemes] using first
  | some e =>
    have second : Closed partStops e.pieces.lexemes := (e.closed passes).mono (by decide)
    exact first.spaced second (by decide) (by decide) (by simp)

theorem Waveform.guarded_cut {w w' : Waveform} {c c' : Option Expr}
    (same : w.guardedLexemes c = w'.guardedLexemes c') (ok : w.passes rules.design = true)
    (ok' : w'.passes rules.design = true) (conditions : c.all (Expr.passes rules.design) = true)
    (conditions' : c'.all (Expr.passes rules.design) = true) :
    w.quoted = w'.quoted ∧ c.map Expr.quoted = c'.map Expr.quoted := by
  -- A semicolon behind both makes the ends of the waveforms stops.
  have ended := congrArg (· ++ [Lexeme.delimiter ";"]) same
  cases c with
  | none =>
    cases c' with
    | none =>
      simp only [Waveform.guardedLexemes, List.append_nil] at ended
      exact ⟨(Waveform.cut ok ok' ended rfl rfl).1, rfl⟩
    | some e' =>
      simp only [Waveform.guardedLexemes, List.append_assoc, List.nil_append,
        List.cons_append] at ended
      simpa using (Waveform.cut ok ok' ended rfl rfl).2
  | some e =>
    cases c' with
    | none =>
      simp only [Waveform.guardedLexemes, List.append_assoc, List.nil_append,
        List.cons_append] at ended
      simpa using (Waveform.cut ok ok' ended rfl rfl).2
    | some e' =>
      simp only [Waveform.guardedLexemes, List.append_assoc, List.cons_append] at ended
      obtain ⟨waveforms, behind⟩ := Waveform.cut ok ok' ended rfl rfl
      simp only [List.cons.injEq, true_and] at behind
      exact ⟨waveforms, by simp [(Expr.cut conditions conditions' behind rfl rfl).1]⟩

theorem Assignment.forall_parts {P : List Lexeme → Prop} {a : Assignment}
    (ok : a.passes rules.design = true)
    (each : ∀ {w : Waveform} {condition : Option Expr}, w.passes rules.design = true →
      condition.all (Expr.passes rules.design) = true → P (w.guardedLexemes condition)) :
    ∀ x ∈ a.parts, P x := by
  simp only [Assignment.passes, ConditionalWaveform.passes, Bool.and_eq_true,
    List.all_eq_true] at ok
  intro x member
  simp only [Assignment.parts, List.mem_append, List.mem_map, List.mem_singleton] at member
  rcases member with ⟨w, origin, rfl⟩ | rfl
  · exact each (ok.1.1.2 w origin).1 (ok.1.1.2 w origin).2
  · exact each ok.1.2 ok.2

theorem Assignment.part_items {a : Assignment} (ok : a.passes rules.design = true) :
    ∀ x ∈ a.parts, Item partStops x :=
  Assignment.forall_parts ok Waveform.guarded_item

theorem Assignment.cut {a a' : Assignment} (ok : a.passes rules.design = true)
    (ok' : a'.passes rules.design = true) (same : a.lexemes ++ t = a'.lexemes ++ t') :
    a.skeleton = a'.skeleton ∧ t = t' := by
  have items := Assignment.part_items ok
  have items' := Assignment.part_items ok'
  simp only [Assignment.passes, ConditionalWaveform.passes, Bool.and_eq_true,
    List.all_eq_true] at ok ok'
  simp only [Assignment.lexemes, List.append_assoc, List.cons_append] at same
  obtain ⟨targets, same⟩ := Name.cut ok.1.1.1 ok'.1.1.1 same rfl rfl
  simp only [List.cons.injEq, true_and] at same
  obtain ⟨parts, behind⟩ := separated_cut (fun _ => rfl) items items' ⟨rfl, by simp⟩
    ⟨rfl, by simp⟩ same
  obtain ⟨firsts, lasts⟩ := List.append_inj' parts rfl
  have conditionals : a.conditionals.map ConditionalWaveform.skeleton =
      a'.conditionals.map ConditionalWaveform.skeleton := by
    refine map_of_map (fun w member w' member' same => ?_) firsts
    obtain ⟨waveforms, conditions⟩ := Waveform.guarded_cut same (ok.1.1.2 w member).1
      (ok'.1.1.2 w' member').1 (ok.1.1.2 w member).2 (ok'.1.1.2 w' member').2
    simpa [ConditionalWaveform.skeleton, waveforms] using conditions
  obtain ⟨waveform, condition⟩ := Waveform.guarded_cut (List.cons.inj lasts).1 ok.1.2
    ok'.1.2 ok.2 ok'.2
  exact ⟨by simp [Assignment.skeleton, targets, conditionals, waveform, condition], by simpa using behind⟩

theorem InstantiatedUnit.leaf {u : InstantiatedUnit} (ok : u.passes rules.design = true) :
    ∃ xs, u.lexemes = .keyword "entity" :: .white " " :: xs ∧ Leaf nameStops xs := by
  obtain ⟨name, architecture⟩ := u
  simp only [InstantiatedUnit.passes, Bool.and_eq_true] at ok
  refine ⟨_, rfl, ?_⟩
  cases architecture with
  | none => simpa using Name.leaf ok.1
  | some i =>
    refine ⟨(name.closed ok.1).append (Closed.enclosed (.single (by simp) (by simp))), ?_⟩
    simp [Lexeme.isBlank]

theorem InstantiatedUnit.spell_lexemes (u : InstantiatedUnit) :
    spell u.lexemes = u.text.toList := by
  obtain ⟨name, architecture⟩ := u
  cases architecture with
  | none =>
    simp [InstantiatedUnit.lexemes, InstantiatedUnit.text, Lexeme.text, Pieces.spell_lexemes,
      Name.text]
  | some i =>
    simp [InstantiatedUnit.lexemes, InstantiatedUnit.text, Lexeme.text, Pieces.spell_lexemes,
      Name.text]

theorem Association.map_cut {as as' : List Association}
    (ok : ∀ a ∈ as, a.passes rules.design = true) (ok' : ∀ a ∈ as', a.passes rules.design = true)
    (same : Association.mapLexemes as ++ t = Association.mapLexemes as' ++ t') :
    as.map Association.quoted = as'.map Association.quoted ∧ t = t' := by
  have items (as : List Association) (ok : ∀ a ∈ as, a.passes rules.design = true) :
      ∀ x ∈ as.map (fun a => a.pieces.lexemes), Item associationStops x := by
    simpa using fun a member => Association.item (ok a member)
  simp only [Association.mapLexemes, List.cons_append, List.append_assoc, List.cons.injEq,
    true_and] at same
  obtain ⟨texts, behind⟩ := enlisted_cut (items as ok) (items as' ok') same
  refine ⟨map_of_map (fun a _ a' _ same => ?_) texts, by simpa using behind⟩
  simp [Association.quoted, Association.text, Pieces.text_of_lexemes same]

theorem Instance.cut {i i' : Instance} (ok : i.passes rules.design = true)
    (ok' : i'.passes rules.design = true) (same : i.lexemes ++ t = i'.lexemes ++ t') :
    i.skeleton = i'.skeleton ∧ t = t' := by
  obtain ⟨label, unit, portMap⟩ := i
  obtain ⟨label', unit', portMap'⟩ := i'
  simp only [Instance.passes, Bool.and_eq_true, List.all_eq_true] at ok ok'
  obtain ⟨xs, lexemes, leaf⟩ := InstantiatedUnit.leaf ok.1.1.2
  obtain ⟨ys, lexemes', leaf'⟩ := InstantiatedUnit.leaf ok'.1.1.2
  simp only [Instance.lexemes, lexemes, lexemes', List.append_assoc, List.cons_append,
    List.cons.injEq, Lexeme.ident.injEq, true_and] at same
  obtain ⟨rfl, same⟩ := same
  obtain ⟨texts, same⟩ := leaf.cut leaf' same rfl rfl
  have units : unit.text = unit'.text := by
    apply String.toList_injective
    rw [← unit.spell_lexemes, ← unit'.spell_lexemes, lexemes, lexemes', texts]
  obtain ⟨maps, behind⟩ := Association.map_cut ok.2 ok'.2 (List.cons.inj same).2
  exact ⟨by simp [Instance.skeleton, InstantiatedUnit.quoted, units, maps], behind⟩

theorem Scheme.cut {s s' : Scheme} (ok : s.passes rules.design = true)
    (ok' : s'.passes rules.design = true) (same : s.lexemes ++ t = s'.lexemes ++ t')
    (ends : stopped stops t = true) (ends' : stopped stops t' = true) :
    s.skeleton = s'.skeleton ∧ t = t' := by
  cases s with
  | forRange i r =>
    cases s' with
    | forRange i' r' =>
      simp only [Scheme.passes, Bool.and_eq_true] at ok ok'
      simp only [Scheme.lexemes, List.cons_append, List.cons.injEq, Lexeme.ident.injEq,
        true_and] at same
      obtain ⟨rfl, same⟩ := same
      obtain ⟨ranges, behind⟩ := Range.cut ok.2 ok'.2 same ends ends'
      exact ⟨by simp [Scheme.skeleton, ranges], behind⟩
    | ifCondition => simp [Scheme.lexemes] at same
  | ifCondition e =>
    cases s' with
    | forRange => simp [Scheme.lexemes] at same
    | ifCondition e' =>
      simp only [Scheme.lexemes, List.cons_append, List.cons.injEq, true_and] at same
      obtain ⟨conditions, behind⟩ := Expr.cut ok ok' same ends ends'
      exact ⟨by simp [Scheme.skeleton, conditions], behind⟩

theorem Port.clause_cut {ps ps' : List Port}
    (same : Port.clauseLexemes ps ++ t = Port.clauseLexemes ps' ++ t') : ps = ps' ∧ t = t' := by
  simp only [Port.clauseLexemes, List.cons_append, List.append_assoc, List.cons.injEq,
    true_and] at same
  obtain ⟨rfl, behind⟩ := Spec.parameters_cut Port.item (fun _ _ => Port.lexemes_injective) same
  exact ⟨rfl, by simpa using behind⟩

theorem Assignment.ne_labelled {a : Assignment} {label : Ident}
    (ok : a.passes rules.design = true) :
    a.lexemes ++ t ≠ .ident label :: .white " " :: .delimiter ":" :: t' := by
  -- A label is followed by a colon, and a target by the sign of a signal assignment.
  intro same
  simp only [Assignment.passes, Bool.and_eq_true] at ok
  have name : Leaf nameStops [.ident label] := .single (by simp [nameStops, stops]) (by simp) rfl
  simp only [Assignment.lexemes, List.append_assoc, List.cons_append] at same
  have split : _ = [Lexeme.ident label] ++ .white " " :: .delimiter ":" :: t' := same
  simpa using ((Name.leaf ok.1.1.1).cut name split rfl rfl).2

def Concurrent.Readable (rules : Rules) (s : Concurrent) : Prop :=
  ∀ u : Concurrent, s.passes rules.design = true → u.passes rules.design = true →
    Reads Anything Concurrent.lexemes Concurrent.skeleton s u

theorem Concurrent.led_lexemes {s : Concurrent} (ok : s.passes rules.design = true) :
    led (· = none) s.lexemes = true := by
  cases s with
  | block | process | instantiate | generate =>
    simp [Concurrent.lexemes, region, Process.lexemes, Instance.lexemes, led, Lexeme.keyword?]
  | assign a =>
    simp only [Concurrent.passes, Assignment.passes, Bool.and_eq_true] at ok
    obtain ⟨i, tail, head⟩ := a.target.head_accepted ok.1.1.1
    simp [Concurrent.lexemes, Assignment.lexemes, head, led, Lexeme.keyword?]

theorem Concurrent.undeclared {body : List Concurrent}
    (ok : ∀ s ∈ body, s.passes rules.design = true) :
    led isDeclared (lines (body.map Concurrent.lexemes) ++ .white " " :: .keyword "end" :: t).tail
      = false := by
  -- Statements and their closing line do not start with a word of a declaration.
  cases body with
  | nil => rfl
  | cons s body =>
    have head := Concurrent.led_lexemes (ok s List.mem_cons_self)
    cases first : s.lexemes with
    | nil => simp [first, led] at head
    | cons l tail =>
      have word : l.keyword? = none := by simpa [first, led] using head
      simp [first, led, word, isDeclared]

theorem Concurrent.body_cut {body body' : List Concurrent} (each : ∀ s ∈ body, s.Readable rules)
    (ok : ∀ s ∈ body, s.passes rules.design = true)
    (ok' : ∀ s ∈ body', s.passes rules.design = true)
    (same : lines (body.map Concurrent.lexemes) ++ .white " " :: .keyword "end" :: t =
      lines (body'.map Concurrent.lexemes) ++ .white " " :: .keyword "end" :: t') :
    body.map Concurrent.skeleton = body'.map Concurrent.skeleton ∧ t = t' := by
  obtain ⟨statements, behind⟩ := lines_cut (· = none) same
    (fun s member u member' => each s member u (ok s member) (ok' u member'))
    (fun s member => Concurrent.led_lexemes (ok s member))
      (fun s member => Concurrent.led_lexemes (ok' s member))
    (fun _ => trivial) (fun _ => trivial) rfl rfl
  exact ⟨statements, by simpa using behind⟩

theorem Port.block_cut {ps ps' : List Port} {as as' : List Association}
    (ok : ∀ a ∈ as, a.passes rules.design = true) (ok' : ∀ a ∈ as', a.passes rules.design = true)
    (ends : ∀ r, t ≠ .white " " :: .keyword "port" :: r)
    (ends' : ∀ r, t' ≠ .white " " :: .keyword "port" :: r)
    (same : lines (Port.blockLexemes ps as) ++ t = lines (Port.blockLexemes ps' as') ++ t') :
    ps = ps' ∧ (if ps.isEmpty then [] else as.map Association.quoted) =
      (if ps'.isEmpty then [] else as'.map Association.quoted) ∧ t = t' := by
  -- The ports of a block and their map; what follows is no port clause.
  cases ps with
  | nil =>
    cases ps' with
    | nil => exact ⟨rfl, rfl, same⟩
    | cons p' ps' => exact absurd same (by simpa [Port.blockLexemes, Port.clauseLexemes] using ends _)
  | cons p ps =>
    cases ps' with
    | nil => exact absurd same.symm (by simpa [Port.blockLexemes, Port.clauseLexemes] using ends' _)
    | cons p' ps' =>
      simp only [Port.blockLexemes, List.isEmpty_cons, Bool.false_eq_true, if_false, lines_cons,
        lines_nil, List.append_nil, List.cons_append, List.append_assoc, List.cons.injEq,
        true_and] at same
      obtain ⟨ports, same⟩ := Port.clause_cut same
      obtain ⟨maps, behind⟩ := Association.map_cut ok ok' (List.cons.inj same).2
      exact ⟨ports, by simp [maps], behind⟩

theorem BlockItem.generate_cut {is is' : List BlockItem}
    (ok : ∀ i ∈ is, i.passes rules.design = true) (ok' : ∀ i ∈ is', i.passes rules.design = true)
    (ends : led isDeclared t.tail = false) (ends' : led isDeclared t'.tail = false)
    (same : BlockItem.generateLexemes is ++ t = BlockItem.generateLexemes is' ++ t') :
    is.map BlockItem.skeleton = is'.map BlockItem.skeleton ∧ t = t' := by
  -- With declarations a generate has a `begin`, and without it has none.
  have shape (is : List BlockItem) (t : List Lexeme) : BlockItem.generateLexemes is ++ t =
      lines (is.map fun i => i.declared.lexemes) ++
        (if is.isEmpty then t else .white " " :: .keyword "begin" :: t) := by
    cases is <;> simp [BlockItem.generateLexemes]
  have outside (is : List BlockItem) (t : List Lexeme) (ends : led isDeclared t.tail = false) :
      led isDeclared (if is.isEmpty then t else .white " " :: .keyword "begin" :: t).tail
        = false := by
    cases is with
    | nil => exact ends
    | cons => rfl
  rw [shape, shape] at same
  obtain ⟨items, behind⟩ := declared_cut
    (fun i member i' member' => BlockItem.reads (ok i member) (ok' i' member'))
    (outside is t ends) (outside is' t' ends') same
  refine ⟨items, ?_⟩
  cases is with
  | nil =>
    cases is' with
    | nil => exact behind
    | cons => cases items
  | cons =>
    cases is' with
    | nil => cases items
    | cons => simpa using behind

theorem BlockItem.region_cut {is is' : List BlockItem} {body body' : List Concurrent}
    {closing : List String} (each : ∀ s ∈ body, s.Readable rules)
    (items : ∀ i ∈ is, i.passes rules.design = true)
    (items' : ∀ i ∈ is', i.passes rules.design = true)
    (ok : ∀ s ∈ body, s.passes rules.design = true)
    (ok' : ∀ s ∈ body', s.passes rules.design = true)
    (same : lines (is.map fun i => i.declared.lexemes) ++ .white " " ::
        (block [.keyword "begin"] (body.map Concurrent.lexemes) closing ++ t) =
      lines (is'.map fun i => i.declared.lexemes) ++ .white " " ::
        (block [.keyword "begin"] (body'.map Concurrent.lexemes) closing ++ t')) :
    is.map BlockItem.skeleton = is'.map BlockItem.skeleton ∧
      body.map Concurrent.skeleton = body'.map Concurrent.skeleton ∧ t = t' := by
  obtain ⟨declared, same⟩ := declared_cut
    (fun i member i' member' => BlockItem.reads (items i member) (items' i' member')) rfl rfl same
  simp only [block, List.cons_append, List.nil_append, List.append_assoc, List.cons.injEq,
    true_and] at same
  obtain ⟨statements, behind⟩ := Concurrent.body_cut each ok ok' same
  exact ⟨declared, statements, by simpa using behind⟩

def Scheme.lead : Scheme → String
  | .forRange _ _ => "for"
  | .ifCondition _ => "if"

def Concurrent.lead : Concurrent → Option String
  | .block _ _ _ _ _ => some "block"
  | .process _ => some "process"
  | .assign _ => none
  | .instantiate _ => some "entity"
  | .generate _ scheme _ _ => some scheme.lead

theorem Concurrent.labelled {s : Concurrent} {word : String} (lead : s.lead = some word) :
    ∃ label tail, s.lexemes =
      .ident label :: .white " " :: .delimiter ":" :: .white " " :: .keyword word :: tail := by
  cases s with
  | block | process | instantiate =>
    cases lead
    exact ⟨_, _, rfl⟩
  | generate _ scheme =>
    cases scheme <;> cases lead <;> exact ⟨_, _, rfl⟩
  | assign => cases lead

theorem Concurrent.unlabelled {s : Concurrent} {label : Ident} (ok : s.passes rules.design = true)
    (lead : s.lead = none) :
    s.lexemes ++ t ≠ .ident label :: .white " " :: .delimiter ":" :: t' := by
  cases s with
  | assign a => exact Assignment.ne_labelled ok
  | block | process | instantiate | generate => cases lead

theorem Concurrent.lead_eq {s u : Concurrent} (ok : s.passes rules.design = true)
    (ok' : u.passes rules.design = true) (same : s.lexemes ++ t = u.lexemes ++ t') :
    s.lead = u.lead := by
  cases lead : s.lead with
  | none =>
    cases lead' : u.lead with
    | none => rfl
    | some word' =>
      obtain ⟨label', tail', labelled'⟩ := Concurrent.labelled lead'
      rw [labelled'] at same
      exact absurd same (Concurrent.unlabelled ok lead)
  | some word =>
    obtain ⟨label, tail, labelled⟩ := Concurrent.labelled lead
    rw [labelled] at same
    cases lead' : u.lead with
    | none => exact absurd same.symm (Concurrent.unlabelled ok' lead')
    | some word' =>
      obtain ⟨label', tail', labelled'⟩ := Concurrent.labelled lead'
      simp only [labelled', List.cons_append, List.cons.injEq, Lexeme.keyword.injEq,
        true_and] at same
      rw [same.2.1]

theorem Concurrent.block_reads {label : Ident} {ports : List Port} {portMap : List Association}
    {items : List BlockItem} {body : List Concurrent} (inBody : ∀ s ∈ body, s.Readable rules) :
    (Concurrent.block label ports portMap items body).Readable rules := by
  intro u ok ok' r r' _ _ same
  have lead := Concurrent.lead_eq ok ok' same
  cases u with
  | block label' ports' portMap' items' body' =>
    simp only [Concurrent.passes, Concurrent.passesAll_eq_all, Bool.and_eq_true,
      List.all_eq_true] at ok ok'
    simp only [Concurrent.lexemes, region, Concurrent.lexemesAll_eq_map, lines_append,
      List.cons_append, List.nil_append, List.append_assoc, List.cons.injEq, Lexeme.ident.injEq,
      true_and] at same
    obtain ⟨rfl, same⟩ := same
    have portless (is : List BlockItem) (ss : List Concurrent) (r q : List Lexeme) :
        lines (is.map fun i => i.declared.lexemes) ++ .white " " ::
          (Lexer.block [.keyword "begin"] (ss.map Concurrent.lexemes) ["block"] ++ r) ≠
            .white " " :: .keyword "port" :: q := by
      obtain ⟨word, tail, head, other⟩ := region_head BlockItem.declared is
        (lines (ss.map Concurrent.lexemes) ++ .white " " :: .keyword "end" ::
          (ending ["block"] ++ r))
      simp [Lexer.block, head, other]
    obtain ⟨rfl, maps, same⟩ := Port.block_cut ok.1.1.2 ok'.1.1.2 (portless items body r)
      (portless items' body' r') same
    obtain ⟨declared, statements, behind⟩ := BlockItem.region_cut inBody ok.1.2 ok'.1.2
      ok.2 ok'.2 same
    exact ⟨by simp only [Concurrent.skeleton, Concurrent.skeletons_eq_map, maps, declared,
      statements], behind⟩
  | process | assign | instantiate => simp [Concurrent.lead] at lead
  | generate _ scheme => cases scheme <;> simp [Concurrent.lead, Scheme.lead] at lead

theorem Concurrent.generate_reads {label : Ident} {scheme : Scheme} {items : List BlockItem}
    {body : List Concurrent} (inBody : ∀ s ∈ body, s.Readable rules) :
    (Concurrent.generate label scheme items body).Readable rules := by
  intro u ok ok' r r' _ _ same
  have lead := Concurrent.lead_eq ok ok' same
  cases u with
  | generate label' scheme' items' body' =>
    simp only [Concurrent.passes, Concurrent.passesAll_eq_all, Bool.and_eq_true,
      List.all_eq_true] at ok ok'
    simp only [Concurrent.lexemes, Concurrent.lexemesAll_eq_map, List.cons_append,
      List.append_assoc, List.cons.injEq, Lexeme.ident.injEq, true_and] at same
    obtain ⟨rfl, same⟩ := same
    obtain ⟨schemes, same⟩ := Scheme.cut ok.1.1.2 ok'.1.1.2 same rfl rfl
    simp only [List.cons.injEq, true_and] at same
    obtain ⟨declared, same⟩ := BlockItem.generate_cut ok.1.2 ok'.1.2 (Concurrent.undeclared ok.2)
      (Concurrent.undeclared ok'.2) same
    obtain ⟨statements, behind⟩ := Concurrent.body_cut inBody ok.2 ok'.2 same
    exact ⟨by simp [Concurrent.skeleton, schemes, declared, statements], by simpa using behind⟩
  | block | process | assign | instantiate =>
    cases scheme <;> simp [Concurrent.lead, Scheme.lead] at lead

theorem Concurrent.reads (s : Concurrent) : s.Readable rules := by
  induction s using Concurrent.induction with
  | block label ports portMap items body inBody => exact block_reads inBody
  | generate label scheme items body inBody => exact generate_reads inBody
  | process p =>
    intro u ok ok' r r' _ _ same
    have lead := Concurrent.lead_eq ok ok' same
    cases u with
    | process p' =>
      obtain ⟨processes, behind⟩ := Process.cut ok ok' same
      exact ⟨by simp [Concurrent.skeleton, processes], behind⟩
    | block | assign | instantiate => simp [Concurrent.lead] at lead
    | generate _ scheme => cases scheme <;> simp [Concurrent.lead, Scheme.lead] at lead
  | assign a =>
    intro u ok ok' r r' _ _ same
    have lead := Concurrent.lead_eq ok ok' same
    cases u with
    | assign a' =>
      obtain ⟨assignments, behind⟩ := Assignment.cut ok ok' same
      exact ⟨by simp [Concurrent.skeleton, assignments], behind⟩
    | block | process | instantiate | generate => simp [Concurrent.lead] at lead
  | instantiate i =>
    intro u ok ok' r r' _ _ same
    have lead := Concurrent.lead_eq ok ok' same
    cases u with
    | instantiate i' =>
      obtain ⟨instances, behind⟩ := Instance.cut ok ok' same
      exact ⟨by simp [Concurrent.skeleton, instances], behind⟩
    | block | process | assign => simp [Concurrent.lead] at lead
    | generate _ scheme => cases scheme <;> simp [Concurrent.lead, Scheme.lead] at lead

theorem ContextItem.leaf {i : ContextItem} (ok : i.passes rules.design = true) :
    ∃ xs, i.lexemes = xs ++ [.delimiter ";"] ∧ Leaf parameterStops xs := by
  cases i with
  | library i =>
    exact ⟨[.keyword "library", .white " ", .ident i], rfl,
      .flat (by simp [parameterStops]), by simp [Lexeme.isBlank]⟩
  | use n s =>
    have name := (Name.selected n s).closed ok
    have phrase : Phrase rules Lexeme.endsOperand
        (.keyword "use" :: .white " " :: (Name.selected n s).pieces.lexemes) :=
      word_phrase (by decide) (by decide) ((Name.selected n s).phrase ok).phrase.operand
    refine ⟨_, ?_, .of_phrase ?_ phrase⟩
    · simp [ContextItem.lexemes, Name.pieces, Symbol.text]
    · exact .cons (by decide) (by simp) (by simp)
        (.cons (by decide) (by simp) (by simp) (name.mono (by decide)))

theorem ContextItem.spell_lexemes (i : ContextItem) : spell i.lexemes = i.text.toList := by
  cases i with
  | library i => simp [ContextItem.lexemes, ContextItem.text, Lexeme.text]
  | use n s =>
    simp [ContextItem.lexemes, ContextItem.text, Lexeme.text, Pieces.spell_lexemes, Name.text,
      Suffix.text]

theorem ContextItem.cut {i i' : ContextItem} (ok : i.passes rules.design = true)
    (ok' : i'.passes rules.design = true) (same : i.lexemes ++ t = i'.lexemes ++ t') :
    i.quoted = i'.quoted ∧ t = t' := by
  obtain ⟨xs, lexemes, leaf⟩ := ContextItem.leaf ok
  obtain ⟨ys, lexemes', leaf'⟩ := ContextItem.leaf ok'
  rw [lexemes, lexemes', List.append_assoc, List.append_assoc] at same
  obtain ⟨rfl, behind⟩ := leaf.cut leaf' same rfl rfl
  refine ⟨?_, by simpa using behind⟩
  have texts : i.text = i'.text := by
    apply String.toList_injective
    rw [← i.spell_lexemes, ← i'.spell_lexemes, lexemes, lexemes']
  rw [ContextItem.quoted, ContextItem.quoted, texts]

theorem Port.optional_cut {ps ps' : List Port}
    (same : lines (if ps.isEmpty then [] else [Port.clauseLexemes ps]) ++
        .white " " :: .keyword "end" :: t =
      lines (if ps'.isEmpty then [] else [Port.clauseLexemes ps']) ++
        .white " " :: .keyword "end" :: t') : ps = ps' ∧ t = t' := by
  cases ps with
  | nil =>
    cases ps' with
    | nil => exact ⟨rfl, by simpa using same⟩
    | cons => simp [Port.clauseLexemes] at same
  | cons p ps =>
    cases ps' with
    | nil => simp [Port.clauseLexemes] at same
    | cons p' ps' =>
      simp only [List.isEmpty_cons, Bool.false_eq_true, if_false, lines_cons, lines_nil,
        List.append_nil, List.cons_append, List.cons.injEq, true_and] at same
      obtain ⟨ports, behind⟩ := Port.clause_cut same
      exact ⟨ports, by simpa using behind⟩

theorem LibraryUnit.cut {u u' : LibraryUnit} (ok : u.passes rules.design = true)
    (ok' : u'.passes rules.design = true) (same : u.lexemes ++ t = u'.lexemes ++ t') :
    u.skeleton = u'.skeleton ∧ t = t' := by
  cases u with
  | entity u =>
    cases u' with
    | entity u' =>
      obtain ⟨name, ports⟩ := u
      obtain ⟨name', ports'⟩ := u'
      simp only [LibraryUnit.lexemes, block, List.cons_append, List.nil_append, List.append_assoc,
        List.cons.injEq, Lexeme.ident.injEq, true_and] at same
      obtain ⟨rfl, same⟩ := same
      obtain ⟨rfl, behind⟩ := Port.optional_cut same
      exact ⟨rfl, by simpa [ending] using behind⟩
    | architecture | package | packageBody => simp [LibraryUnit.lexemes, block, region] at same
  | architecture u =>
    cases u' with
    | architecture u' =>
      obtain ⟨name, entity, items, body⟩ := u
      obtain ⟨name', entity', items', body'⟩ := u'
      simp only [LibraryUnit.passes, Bool.and_eq_true, List.all_eq_true] at ok ok'
      simp only [LibraryUnit.lexemes, region, List.cons_append, List.nil_append, List.append_assoc,
        List.cons.injEq, Lexeme.ident.injEq, true_and] at same
      obtain ⟨rfl, rfl, same⟩ := same
      obtain ⟨declared, statements, behind⟩ := BlockItem.region_cut (fun s _ => s.reads) ok.1.2
        ok'.1.2 ok.2 ok'.2 same
      exact ⟨by simp [LibraryUnit.skeleton, declared, statements], behind⟩
    | entity | package | packageBody => simp [LibraryUnit.lexemes, block, region] at same
  | package u =>
    cases u' with
    | package u' =>
      obtain ⟨name, items⟩ := u
      obtain ⟨name', items'⟩ := u'
      simp only [LibraryUnit.passes, Bool.and_eq_true, List.all_eq_true] at ok ok'
      simp only [LibraryUnit.lexemes, block, List.cons_append, List.nil_append, List.append_assoc,
        List.cons.injEq, Lexeme.ident.injEq, true_and] at same
      obtain ⟨rfl, same⟩ := same
      obtain ⟨declared, behind⟩ := declared_cut
        (fun i member i' member' => PackageItem.reads (ok.2 i member) (ok'.2 i' member'))
        rfl rfl same
      exact ⟨by simp [LibraryUnit.skeleton, declared], by simpa [ending] using behind⟩
    | entity | architecture | packageBody => simp [LibraryUnit.lexemes, block, region] at same
  | packageBody u =>
    cases u' with
    | packageBody u' =>
      obtain ⟨name, items⟩ := u
      obtain ⟨name', items'⟩ := u'
      simp only [LibraryUnit.passes, Bool.and_eq_true, List.all_eq_true] at ok ok'
      simp only [LibraryUnit.lexemes, block, List.cons_append, List.nil_append, List.append_assoc,
        List.cons.injEq, Lexeme.ident.injEq, true_and] at same
      obtain ⟨rfl, same⟩ := same
      obtain ⟨declared, behind⟩ := declared_cut
        (fun i member i' member' => PackageBodyItem.reads (ok.2 i member) (ok'.2 i' member'))
        rfl rfl same
      exact ⟨by simp [LibraryUnit.skeleton, declared], by simpa [ending] using behind⟩
    | entity | architecture | package => simp [LibraryUnit.lexemes, block, region] at same

theorem Design.member_reads {m m' : ContextItem ⊕ LibraryUnit}
    (ok : m.elim (ContextItem.passes rules.design) (LibraryUnit.passes rules.design) = true)
    (ok' : m'.elim (ContextItem.passes rules.design) (LibraryUnit.passes rules.design) = true) :
    Reads Anything Design.memberLexemes (Sum.map ContextItem.quoted LibraryUnit.skeleton) m m' := by
  have apart {i : ContextItem} {u : LibraryUnit} {t t' : List Lexeme} :
      i.lexemes ++ t ≠ u.lexemes ++ t' := by
    cases i <;> cases u <;> simp [ContextItem.lexemes, LibraryUnit.lexemes, block, region]
  intro r r' _ _ same
  cases m with
  | inl i =>
    cases m' with
    | inl i' =>
      obtain ⟨items, behind⟩ := ContextItem.cut ok ok' same
      exact ⟨by simp [items], behind⟩
    | inr u' => exact absurd same apart
  | inr u =>
    cases m' with
    | inl i' => exact absurd same.symm apart
    | inr u' =>
      obtain ⟨units, behind⟩ := LibraryUnit.cut ok ok' same
      exact ⟨by simp [units], behind⟩

theorem Design.units_of_members (d : Design) : d.members.filterMap Sum.getRight? = d.units := by
  obtain ⟨context, units⟩ := d
  have none :
      (context.map (Sum.inl : _ → ContextItem ⊕ LibraryUnit)).filterMap Sum.getRight? = [] := by
    simp [List.filterMap_map, Function.comp_def]
  cases units with
  | nil => simp [Design.members, none]
  | cons u us =>
    have all (us : List LibraryUnit) : (us.flatMap fun u => context.map Sum.inl ++
        [Sum.inr u]).filterMap
        Sum.getRight? = us := by
      induction us with
      | nil => rfl
      | cons u us ih => simp [none, ih]
    simpa [Design.members] using all (u :: us)

theorem Design.context_of_members (d : Design) :
    (d.members.takeWhile Sum.isLeft).filterMap Sum.getLeft? = d.context := by
  obtain ⟨context, units⟩ := d
  have left (ms : List (ContextItem ⊕ LibraryUnit)) (head : ∀ m ∈ ms.head?, m.isLeft = false) :
      ((context.map Sum.inl ++ ms).takeWhile Sum.isLeft).filterMap Sum.getLeft? = context := by
    have unit : ms.takeWhile Sum.isLeft = [] := by
      cases ms with
      | nil => rfl
      | cons m ms => simp [head m rfl]
    rw [List.takeWhile_append_of_pos (by simp), unit]
    simp [List.filterMap_map, Function.comp_def]
  cases units with
  | nil => simpa [Design.members] using left [] (by simp)
  | cons u us =>
    simpa [Design.members] using left (.inr u :: us.flatMap fun u => context.map Sum.inl ++
      [.inr u]) (by simp)

theorem Design.members_injective {d e : Design} (same : d.members = e.members) : d = e := by
  have context : d.context = e.context := by
    rw [← d.context_of_members, ← e.context_of_members, same]
  have units : d.units = e.units := by
    rw [← d.units_of_members, ← e.units_of_members, same]
  cases d
  cases e
  simp_all

theorem Design.members_skeleton (d : Design) :
    d.skeleton.members = d.members.map (Sum.map ContextItem.quoted LibraryUnit.skeleton) := by
  obtain ⟨context, units⟩ := d
  cases units with
  | nil => simp [Design.members, Design.skeleton]
  | cons u us =>
    simp [Design.members, Design.skeleton, List.map_flatMap, List.flatMap_map, Function.comp_def]

theorem Design.of_member {d : Design} {m : ContextItem ⊕ LibraryUnit} (member : m ∈ d.members) :
    (∃ i ∈ d.context, m = .inl i) ∨ ∃ u ∈ d.units, m = .inr u := by
  unfold Design.members at member
  split at member
  · obtain ⟨i, origin, rfl⟩ := List.mem_map.mp member
    exact .inl ⟨i, origin, rfl⟩
  · obtain ⟨u, origin, inside⟩ := List.mem_flatMap.mp member
    rcases List.mem_append.mp inside with item | unit
    · obtain ⟨i, origin, rfl⟩ := List.mem_map.mp item
      exact .inl ⟨i, origin, rfl⟩
    · exact .inr ⟨u, origin, by simpa using unit⟩

theorem Design.member_passes {d : Design} (ok : d.passes rules.design = true) :
    ∀ m ∈ d.members,
      m.elim (ContextItem.passes rules.design) (LibraryUnit.passes rules.design) = true := by
  simp only [Design.passes, Bool.and_eq_true, List.all_eq_true] at ok
  intro m member
  rcases Design.of_member member with ⟨i, origin, rfl⟩ | ⟨u, origin, rfl⟩
  · exact ok.1 i origin
  · exact ok.2 u origin

theorem Design.led_member (m : ContextItem ⊕ LibraryUnit) :
    led (fun _ => true) (Design.memberLexemes m) = true := by
  rcases m with (i | i) | (u | u | u | u) <;> rfl

theorem Design.lines_of_tail {ms ms' : List (ContextItem ⊕ LibraryUnit)}
    (same : (lines (ms.map Design.memberLexemes)).tail =
      (lines (ms'.map Design.memberLexemes)).tail) :
    lines (ms.map Design.memberLexemes) = lines (ms'.map Design.memberLexemes) := by
  have nonempty (m : ContextItem ⊕ LibraryUnit) : Design.memberLexemes m ≠ [] := by
    intro empty
    have head := Design.led_member m
    rw [empty] at head
    cases head
  cases ms with
  | nil =>
    cases ms' with
    | nil => rfl
    | cons m' ms' => simp [nonempty m'] at same
  | cons m ms =>
    cases ms' with
    | nil => simp [nonempty m] at same
    | cons m' ms' => simpa using same

/-- The lexemes of a design give its skeleton back. -/
theorem Design.skeleton_of_lexemes {d e : Design} (ok : d.passes rules.design = true)
    (ok' : e.passes rules.design = true) (same : d.lexemes = e.lexemes) :
    d.skeleton = e.skeleton := by
  have whole : lines (d.members.map Design.memberLexemes) ++ [] =
      lines (e.members.map Design.memberLexemes) ++ [] := by
    rw [Design.lines_of_tail same]
  have passes := Design.member_passes ok
  have passes' := Design.member_passes ok'
  obtain ⟨members, -⟩ := lines_cut (fun _ => true) whole
    (fun m member m' member' => Design.member_reads (passes m member) (passes' m' member'))
    (fun m _ => Design.led_member m) (fun m _ => Design.led_member m) (fun _ => trivial)
      (fun _ => trivial) rfl rfl
  apply Design.members_injective
  rw [Design.members_skeleton, Design.members_skeleton, members]

end Vhdl93
