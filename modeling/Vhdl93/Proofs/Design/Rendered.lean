import Vhdl93.Proofs.Design.Units
import Vhdl93.Proofs.Design.Written

set_option autoImplicit false

namespace Vhdl93

open Lexer Layout

variable {rules : Rules}

section Concurrent

theorem Port.phrase {p : Port} (ok : p.passes rules.design = true) :
    Phrase rules Lexeme.endsOperand p.lexemes := by
  simp only [Port.passes, Bool.and_eq_true] at ok
  have mark : Phrase rules Lexeme.endsName [.ident p.mark] := .ident ok.2
  have mode := word_phrase p.mode.word.1 p.mode.word.2 mark.operand
  exact Phrase.named ok.1 .colon mode

theorem Port.spell_lexemes (p : Port) : p.text.toList = spell p.lexemes := by
  simp [Port.text, Port.lexemes, Lexeme.text]

theorem Port.spelled_docs (p : Port) (ps : List Port) :
    ∃ ms, (Doc.lines (Port.docs (p :: ps))).outline = .gap :: ms ∧
      Spelled ms (separated [.delimiter ";", .white " "] ((p :: ps).map Port.lexemes)) := by
  -- The break before the first port stands directly behind a parenthesis.
  induction ps generalizing p with
  | nil =>
    have none : Spelled (Doc.concat []).outline [] := spelled_text rfl
    have single := (spelled_text p.spell_lexemes).append none
    rw [List.append_nil] at single
    exact ⟨_, rfl, single⟩
  | cons q ps ih =>
    obtain ⟨ms, same, later⟩ := ih q
    have text : (p.text ++ ";").toList = spell (p.lexemes ++ [.delimiter ";"]) := by
      simp [p.spell_lexemes, Lexeme.text]
    refine ⟨.fragment (p.text ++ ";") :: (Doc.lines (Port.docs (q :: ps))).outline, rfl, ?_⟩
    rw [same]
    simpa [separated] using Spelled.fragment text (.gap later)

theorem Port.clause_written {p : Port} {ps : List Port}
    (ok : ∀ q ∈ p :: ps, q.passes rules.design = true) :
    Written rules (Port.clauseDoc (p :: ps)) (Port.clauseLexemes (p :: ps)) := by
  have phrases : ∀ x ∈ (p :: ps).map Port.lexemes, Phrase rules Lexeme.endsOperand x :=
    List.forall_mem_map.mpr fun q member => Port.phrase (ok q member)
  refine ⟨?_, word_phrase (by decide) (by decide) (Phrase.listed .semicolon phrases).operand.ended,
    _, rfl, rfl⟩
  obtain ⟨ms, same, ports⟩ := Port.spelled_docs p ps
  have opens : "port (".toList = spell ([.keyword "port", .white " "] ++ [.delimiter "("]) := rfl
  have closes : ");".toList = spell [.delimiter ")", .delimiter ";"] := rfl
  have closing : Spelled [.gap, .fragment ");"] [.delimiter ")", .delimiter ";"] :=
    .closing closes (.inl rfl) .nil
  have leads := head_append (Phrase.separated .semicolon phrases).starts [.delimiter ")",
    .delimiter ";"]
  have whole := Spelled.opening opens (.inl rfl) leads (ports.append closing)
  simpa [Port.clauseDoc, Doc.block, Doc.outline, same, Port.clauseLexemes, Spec.parameterLexemes]
    using whole

theorem Association.map_written {as : List Association}
    (ok : ∀ a ∈ as, a.passes rules.design = true) :
    Written rules (Association.mapDoc as) (Association.mapLexemes as) := by
  have phrases : ∀ x ∈ as.map (fun a => a.pieces.lexemes), Phrase rules Lexeme.endsOperand x :=
    List.forall_mem_map.mpr fun a member => a.phrase (ok a member)
  have list := (Phrase.listed .comma phrases).operand.ended
  refine ⟨?_, word_phrase (by decide) (by decide) (word_phrase (by decide) (by decide) list),
    _, rfl, rfl⟩
  have opens : "port map (".toList =
      spell ([.keyword "port", .white " ", .keyword "map", .white " "] ++ [.delimiter "("]) := rfl
  exact spelled_list (fun a _ => (Pieces.spell_lexemes a.pieces).symm)
    (fun a member => a.phrase (ok a member)) opens

theorem Port.block_written {ps : List Port} {as : List Association}
    (ok : ∀ p ∈ ps, p.passes rules.design = true)
    (passes : ∀ a ∈ as, a.passes rules.design = true) :
    WrittenAll rules (Port.blockDocs ps as) (Port.blockLexemes ps as) := by
  cases ps with
  | nil => exact .nil
  | cons p ps => exact .cons (Port.clause_written ok) (.cons (Association.map_written passes) .nil)

theorem Lexer.Line.labelled {label : Ident} {ls : List Lexeme} (ok : label.isAccepted = true)
    (phrase : Phrase rules Lexeme.endsLine ls) :
    Line rules (.ident label :: .white " " :: .delimiter ":" :: .white " " :: ls) :=
  ⟨Phrase.named ok .colon phrase, _, rfl, rfl⟩

theorem Process.sensitivity_phrase {is : List Ident} (ok : ∀ i ∈ is, i.isAccepted = true) :
    Phrase rules Lexeme.endsLine (.keyword "process" :: Process.sensitivityLexemes is) := by
  cases is with
  | nil => exact .keyword (by decide)
  | cons i is =>
    have phrases : ∀ x ∈ (i :: is).map (fun i => [Lexeme.ident i]),
        Phrase rules Lexeme.endsOperand x :=
      List.forall_mem_map.mpr fun i member => (Phrase.ident (ok i member)).operand
    exact word_phrase (by decide) (by decide) (Phrase.listed .comma phrases).line

theorem Process.spell_sensitivity (is : List Ident) :
    (if is.isEmpty then "" else " (" ++ ", ".intercalate (is.map Ident.render) ++ ")").toList =
      spell (Process.sensitivityLexemes is) := by
  have each (i : Ident) (_ : i ∈ is) : i.render.toList = spell [.ident i] := by simp [Lexeme.text]
  have between : ", ".toList = spell [.delimiter ",", .white " "] := rfl
  have texts := spell_separated each between
  cases is with
  | nil => rfl
  | cons i is => simp_all [Process.sensitivityLexemes, enlisted, Lexeme.text]

theorem Process.written {p : Process} (ok : p.passes rules.design = true) :
    Written rules p.doc p.lexemes := by
  simp only [Process.passes, Bool.and_eq_true, List.all_eq_true] at ok
  refine .region ?_ (.labelled ok.1.1.1 (Process.sensitivity_phrase ok.1.1.2))
    (.map fun i member => SubprogramItem.written (ok.1.2 i member))
    (.map fun s member => s.written (ok.2 s member)) (by decide) rfl
  simp [← Process.spell_sensitivity, Lexeme.text]

theorem Waveform.spell_guarded (w : Waveform) (condition : Option Expr) :
    (w.text ++ (condition.map fun e => " when " ++ e.text).getD "").toList =
      spell (w.guardedLexemes condition) := by
  cases condition with
  | none => simp [Waveform.guardedLexemes, Pieces.spell_lexemes, Waveform.text]
  | some e =>
    simp [Waveform.guardedLexemes, Lexeme.text, Pieces.spell_lexemes, Waveform.text, Expr.text]

theorem ConditionalWaveform.spell_guarded (w : ConditionalWaveform) :
    w.text.toList = spell (w.waveform.guardedLexemes (some w.condition)) := by
  rw [← Waveform.spell_guarded]
  simp [ConditionalWaveform.text]

theorem Assignment.spelled_else {part : String} {ls : List Lexeme} (text : part.toList = spell ls) :
    Spelled (Assignment.elseDoc part).outline
      (.white " " :: .keyword "else" :: .white " " :: ls) := by
  refine .gap (spelled_text ?_)
  simp [text, Lexeme.text]

theorem Assignment.spelled_later {last : String} {ls : List Lexeme} (ws : List ConditionalWaveform)
    (text : last.toList = spell ls) :
    Spelled (Doc.concat ((ws.map ConditionalWaveform.text ++ [last]).map
      Assignment.elseDoc)).outline
      ((ws.map (fun w => w.waveform.guardedLexemes (some w.condition)) ++ [ls]).flatMap
        ([.white " ", .keyword "else", .white " "] ++ ·)) := by
  induction ws with
  | nil =>
    have none : Spelled (Doc.concat []).outline [] := spelled_text rfl
    exact (Assignment.spelled_else text).append none
  | cons w ws ih => exact (Assignment.spelled_else w.spell_guarded).append ih

theorem Assignment.part_phrases {a : Assignment} (ok : a.passes rules.design = true) :
    ∀ x ∈ a.parts, Phrase rules Lexeme.endsOperand x :=
  Assignment.forall_parts ok Waveform.guarded_phrase

theorem Assignment.spelled (a : Assignment) : Spelled a.doc.outline a.lexemes := by
  obtain ⟨target, conditionals, waveform, condition⟩ := a
  have last := Waveform.spell_guarded waveform condition
  cases conditionals with
  | nil =>
    apply spelled_text
    simp [Assignment.lexemes, Assignment.parts, Assignment.lastText, separated, last, Lexeme.text,
      Pieces.spell_lexemes, Name.text]
  | cons w ws =>
    have first : (target.text ++ " <= " ++ w.text).toList =
        spell (target.pieces.lexemes ++ .white " " ::
        .delimiter "<=" :: .white " " :: w.waveform.guardedLexemes (some w.condition)) := by
      simp [w.spell_guarded, Lexeme.text, Pieces.spell_lexemes, Name.text]
    have ends : ";".toList = spell [.delimiter ";"] := rfl
    have whole := ((spelled_text first).append (Assignment.spelled_later ws last)).append
      (spelled_text ends)
    simpa [Assignment.doc, Assignment.lexemes, Assignment.parts, Assignment.lastText, Doc.outline,
      separated_cons] using whole

theorem Assignment.written {a : Assignment} (ok : a.passes rules.design = true) :
    Written rules a.doc a.lexemes := by
  refine ⟨a.spelled, ?_⟩
  have phrases := Assignment.part_phrases ok
  simp only [Assignment.passes, Bool.and_eq_true] at ok
  have joint : Joint rules [.white " ", .keyword "else", .white " "] :=
    .keyword (by decide) (by decide)
  have parts : Phrase rules Lexeme.endsOperand
      (separated [.white " ", .keyword "else", .white " "] a.parts) := by
    cases same : a.parts with
    | nil => simp [Assignment.parts] at same
    | cons x xs =>
      rw [same] at phrases
      exact .separated joint phrases
  apply Line.of_name ok.1.1.1
  exact (a.target.phrase ok.1.1.1).phrase.operand.join (.delimiter (by decide) (by decide))
    parts.ended

theorem InstantiatedUnit.phrase {u : InstantiatedUnit} (ok : u.passes rules.design = true) :
    Phrase rules Lexeme.endsName u.lexemes := by
  obtain ⟨name, architecture⟩ := u
  simp only [InstantiatedUnit.passes, Bool.and_eq_true] at ok
  have entity := (name.phrase ok.1).phrase
  apply word_phrase (by decide) (by decide)
  cases architecture with
  | none => simpa using entity
  | some i => exact entity.applied (.inr (Phrase.ident ok.2).operand)

theorem Instance.written {i : Instance} (ok : i.passes rules.design = true) :
    Written rules i.doc i.lexemes := by
  simp only [Instance.passes, Bool.and_eq_true, List.all_eq_true] at ok
  have portMap := Association.map_written ok.2
  have head := Line.labelled ok.1.1.1 (InstantiatedUnit.phrase ok.1.1.2).line
  refine ⟨?_, by simpa [Instance.lexemes] using head.join portMap.line⟩
  have text : (i.label.render ++ " : " ++ i.unit.text).toList =
      spell (.ident i.label :: .white " " :: .delimiter ":" :: .white " " :: i.unit.lexemes) := by
    simp [i.unit.spell_lexemes, Lexeme.text]
  have whole := (spelled_text text).append (.gap portMap.spelled)
  simpa [Instance.doc, Instance.lexemes, Doc.outline] using whole

theorem Scheme.phrase {s : Scheme} (ok : s.passes rules.design = true) :
    Phrase rules Lexeme.endsOperand s.lexemes := by
  cases s with
  | forRange i r =>
    simp only [Scheme.passes, Bool.and_eq_true] at ok
    have joint : Joint rules [.white " ", .keyword "in", .white " "] :=
      .keyword (by decide) (by decide)
    exact word_phrase (by decide) (by decide) (Phrase.named ok.1 joint (r.phrase ok.2))
  | ifCondition e => exact word_phrase (by decide) (by decide) (e.phrase ok)

theorem Scheme.spell_lexemes (s : Scheme) : s.text.toList = spell s.lexemes := by
  cases s <;> simp [Scheme.text, Scheme.lexemes, Lexeme.text, Pieces.spell_lexemes,
    Range.text, Expr.text]

theorem BlockItem.written_all {is : List BlockItem} (ok : ∀ i ∈ is, i.passes rules.design = true) :
    WrittenAll rules (is.map BlockItem.doc) (is.map fun i => i.declared.lexemes) :=
  .map fun i member => BlockItem.written (ok i member)

theorem BlockItem.generate_written {is : List BlockItem} {xs : List Lexeme}
    (ok : ∀ i ∈ is, i.passes rules.design = true) (line : Line rules xs) :
    Spelled (BlockItem.generateDoc is).outline (BlockItem.generateLexemes is) ∧
      Line rules (xs ++ BlockItem.generateLexemes is) := by
  have items := BlockItem.written_all ok
  cases is with
  | nil => exact ⟨spelled_text rfl, by simpa [BlockItem.generateLexemes] using line⟩
  | cons i is =>
    have word : Line rules [.keyword "begin"] := ⟨.keyword (by decide), _, rfl, rfl⟩
    have text : "begin".toList = spell [.keyword "begin"] := rfl
    refine ⟨?_, by simpa [BlockItem.generateLexemes] using (line.lines items.line).join word⟩
    simpa [BlockItem.generateDoc, BlockItem.generateLexemes, Doc.outline] using
      items.spelled.append (.gap (spelled_text text))

theorem Concurrent.written (s : Concurrent) :
    s.passes rules.design = true → Written rules s.doc s.lexemes := by
  induction s using Concurrent.induction with
  | block label ports portMap items body inBody =>
    intro ok
    simp only [Concurrent.passes, Concurrent.passesAll_eq_all, Bool.and_eq_true,
      List.all_eq_true] at ok
    rw [Concurrent.doc, Concurrent.lexemes, Concurrent.docs_eq_map, Concurrent.lexemesAll_eq_map]
    have opened := (Port.block_written ok.1.1.1.2 ok.1.1.2).append (BlockItem.written_all ok.1.2)
    refine .region ?_ (.labelled ok.1.1.1.1 (.keyword (by decide))) opened
      (.map fun s member => inBody s member (ok.2 s member)) (by decide) rfl
    simp [Lexeme.text]
  | process p =>
    intro ok
    exact Process.written ok
  | assign a =>
    intro ok
    exact Assignment.written ok
  | instantiate i =>
    intro ok
    exact Instance.written ok
  | generate label scheme items body inBody =>
    intro ok
    simp only [Concurrent.passes, Concurrent.passesAll_eq_all, Bool.and_eq_true,
      List.all_eq_true] at ok
    have head : Line rules (.ident label :: .white " " :: .delimiter ":" :: .white " " ::
        (scheme.lexemes ++ [.white " ", .keyword "generate"])) :=
      .labelled ok.1.1.1 ((Scheme.phrase ok.1.1.2).headed (fun _ => keyword_fits (by decide)) rfl
        rfl)
    have declared := BlockItem.generate_written ok.1.2 head
    have statements : WrittenAll rules (body.map Concurrent.doc) (body.map Concurrent.lexemes) :=
      .map fun s member => inBody s member (ok.2 s member)
    have text : (label.render ++ " : " ++ scheme.text ++ " generate").toList =
        spell (.ident label :: .white " " ::
        .delimiter ":" :: .white " " :: (scheme.lexemes ++ [.white " ", .keyword "generate"])) := by
      simp [scheme.spell_lexemes, Lexeme.text]
    have final : "end generate;".toList = spell (.keyword "end" :: ending ["generate"]) := rfl
    refine ⟨?_, ?_⟩
    · have opened := ((spelled_text text).append declared.1).append statements.spelled
      simpa [Concurrent.doc, Concurrent.lexemes, Doc.outline] using opened.append
        (.gap (spelled_text final))
    · simpa [Concurrent.lexemes] using (declared.2.lines statements.line).join (.ending (by decide))

end Concurrent

section Units

theorem ContextItem.written {i : ContextItem} (ok : i.passes rules.design = true) :
    Written rules (.text i.text) i.lexemes := by
  refine .text i.spell_lexemes.symm ?_
  cases i with
  | library i =>
    exact ⟨word_phrase (by decide) (by decide) (Phrase.ident ok).operand.ended,
      _, rfl, rfl⟩
  | use n s =>
    have name := ((Name.selected n s).phrase ok).phrase.operand.ended
    refine ⟨?_, _, rfl, rfl⟩
    simpa [ContextItem.lexemes, Name.pieces, Symbol.text] using
      @word_phrase rules _ _ "use" (by decide) (by decide) name

theorem LibraryUnit.written {u : LibraryUnit} (ok : u.passes rules.design = true) :
    Written rules u.doc u.lexemes := by
  cases u with
  | entity u =>
    obtain ⟨name, ports⟩ := u
    simp only [LibraryUnit.passes, Bool.and_eq_true, List.all_eq_true] at ok
    refine .block ?_ (.headed (Phrase.ident ok.1).operand (by decide) (by decide) (by decide)) ?_
      (by decide) rfl
    · simp [Lexeme.text]
    · cases ports with
      | nil => exact .nil
      | cons p ps => exact .cons (Port.clause_written ok.2) .nil
  | architecture u =>
    simp only [LibraryUnit.passes, Bool.and_eq_true, List.all_eq_true] at ok
    have joint : Joint rules [.white " ", .keyword "of", .white " "] :=
      .keyword (by decide) (by decide)
    have entity : Phrase rules Lexeme.endsLine [.ident u.entity, .white " ", .keyword "is"] :=
      (Phrase.ident ok.1.1.2).operand.headed (fun _ => keyword_fits (by decide)) rfl rfl
    have named := Phrase.named ok.1.1.1 joint entity
    refine .region ?_ ⟨word_phrase (by decide) (by decide) named, _, rfl, rfl⟩
      (BlockItem.written_all ok.1.2)
      (.map fun s member => s.written (ok.2 s member)) (by decide) rfl
    simp [Lexeme.text]
  | package u =>
    simp only [LibraryUnit.passes, Bool.and_eq_true, List.all_eq_true] at ok
    refine .block ?_ (.headed (Phrase.ident ok.1).operand (by decide) (by decide) (by decide))
      (.map fun i member => PackageItem.written (ok.2 i member))
      (by decide) rfl
    simp [Lexeme.text]
  | packageBody u =>
    simp only [LibraryUnit.passes, Bool.and_eq_true, List.all_eq_true] at ok
    have head : Line rules [.keyword "body", .white " ", .ident u.name, .white " ",
        .keyword "is"] :=
      .headed (Phrase.ident ok.1).operand (by decide) (by decide) (by decide)
    refine .block ?_ ⟨word_phrase (by decide) (by decide) head.phrase, _, rfl, rfl⟩
      (.map fun i member => PackageBodyItem.written (ok.2 i member)) (by decide) rfl
    simp [Lexeme.text]

theorem ContextItem.written_all {context : List ContextItem}
    (ok : ∀ i ∈ context, i.passes rules.design = true) :
    WrittenAll rules (context.map fun i => .text i.text) (context.map ContextItem.lexemes) :=
  .map fun i member => ContextItem.written (ok i member)

theorem ContextItem.clause_spelled {i : ContextItem} {context : List ContextItem}
    (ok : ∀ j ∈ i :: context, j.passes rules.design = true) :
    Spelled (ContextItem.clauseDoc (i :: context)).outline
      (i.lexemes ++ lines (context.map ContextItem.lexemes)) := by
  have first := (ContextItem.written (ok i List.mem_cons_self)).spelled
  have later := ContextItem.written_all fun j member => ok j (List.mem_cons_of_mem i member)
  exact first.append later.spelled

theorem LibraryUnit.spelled_docIn {u : LibraryUnit} {context : List ContextItem}
    (ok : ∀ i ∈ context, i.passes rules.design = true) (passes : u.passes rules.design = true) :
    Spelled (u.docIn context).outline (lines (context.map ContextItem.lexemes ++
      [u.lexemes])).tail := by
  -- A unit behind its context, without the blank before both.
  have unit := (LibraryUnit.written passes).spelled
  cases context with
  | nil => simpa [LibraryUnit.docIn] using unit
  | cons i context =>
    have whole := (ContextItem.clause_spelled ok).append (.gap unit)
    simpa [LibraryUnit.docIn, Doc.outline] using whole

theorem Design.spelled_later {units : List LibraryUnit} {context : List ContextItem}
    (ok : ∀ i ∈ context, i.passes rules.design = true)
    (passes : ∀ u ∈ units, u.passes rules.design = true) :
    Spelled (Doc.concat (units.map fun u => .text "\n" ++ .line ++ u.docIn context)).outline
      (lines (units.flatMap fun u => context.map ContextItem.lexemes ++ [u.lexemes])) := by
  induction units with
  | nil => exact spelled_text rfl
  | cons u units ih =>
    have unit := LibraryUnit.spelled_docIn ok (passes u List.mem_cons_self)
    have later := ih fun v member => passes v (List.mem_cons_of_mem u member)
    have white : IsWhite "\n" := by simp [IsWhite]
    have blank : lines (context.map ContextItem.lexemes ++ [u.lexemes]) =
        .white " " :: (lines (context.map ContextItem.lexemes ++ [u.lexemes])).tail := by
      cases context <;> simp
    rw [List.flatMap_cons, lines_append, blank]
    exact (Spelled.padded white (.gap unit)).append later

theorem Design.spelled {d : Design} (ok : d.passes rules.design = true) :
    Spelled d.doc.outline d.lexemes := by
  obtain ⟨context, units⟩ := d
  simp only [Design.passes, Bool.and_eq_true, List.all_eq_true] at ok
  cases units with
  | nil =>
    cases context with
    | nil => exact spelled_text rfl
    | cons i context =>
      have clause := ContextItem.clause_spelled ok.1
      simpa [Design.doc, Design.lexemes, Design.members, Design.memberLexemes, Function.comp_def]
        using clause
  | cons u units =>
    have first := LibraryUnit.spelled_docIn ok.1 (ok.2 u List.mem_cons_self)
    have later := Design.spelled_later ok.1 fun v member => ok.2 v (List.mem_cons_of_mem u member)
    have members : (Design.mk context (u :: units)).members.map Design.memberLexemes =
        (u :: units).flatMap fun v => context.map ContextItem.lexemes ++ [v.lexemes] := by
      simp [Design.members, List.map_flatMap, Design.memberLexemes, Function.comp_def]
    rw [Design.lexemes, members, List.flatMap_cons, lines_append]
    have nonempty : lines (context.map ContextItem.lexemes ++ [u.lexemes]) ≠ [] := by
      cases context <;> simp
    rw [List.tail_append_of_ne_nil nonempty]
    exact first.append later

theorem Design.member_line {d : Design} (ok : d.passes rules.design = true) :
    ∀ x ∈ d.members.map Design.memberLexemes, Line rules x := by
  refine List.forall_mem_map.mpr fun m member => ?_
  have passes := Design.member_passes ok m member
  cases m with
  | inl i => exact (ContextItem.written passes).line
  | inr u => exact (LibraryUnit.written passes).line

theorem Design.line {d : Design} (ok : d.passes rules.design = true) :
    d.lexemes = [] ∨ Line rules d.lexemes := by
  have lined := Design.member_line ok
  rw [Design.lexemes]
  cases same : d.members.map Design.memberLexemes with
  | nil => exact .inl rfl
  | cons x xs =>
    rw [same] at lined
    have first := lined x List.mem_cons_self
    exact .inr (first.lines fun y member => lined y (List.mem_cons_of_mem x member))

theorem Design.lexemes_of_render {d : Design} (ok : d.passes rules.design = true)
    (config : Config) : squeeze (lex rules .start (d.render config).toList) = d.lexemes := by
  -- A rendered design has the design's lexemes, whatever the configuration.
  have spelled := Design.spelled ok
  rcases Design.line ok with none | line
  · rw [none] at spelled ⊢
    exact squeeze_lex_render spelled trivial (by simp) config 0 0
  · refine squeeze_lex_render spelled line.phrase.legible ?_ config 0 0
    obtain ⟨l, head, leads⟩ := line.phrase.starts
    intro m member
    obtain rfl : l = m := Option.some.inj (head.symm.trans member)
    exact Lexeme.not_blank_of_leads leads

end Units

/-- Any character may stand in a literal, and a bit string ends at its first quote. -/
def Lexer.plain : Rules where
  graphic _ := true
  bit c := c != '"'
  chained := true
  graphic_ascii _ _ := rfl
  bit_mark := by decide

/-- Rendering loses no structure: designs with the same text differ inside leaves of the same text
only. -/
theorem Design.skeleton_of_render (config : Config) (d e : Design)
    (ok : d.passes plain.design = true) (ok' : e.passes plain.design = true)
    (same : d.render config = e.render config) : d.skeleton = e.skeleton := by
  have lexemes : d.lexemes = e.lexemes := by
    rw [← Design.lexemes_of_render ok config, ← Design.lexemes_of_render ok' config, same]
  exact Design.skeleton_of_lexemes ok ok' lexemes

/-- `y <= f(1)` is written for a call and for an element alike, and nothing else is told from the
text. -/
theorem Design.skeleton_of_element :
    let driven (e : Expr) : Design := ⟨[.library (.basic "ieee")],
      [.architecture ⟨.basic "rtl", .basic "top", [],
      [.assign ⟨.simple (.basic "y"), [], .single e, none⟩]⟩]⟩
    let one := Expr.literal (.integer 1)
    let call := Expr.call (.simple (.basic "f")) [.positional (.expr one)]
    let element := Expr.name (.indexed (.simple (.basic "f")) [one])
    (driven call).passes plain.design = true ∧ (driven element).passes plain.design = true ∧
      (driven call).render {} = (driven element).render {} ∧ (driven call).skeleton =
        (driven element).skeleton := by
  intro driven one call element
  have ok : (driven call).passes plain.design = true := by decide +kernel
  have ok' : (driven element).passes plain.design = true := by decide +kernel
  have same : (driven call).render {} = (driven element).render {} := by decide +kernel
  exact ⟨ok, ok', same, Design.skeleton_of_render {} (driven call) (driven element) ok ok' same⟩

end Vhdl93
