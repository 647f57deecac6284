import Vhdl93.Proofs.Design.Declarations
import Vhdl93.Proofs.Layout.Spelling
import Vhdl93.Proofs.Lexer.Line

set_option autoImplicit false

namespace Vhdl93

open Lexer Layout

variable {rules : Rules}

section Lines

variable {xs : List Lexeme} {yss : List (List Lexeme)} {words : List String}

theorem Lexer.Line.lines (head : Line rules xs) (each : ∀ y ∈ yss, Line rules y) :
    Line rules (xs ++ lines yss) := by
  induction yss generalizing xs with
  | nil => simpa using head
  | cons y yss ih =>
    have first := head.join (each y List.mem_cons_self)
    simpa using ih first fun z member => each z (List.mem_cons_of_mem y member)

def isClosing (words : List String) : Bool :=
  words.all fun word => word ∈ reservedWords && word ≠ "all"

theorem Lexer.Phrase.ending {word : String} (closing : isClosing (word :: words) = true) :
    Phrase rules Lexeme.endsLine (.keyword word :: ending words) := by
  induction words generalizing word with
  | nil =>
    simp only [isClosing, List.all_cons, Bool.and_eq_true, decide_eq_true_eq] at closing
    exact Phrase.ended (.single (keyword_fits closing.1.1) rfl rfl)
  | cons next words ih =>
    simp only [isClosing, List.all_cons, Bool.and_eq_true, decide_eq_true_eq] at closing ih
    exact word_phrase closing.1.1 closing.1.2 (ih closing.2)

theorem Lexer.Line.ending (closing : isClosing ("end" :: words) = true) :
    Line rules (.keyword "end" :: ending words) :=
  ⟨.ending closing, _, rfl, rfl⟩

theorem Lexer.Line.headed {word last : String} (phrase : Phrase rules Lexeme.endsOperand xs)
    (member : word ∈ reservedWords) (other : word ≠ "all") (final : last ∈ reservedWords) :
    Line rules (.keyword word :: .white " " :: (xs ++ [.white " ", .keyword last])) := by
  have behind : Phrase rules Lexeme.endsLine (xs ++ [.white " ", .keyword last]) :=
    phrase.headed (fun _ => keyword_fits final) rfl rfl
  exact ⟨word_phrase member other behind, _, rfl, rfl⟩

theorem Lexer.Line.block (head : Line rules xs) (each : ∀ y ∈ yss, Line rules y)
    (closing : isClosing ("end" :: words) = true) : Line rules (block xs yss words) := by
  simpa [Lexer.block] using (head.lines each).join (.ending closing)

end Lines

/-- The lexemes that a document is written with. -/
structure Written (rules : Rules) (d : Doc) (ls : List Lexeme) : Prop where
  spelled : Spelled d.outline ls
  line : Line rules ls

inductive WrittenAll (rules : Rules) : List Doc → List (List Lexeme) → Prop where
  | nil : WrittenAll rules [] []
  | cons {d : Doc} {ls : List Lexeme} {ds : List Doc} {lss : List (List Lexeme)}
    (first : Written rules d ls)
      (rest : WrittenAll rules ds lss) : WrittenAll rules (d :: ds) (ls :: lss)

theorem WrittenAll.map {α : Type} {doc : α → Doc} {f : α → List Lexeme} {xs : List α}
    (each : ∀ x ∈ xs, Written rules (doc x) (f x)) : WrittenAll rules (xs.map doc) (xs.map f) := by
  induction xs with
  | nil => exact .nil
  | cons x xs ih =>
    exact .cons (each x List.mem_cons_self)
      (ih fun y member => each y (List.mem_cons_of_mem x member))

theorem WrittenAll.append {ds es : List Doc} {lss kss : List (List Lexeme)}
    (left : WrittenAll rules ds lss) (right : WrittenAll rules es kss) :
    WrittenAll rules (ds ++ es) (lss ++ kss) := by
  induction left with
  | nil => exact right
  | cons first _ ih => exact .cons first ih

theorem WrittenAll.line {ds : List Doc} {lss : List (List Lexeme)} (all : WrittenAll rules ds lss) :
    ∀ ls ∈ lss, Line rules ls := by
  induction all with
  | nil => simp
  | cons first _ ih => simpa [first.line] using ih

section Documents

variable {s head closing : String} {ls hs : List Lexeme} {ds is : List Doc}
    {lss kss : List (List Lexeme)}
  {words : List String}

theorem spelled_text (text : s.toList = spell ls) : Spelled (Doc.text s).outline ls := by
  simpa [Doc.outline] using Spelled.fragment text .nil

theorem Written.text (text : s.toList = spell ls) (line : Line rules ls) :
    Written rules (.text s) ls :=
  ⟨spelled_text text, line⟩

theorem WrittenAll.spelled (all : WrittenAll rules ds lss) :
    Spelled (Doc.lines ds).outline (lines lss) := by
  induction all with
  | nil => exact spelled_text rfl
  | cons first _ ih =>
    rw [lines_cons]
    exact .gap (first.spelled.append ih)

theorem spelled_block (text : head.toList = spell hs) (body : WrittenAll rules ds lss)
    (ends : closing.toList = spell (.keyword "end" :: ending words)) :
    Spelled (Doc.block head ds closing).outline (block hs lss words) := by
  have opened := (spelled_text text).append body.spelled
  have closed := (Spelled.gap .nil).append (spelled_text ends)
  simpa [Lexer.block, Doc.block, Doc.outline] using opened.append closed

theorem Written.block (text : head.toList = spell hs) (line : Line rules hs)
    (body : WrittenAll rules ds lss) (final : isClosing ("end" :: words) = true)
    (ends : closing.toList = spell (.keyword "end" :: ending words)) :
    Written rules (.block head ds closing) (block hs lss words) :=
  ⟨spelled_block text body ends, line.block body.line final⟩

theorem Written.region (text : head.toList = spell hs) (line : Line rules hs)
    (items : WrittenAll rules is kss) (body : WrittenAll rules ds lss)
    (final : isClosing ("end" :: words) = true)
    (ends : closing.toList = spell (.keyword "end" :: ending words)) :
    Written rules (.region head is ds closing) (region hs kss lss words) := by
  have start : Line rules [.keyword "begin"] := ⟨.keyword (by decide), _, rfl, rfl⟩
  have inner : Written rules (.block "begin" ds closing)
      (Lexer.block [.keyword "begin"] lss words) :=
    .block rfl start body final ends
  refine ⟨?_, ?_⟩
  · have opened := ((spelled_text text).append items.spelled).append (.gap .nil)
    simpa [Lexer.region, Doc.region, Doc.outline] using opened.append inner.spelled
  · simpa [Lexer.region] using (line.lines items.line).join inner.line

section Lists

variable {α : Type} {text : α → String} {f : α → List Lexeme} {xs : List α}

theorem spelled_later (spelled : ∀ x ∈ xs, (text x).toList = spell (f x)) :
    Spelled (Doc.concat ((xs.map text).map Doc.nextItem)).outline
      ((xs.map f).flatMap ([.delimiter ",", .white " "] ++ ·)) := by
  induction xs with
  | nil => exact spelled_text rfl
  | cons x xs ih =>
    have rest := ih fun y member => spelled y (List.mem_cons_of_mem x member)
    have comma : ",".toList = spell [.delimiter ","] := rfl
    have first := Spelled.fragment comma (.gap (.fragment (spelled x List.mem_cons_self) rest))
    simp only [List.map_cons, List.flatMap_cons]
    exact first

theorem spelled_list {os : List Lexeme} (spelled : ∀ x ∈ xs, (text x).toList = spell (f x))
    (phrases : ∀ x ∈ xs, Phrase rules Lexeme.endsOperand (f x))
    (opens : head.toList = spell (os ++ [.delimiter "("])) :
    Spelled (Doc.list head (xs.map text) ");").outline
      (os ++ (enlisted (xs.map f) ++ [.delimiter ";"])) := by
  -- A list on one line or on several is written with its items between parentheses.
  have closes : ");".toList = spell [.delimiter ")", .delimiter ";"] := rfl
  cases xs with
  | nil =>
    apply spelled_text
    simp [opens, enlisted, separated, Lexeme.text]
  | cons x xs =>
    obtain ⟨l, first, leads⟩ := (phrases x List.mem_cons_self).starts
    have later := spelled_later fun y member => spelled y (List.mem_cons_of_mem x member)
    have closing : Spelled [.edge, .fragment ");"] [.delimiter ")", .delimiter ";"] :=
      .closing closes (.inr rfl) .nil
    have items := Spelled.fragment (spelled x List.mem_cons_self) (later.append closing)
    have whole := Spelled.opening opens (.inr rfl) (head_append ⟨l, first, leads⟩ _) items
    simpa [Doc.list, Doc.outline, enlisted, separated_cons] using whole

end Lists

end Documents

section Sequential

theorem spell_separated {α : Type} {text : α → String} {f : α → List Lexeme} {xs : List α}
    {separator : String} {js : List Lexeme} (spelled : ∀ x ∈ xs, (text x).toList = spell (f x))
    (between : separator.toList = spell js) :
    (separator.intercalate (xs.map text)).toList = spell (separated js (xs.map f)) := by
  induction xs with
  | nil => rfl
  | cons x xs ih =>
    have first := spelled x List.mem_cons_self
    have later := ih fun y member => spelled y (List.mem_cons_of_mem x member)
    cases xs with
    | nil => simpa [separated] using first
    | cons y ys => simp_all [separated, String.intercalate_cons_cons]

def Sequential.Writable (rules : Rules) (s : Sequential) : Prop :=
  s.passes rules.design = true → Written rules s.doc s.lexemes

theorem Sequential.written_all {body : List Sequential}
    (each : ∀ s ∈ body, s.Writable rules)
    (ok : ∀ s ∈ body, s.passes rules.design = true) :
    WrittenAll rules (body.map Sequential.doc) (body.map Sequential.lexemes) :=
  .map fun s member => each s member (ok s member)

theorem Lexer.Line.of_name {n : Name} {ls : List Lexeme} (ok : n.passes rules.design = true)
    (phrase : Phrase rules Lexeme.endsLine (n.pieces.lexemes ++ ls)) :
    Line rules (n.pieces.lexemes ++ ls) := by
  obtain ⟨i, tail, head⟩ := n.head_accepted ok
  exact ⟨phrase, .ident i, by simp [head], rfl⟩

theorem Branch.written {b : Branch}
    (each : ∀ s ∈ b.body, s.Writable rules)
    (ok : b.passes rules.design = true) :
    Spelled b.doc.outline (.white " " :: b.lexemes) ∧ Line rules b.lexemes := by
  obtain ⟨e, body⟩ := b
  simp only [Branch.passes, Sequential.passesAll_eq_all, Bool.and_eq_true, List.all_eq_true] at ok
  have statements := Sequential.written_all each ok.2
  have text : ("elsif " ++ e.text ++ " then").toList =
      spell (.keyword "elsif" :: .white " " ::
        (e.pieces.lexemes ++ [.white " ", .keyword "then"])) := by
    simp [Lexeme.text, Pieces.spell_lexemes, Expr.text]
  have head : Line rules (.keyword "elsif" :: .white " " ::
      (e.pieces.lexemes ++ [.white " ", .keyword "then"])) :=
    .headed (e.phrase ok.1) (by decide) (by decide) (by decide)
  refine ⟨?_, ?_⟩
  · simpa [Branch.doc, Branch.lexemes, Doc.outline, Branch.body] using
      Spelled.gap ((spelled_text text).append statements.spelled)
  · simpa [Branch.lexemes, Branch.body] using head.lines statements.line

theorem Branch.spelled_all {bs : List Branch}
    (each : ∀ b ∈ bs, Spelled b.doc.outline (.white " " :: b.lexemes)) :
    Spelled (Doc.concat (bs.map Branch.doc)).outline (lines (bs.map Branch.lexemes)) := by
  induction bs with
  | nil => exact spelled_text rfl
  | cons b bs ih =>
    have first := each b List.mem_cons_self
    rw [List.map_cons, List.map_cons, lines_cons]
    exact first.append (ih fun c member => each c (List.mem_cons_of_mem b member))

theorem Sequential.else_written {body : Option (List Sequential)} {xs : List Lexeme}
    (each : ∀ ss ∈ body, ∀ s ∈ ss, s.Writable rules)
    (ok : Sequential.passesElse rules.design body = true) (line : Line rules xs) :
    Spelled (Sequential.elseDoc body).outline (Sequential.elseLexemes body) ∧
      Line rules (xs ++ Sequential.elseLexemes body) := by
  cases body with
  | none => exact ⟨spelled_text rfl, by simpa [Sequential.elseLexemes] using line⟩
  | some body =>
    simp only [Sequential.passesElse, Sequential.passesAll_eq_all, List.all_eq_true] at ok
    have statements := Sequential.written_all (each body rfl) ok
    have word : Line rules [.keyword "else"] := ⟨.keyword (by decide), _, rfl, rfl⟩
    have text : "else".toList = spell [.keyword "else"] := rfl
    refine ⟨?_, ?_⟩
    · simpa [Sequential.elseDoc, Sequential.elseLexemes, Doc.outline] using
        Spelled.gap ((spelled_text text).append statements.spelled)
    · simpa [Sequential.elseLexemes] using (line.join word).lines statements.line

theorem Alternative.written {a : Alternative}
    (each : ∀ s ∈ a.body, s.Writable rules)
    (ok : a.passes rules.design = true) : Written rules a.doc a.lexemes := by
  obtain ⟨choices, body⟩ := a
  simp only [Alternative.passes, Sequential.passesAll_eq_all, Bool.and_eq_true,
    List.all_eq_true] at ok
  have statements := Sequential.written_all each ok.2
  have texts : (" | ".intercalate (choices.map Choice.text)).toList = spell (separated
      [.white " ", .delimiter "|", .white " "] (choices.map fun c => c.pieces.lexemes)) :=
    spell_separated (fun c _ => (Pieces.spell_lexemes c.pieces).symm) rfl
  have text : ("when " ++ " | ".intercalate (choices.map Choice.text) ++ " =>").toList =
      spell (.keyword "when" ::
      .white " " :: (separated [.white " ", .delimiter "|", .white " "]
      (choices.map fun c => c.pieces.lexemes) ++
        [.white " ", .delimiter "=>"])) := by
    simp [texts, Lexeme.text]
  have listed : Phrase rules Lexeme.endsOperand
      (separated [.white " ", .delimiter "|", .white " "]
        (choices.map fun c => c.pieces.lexemes)) := by
    cases choices with
    | nil => simp [Rules.checks] at ok
    | cons c cs =>
      refine Phrase.separated (.delimiter (by decide) (by decide)) ?_
      simpa using And.intro (c.phrase (ok.1.2 c List.mem_cons_self))
        fun c' member => c'.phrase (ok.1.2 c' (List.mem_cons_of_mem c member))
  have head : Line rules (.keyword "when" :: .white " " ::
      (separated [.white " ", .delimiter "|", .white " "] (choices.map fun c => c.pieces.lexemes) ++
        [.white " ", .delimiter "=>"])) :=
    ⟨word_phrase (by decide) (by decide) (listed.headed (fun _ => ⟨by decide, by simp⟩) rfl rfl),
      _, rfl, rfl⟩
  refine ⟨?_, ?_⟩
  · simpa [Alternative.doc, Alternative.lexemes, Doc.outline, Alternative.body] using
      (spelled_text text).append statements.spelled
  · simpa [Alternative.lexemes, Alternative.body] using head.lines statements.line

theorem Expr.call_lexemes (n : Name) (as : List Association) : (Expr.call n as).pieces.lexemes =
    n.pieces.lexemes ++ if as.isEmpty then [] else enlisted (as.map fun a => a.pieces.lexemes) := by
  cases as with
  | nil => simp [Expr.pieces, Pieces.arguments]
  | cons a as =>
    simp [Expr.pieces, Pieces.arguments, lexemes_commaSeparated, enlisted, Function.comp_def]

theorem Sequential.conditional_written {e : Expr} {body : List Sequential} {elsifs : List Branch}
    {otherwise : Option (List Sequential)} (inBody : ∀ s ∈ body, s.Writable rules)
    (inElsifs : ∀ b ∈ elsifs, ∀ s ∈ b.body, s.Writable rules)
    (inElse : ∀ ss ∈ otherwise, ∀ s ∈ ss, s.Writable rules) :
    (Sequential.conditional e body elsifs otherwise).Writable rules := by
  intro ok
  simp only [Sequential.passes, Sequential.passesAll_eq_all, Branch.passesAll_eq_all,
    Bool.and_eq_true, List.all_eq_true] at ok
  have head : Line rules (.keyword "if" :: .white " " ::
      (e.pieces.lexemes ++ [.white " ", .keyword "then"])) :=
    .headed (e.phrase ok.1.1.1) (by decide) (by decide) (by decide)
  have text : ("if " ++ e.text ++ " then").toList =
      spell (.keyword "if" :: .white " " ::
        (e.pieces.lexemes ++ [.white " ", .keyword "then"])) := by
    simp [Lexeme.text, Pieces.spell_lexemes, Expr.text]
  have statements := Sequential.written_all inBody ok.1.1.2
  have branches (b : Branch) (member : b ∈ elsifs) :=
    Branch.written (inElsifs b member) (ok.1.2 b member)
  have lined : ∀ y ∈ elsifs.map Branch.lexemes, Line rules y := by
    simpa using fun b member => (branches b member).2
  have last := Sequential.else_written inElse ok.2 ((head.lines statements.line).lines lined)
  have final : "end if;".toList = spell (.keyword "end" :: ending ["if"]) := rfl
  refine ⟨?_, ?_⟩
  · have opened := (spelled_text text).append statements.spelled
    have divided := opened.append (Branch.spelled_all fun b member => (branches b member).1)
    have closed := (divided.append last.1).append (.gap (spelled_text final))
    simpa [Sequential.doc, Sequential.lexemes, Doc.outline] using closed
  · simpa [Sequential.lexemes] using last.2.join (.ending (by decide))

theorem Sequential.selection_written {e : Expr} {as : List Alternative}
    (inAlternatives : ∀ a ∈ as, ∀ s ∈ a.body, s.Writable rules) :
    (Sequential.selection e as).Writable rules := by
  intro ok
  simp only [Sequential.passes, Alternative.passesAll_eq_all, Bool.and_eq_true,
    List.all_eq_true] at ok
  have head : Line rules (.keyword "case" :: .white " " ::
      (e.pieces.lexemes ++ [.white " ", .keyword "is"])) :=
    .headed (e.phrase ok.1.1) (by decide) (by decide) (by decide)
  have alternatives : WrittenAll rules (as.map Alternative.doc) (as.map Alternative.lexemes) :=
    .map fun a member => Alternative.written (inAlternatives a member) (ok.2 a member)
  rw [Sequential.doc, Sequential.lexemes, Alternative.docs_eq_map, Alternative.lexemesAll_eq_map]
  refine .block ?_ head alternatives (by decide) rfl
  simp [Lexeme.text, Pieces.spell_lexemes, Expr.text]

theorem Sequential.forLoop_written {i : Ident} {r : Range} {body : List Sequential}
    (inBody : ∀ s ∈ body, s.Writable rules) : (Sequential.forLoop i r body).Writable rules := by
  intro ok
  simp only [Sequential.passes, Sequential.passesAll_eq_all, Bool.and_eq_true,
    List.all_eq_true] at ok
  have head : Line rules (.keyword "for" :: .white " " :: .ident i :: .white " " ::
      .keyword "in" :: .white " " ::
      (r.pieces.lexemes ++ [.white " ", .keyword "loop"])) := by
    have range : Phrase rules Lexeme.endsLine
        (r.pieces.lexemes ++ [.white " ", .keyword "loop"]) :=
      (r.phrase ok.1.2).headed (fun _ => keyword_fits (by decide)) rfl rfl
    have joint : Joint rules [.white " ", .keyword "in", .white " "] :=
      .keyword (by decide) (by decide)
    have index := Phrase.named ok.1.1 joint range
    exact ⟨word_phrase (by decide) (by decide) index, _, rfl, rfl⟩
  rw [Sequential.doc, Sequential.lexemes, Sequential.docs_eq_map, Sequential.lexemesAll_eq_map]
  refine .block ?_ head (Sequential.written_all inBody ok.2) (by decide) rfl
  simp [Lexeme.text, Pieces.spell_lexemes, Range.text]

theorem Sequential.call_written (n : Name) (as : List Association) :
    (Sequential.call n as).Writable rules := by
  intro ok
  have phrase : Phrase rules Lexeme.endsOperand (Expr.call n as).pieces.lexemes :=
    (Expr.call n as).phrase ok
  simp only [Sequential.passes, Bool.and_eq_true] at ok
  have line : Line rules ((Expr.call n as).pieces.lexemes ++ [.delimiter ";"]) := by
    have ended := phrase.ended
    rw [Expr.call_lexemes, List.append_assoc] at ended ⊢
    exact Line.of_name ok.1 ended
  refine ⟨?_, line⟩
  rw [Sequential.doc, Sequential.lexemes, Expr.call_lexemes, Name.callDoc]
  -- Without arguments there are no parentheses; else they are those of a list.
  cases as with
  | nil =>
    apply spelled_text
    simp [Lexeme.text, Pieces.spell_lexemes, Name.text]
  | cons a as =>
    have phrases := Association.phraseAll (a :: as) ok.2
    rw [Association.piecesAll_eq_map, List.forall_mem_map] at phrases
    rw [List.append_assoc]
    refine spelled_list (fun a _ => (Pieces.spell_lexemes a.pieces).symm) phrases ?_
    simp [Lexeme.text, Pieces.spell_lexemes, Name.text]

theorem Sequential.written (s : Sequential) : s.Writable rules := by
  induction s using Sequential.induction with
  | conditional e body elsifs otherwise inBody inElsifs inElse =>
    exact conditional_written inBody inElsifs inElse
  | selection e as inAlternatives => exact selection_written inAlternatives
  | forLoop i r body inBody => exact forLoop_written inBody
  | call n as => exact call_written n as
  | ret e =>
    intro ok
    cases e with
    | none => exact .text rfl ⟨.ended (.single (keyword_fits (by decide)) rfl rfl), _, rfl, rfl⟩
    | some e =>
      rw [Sequential.doc, Sequential.lexemes]
      refine .text (by simp [Lexeme.text, Pieces.spell_lexemes, Expr.text]) ⟨?_, _, rfl, rfl⟩
      exact word_phrase (by decide) (by decide) (e.phrase ok).ended
  | assign n e =>
    intro ok
    simp only [Sequential.passes, Bool.and_eq_true] at ok
    rw [Sequential.doc, Sequential.lexemes]
    refine .text (by simp [Lexeme.text, Pieces.spell_lexemes, Name.text, Expr.text])
      (Line.of_name ok.1 ?_)
    exact (n.phrase ok.1).phrase.operand.join (.delimiter (by decide) (by decide))
      (e.phrase ok.2).ended
  | wait e =>
    intro ok
    rw [Sequential.doc, Sequential.lexemes]
    refine .text (by simp [Lexeme.text, Pieces.spell_lexemes, Expr.text]) ⟨?_, _, rfl, rfl⟩
    exact word_phrase (by decide) (by decide)
      (word_phrase (by decide) (by decide) (e.phrase ok).ended)
  | drive n w =>
    intro ok
    simp only [Sequential.passes, Bool.and_eq_true] at ok
    rw [Sequential.doc, Sequential.lexemes]
    refine .text (by simp [Lexeme.text, Pieces.spell_lexemes, Name.text, Waveform.text])
      (Line.of_name ok.1 ?_)
    have waveform := (Waveform.design_phrase ok.2).ended
    exact (n.phrase ok.1).phrase.operand.join (.delimiter (by decide) (by decide)) waveform
  | null =>
    intro _
    exact .text rfl ⟨.ended (.single (keyword_fits (by decide)) rfl rfl), _, rfl, rfl⟩

end Sequential

section Declarations

theorem ObjectClass.word (kind : ObjectClass) : kind.text ∈ reservedWords ∧ kind.text ≠ "all" := by
  cases kind <;> decide

theorem Mode.word (mode : Mode) : mode.text ∈ reservedWords ∧ mode.text ≠ "all" := by
  cases mode <;> decide

theorem ObjectDecl.value_phrase {xs : List Lexeme} {v : Option Expr}
    (phrase : Phrase rules Lexeme.endsOperand xs) (ok : v.all (Expr.passes rules.design) = true) :
    Phrase rules Lexeme.endsOperand (xs ++ ObjectDecl.valueLexemes v) := by
  cases v with
  | none => simpa [ObjectDecl.valueLexemes] using phrase
  | some e => exact phrase.join (.delimiter (by decide) (by decide)) (e.phrase ok)

theorem ObjectDecl.spell_value (v : Option Expr) :
    ((v.map fun e => " := " ++ e.text).getD "").toList = spell (ObjectDecl.valueLexemes v) := by
  cases v with
  | none => rfl
  | some e => simp [ObjectDecl.valueLexemes, Lexeme.text, Pieces.spell_lexemes, Expr.text]

theorem ObjectDecl.written {d : ObjectDecl} {kind : ObjectClass}
    (ok : d.passes rules.design = true) : Written rules (d.doc kind) (d.lexemes kind) := by
  simp only [ObjectDecl.passes, Bool.and_eq_true] at ok
  rw [ObjectDecl.doc, ObjectDecl.lexemes]
  refine .text ?_ ⟨?_, _, rfl, rfl⟩
  · simp [ObjectDecl.spell_value, Lexeme.text, Pieces.spell_lexemes, SubtypeIndication.text]
  · have valued := (ObjectDecl.value_phrase (SubtypeIndication.phrase ok.1.2) ok.2).ended
    rw [List.append_assoc] at valued
    exact word_phrase kind.word.1 kind.word.2 (Phrase.named ok.1.1 .colon valued)

theorem SubtypeDecl.written {d : SubtypeDecl} (ok : d.passes rules.design = true) :
    Written rules d.doc d.lexemes := by
  simp only [SubtypeDecl.passes, Bool.and_eq_true] at ok
  rw [SubtypeDecl.doc, SubtypeDecl.lexemes]
  refine .text ?_ ⟨?_, _, rfl, rfl⟩
  · simp [Lexeme.text, Pieces.spell_lexemes, SubtypeIndication.text]
  · have joint : Joint rules [.white " ", .keyword "is", .white " "] :=
      .keyword (by decide) (by decide)
    exact word_phrase (by decide) (by decide)
      (Phrase.named ok.1 joint (SubtypeIndication.phrase ok.2).ended)

theorem EnumLiteral.spell_lexeme (l : EnumLiteral) : l.text.toList = spell [l.lexeme] := by
  cases l <;> simp [EnumLiteral.text, EnumLiteral.lexeme, Lexeme.text, Token.text]

theorem EnumLiteral.phrase {l : EnumLiteral} (ok : l.passes rules.design = true) :
    Phrase rules Lexeme.endsOperand [l.lexeme] := by
  cases l with
  | ident i => exact (Phrase.ident ok).operand
  | character c =>
    have accepted : rules.accepts (.character c) = true := ok
    exact literal_phrase accepted

theorem FieldDecl.written {f : FieldDecl} (ok : f.passes rules.design = true) :
    Written rules (.text (f.text ++ ";")) f.lexemes := by
  simp only [FieldDecl.passes, Bool.and_eq_true] at ok
  refine .text ?_ ⟨?_, _, rfl, rfl⟩
  · simp [FieldDecl.text, FieldDecl.lexemes, Lexeme.text]
  · exact Phrase.named ok.1 .colon (Phrase.ident ok.2).operand.ended

theorem Ident.unbounded_phrase {i : Ident} {is : List Ident}
    (ok : ∀ j ∈ i :: is, j.isAccepted = true) :
    Phrase rules Lexeme.endsName
      (separated [.delimiter ",", .white " "] ((i :: is).map Ident.unboundedLexemes) ++
        [.delimiter ")"]) := by
  -- A box ends no operand, so indices without bounds are joined from the right.
  have box (b : Before) : (Lexeme.delimiter "<>").Fits rules b := ⟨by decide, by simp⟩
  have meets {d : String} : (Lexeme.delimiter "<>").Meets (.delimiter d) :=
    ⟨fun c _ => by simp [Lexeme.stopsAt, compounds], by simp [Lexeme.isBlank], by simp, by simp [Lexeme.isBlank]⟩
  have joint : Joint rules [.white " ", .keyword "range", .white " "] :=
    .keyword (by decide) (by decide)
  induction is generalizing i with
  | nil =>
    have last : Phrase rules Lexeme.endsName [.delimiter "<>", .delimiter ")"] :=
      ⟨⟨box _, by simpa using meets, ⟨by decide, by simp⟩, by simp, trivial⟩, ⟨_, rfl, rfl⟩,
        _, rfl, rfl⟩
    simpa [separated, Ident.unboundedLexemes] using Phrase.named
      (ok i List.mem_cons_self) joint last
  | cons j is ih =>
    have later := @ih j fun k member => ok k (List.mem_cons_of_mem i member)
    have rest : Phrase rules Lexeme.endsName (.delimiter "<>" :: ([.delimiter ",", .white " "] ++
        (separated [.delimiter ",", .white " "] ((j :: is).map Ident.unboundedLexemes) ++
          [.delimiter ")"]))) := by
      refine ⟨⟨box _, by simpa using meets, later.behind_joint .comma (by simp [Lexeme.after])⟩,
        ⟨_, rfl, rfl⟩,
        .delimiter ")", ?_, rfl⟩
      simp [List.getLast?_cons]
    simpa [separated, Ident.unboundedLexemes] using Phrase.named
      (ok i List.mem_cons_self) joint rest

theorem Ident.unbounded_listed {is : List Ident} (nonempty : is ≠ [])
    (ok : ∀ i ∈ is, i.isAccepted = true) :
    Phrase rules Lexeme.endsName (enlisted (is.map Ident.unboundedLexemes)) := by
  cases is with
  | nil => exact absurd rfl nonempty
  | cons i is =>
    have inner : Phrase rules Lexeme.endsName _ := Ident.unbounded_phrase ok
    refine inner.cons ⟨by decide, by simp⟩ rfl (by simp [Lexeme.after]) ?_
    exact inner.head_meets fun m _ leads => Lexeme.paren_meets (Lexeme.not_blank_of_leads leads)

theorem TypeDef.array_phrase {items : List (List Lexeme)} {element : Ident}
    (ok : element.isAccepted = true) (listed : Phrase rules Lexeme.endsName (enlisted items)) :
    Phrase rules Lexeme.endsLine (TypeDef.arrayLexemes items element) := by
  have joint : Joint rules [.white " ", .keyword "of", .white " "] :=
    .keyword (by decide) (by decide)
  exact word_phrase (by decide) (by decide)
    (listed.operand.join joint (Phrase.ident ok).operand.ended)

theorem TypeDef.phrase {d : TypeDef} (ok : d.passes rules.design = true) :
    Phrase rules Lexeme.endsLine d.lexemes := by
  cases d with
  | enumeration ls =>
    simp only [TypeDef.passes, Bool.and_eq_true, List.all_eq_true] at ok
    have each : ∀ x ∈ ls.map (fun l => [l.lexeme]), Phrase rules Lexeme.endsOperand x :=
      List.forall_mem_map.mpr fun l member => EnumLiteral.phrase (ok.2 l member)
    exact (Phrase.listed .comma each).operand.ended
  | integer r => exact word_phrase (by decide) (by decide) (r.phrase ok).ended
  | unconstrainedArray is element =>
    simp only [TypeDef.passes, Bool.and_eq_true, List.all_eq_true] at ok
    have nonempty : is ≠ [] := by
      rintro rfl
      simp [Rules.checks] at ok
    exact TypeDef.array_phrase ok.2 (Ident.unbounded_listed nonempty ok.1.2)
  | constrainedArray rs element =>
    simp only [TypeDef.passes, Bool.and_eq_true, List.all_eq_true] at ok
    have each : ∀ x ∈ rs.map (fun r => r.pieces.lexemes), Phrase rules Lexeme.endsOperand x :=
      List.forall_mem_map.mpr fun r member => r.phrase (ok.1.2 r member)
    exact TypeDef.array_phrase ok.2 (.listed .comma each)
  | record fs =>
    simp only [TypeDef.passes, Bool.and_eq_true, List.all_eq_true] at ok
    have head : Line rules [.keyword "record"] := ⟨.keyword (by decide), _, rfl, rfl⟩
    have each : ∀ x ∈ fs.map FieldDecl.lexemes, Line rules x :=
      List.forall_mem_map.mpr fun f member => (FieldDecl.written (ok.2 f member)).line
    exact (head.block each (by decide)).phrase

theorem TypeDef.spelled {d : TypeDef} {head : String} {hs : List Lexeme}
    (ok : d.passes rules.design = true) (text : head.toList = spell hs) :
    Spelled (d.doc head).outline (hs ++ d.lexemes) := by
  cases d with
  | enumeration ls =>
    simp only [TypeDef.passes, Bool.and_eq_true, List.all_eq_true] at ok
    refine spelled_list (fun l _ => l.spell_lexeme)
      (fun l member => EnumLiteral.phrase (ok.2 l member)) ?_
    simp [text, Lexeme.text]
  | integer r =>
    apply spelled_text
    simp [text, TypeDef.lexemes, Lexeme.text, Pieces.spell_lexemes, Range.text]
  | unconstrainedArray is element =>
    have texts : (", ".intercalate (is.map fun i => i.render ++ " range <>")).toList =
        spell (separated [.delimiter ",", .white " "] (is.map Ident.unboundedLexemes)) :=
      spell_separated (fun i _ => by simp [Ident.unboundedLexemes, Lexeme.text]) rfl
    apply spelled_text
    simp [text, texts, TypeDef.lexemes, TypeDef.arrayLexemes, enlisted, Lexeme.text]
  | constrainedArray rs element =>
    have items : (Range.indexPieces rs).text.toList =
        spell (enlisted (rs.map fun r => r.pieces.lexemes)) := by
      rw [← Pieces.spell_lexemes]
      simp [Range.indexPieces, lexemes_commaSeparated, enlisted, Function.comp_def]
    apply spelled_text
    simp [text, items, TypeDef.lexemes, TypeDef.arrayLexemes, Lexeme.text]
  | record fs =>
    simp only [TypeDef.passes, Bool.and_eq_true, List.all_eq_true] at ok
    have fields : WrittenAll rules (fs.map fun f => .text (f.text ++ ";"))
        (fs.map FieldDecl.lexemes) :=
      .map fun f member => FieldDecl.written (ok.2 f member)
    have opens : (head ++ "record").toList =
        spell (hs ++ [.keyword "record"]) := by simp [text, Lexeme.text]
    have ends : "end record;".toList = spell (.keyword "end" :: ending ["record"]) := rfl
    simpa [TypeDef.doc, TypeDef.lexemes, Lexer.block] using spelled_block opens fields ends

theorem TypeDecl.written {d : TypeDecl} (ok : d.passes rules.design = true) :
    Written rules d.doc d.lexemes := by
  simp only [TypeDecl.passes, Bool.and_eq_true] at ok
  have joint : Joint rules [.white " ", .keyword "is", .white " "] :=
    .keyword (by decide) (by decide)
  refine ⟨?_, word_phrase (by decide) (by decide) (Phrase.named ok.1 joint (TypeDef.phrase ok.2)),
    _, rfl, rfl⟩
  have head : ("type " ++ d.name.render ++ " is ").toList =
      spell [.keyword "type", .white " ", .ident d.name,
      .white " ", .keyword "is", .white " "] := by
    simp [Lexeme.text]
  exact TypeDef.spelled ok.2 head

theorem FunctionParameter.phrase {p : FunctionParameter} (ok : p.passes rules.design = true) :
    Phrase rules Lexeme.endsOperand p.lexemes := by
  simp only [FunctionParameter.passes, Bool.and_eq_true] at ok
  exact Phrase.named ok.1 .colon (Phrase.ident ok.2).operand

theorem ProcedureParameter.phrase {p : ProcedureParameter} (ok : p.passes rules.design = true) :
    Phrase rules Lexeme.endsOperand p.lexemes := by
  simp only [ProcedureParameter.passes, Bool.and_eq_true] at ok
  have mark : Phrase rules Lexeme.endsName [.ident p.mark] := .ident ok.2
  have mode := word_phrase p.mode.word.1 p.mode.word.2 mark.operand
  exact word_phrase p.kind.word.1 p.kind.word.2 (Phrase.named ok.1 .colon mode)

section Parameters

variable {α : Type} {text : α → String} {f : α → List Lexeme} {xs : List α}

theorem Spec.spell_parameters (spelled : ∀ x ∈ xs, (text x).toList = spell (f x)) :
    (Spec.parameterText (xs.map text)).toList =
      spell (if xs.isEmpty then [] else Spec.parameterLexemes (xs.map f)) := by
  have between : "; ".toList = spell [.delimiter ";", .white " "] := rfl
  have texts := spell_separated spelled between
  cases xs with
  | nil => rfl
  | cons x xs => simp_all [Spec.parameterText, Spec.parameterLexemes, Lexeme.text]

theorem Spec.parameters_phrase {name : Ident} (ok : name.isAccepted = true)
    (phrases : ∀ x ∈ xs, Phrase rules Lexeme.endsOperand (f x)) :
    Phrase rules Lexeme.endsName (.ident name :: if xs.isEmpty then [] else Spec.parameterLexemes
      (xs.map f)) := by
  cases xs with
  | nil => exact .ident ok
  | cons x xs =>
    have listed := Phrase.separated .semicolon (List.forall_mem_map.mpr phrases)
    exact (Phrase.ident ok).applied (.inr listed)

end Parameters

theorem Spec.spell_lexemes (s : Spec) : s.text.toList = spell s.lexemes := by
  cases s with
  | function name ps result =>
    have each (p : FunctionParameter) (_ : p ∈ ps) : p.text.toList = spell p.lexemes := by
      simp [FunctionParameter.text, FunctionParameter.lexemes, Lexeme.text]
    have parameters := Spec.spell_parameters each
    simp [Spec.text, Spec.lexemes, parameters, Lexeme.text]
  | procedure name ps =>
    have each (p : ProcedureParameter) (_ : p ∈ ps) : p.text.toList = spell p.lexemes := by
      simp [ProcedureParameter.text, ProcedureParameter.lexemes, Lexeme.text]
    have parameters := Spec.spell_parameters each
    simp [Spec.text, Spec.lexemes, parameters, Lexeme.text]

theorem Spec.phrase {s : Spec} (ok : s.passes rules.design = true) :
    Phrase rules Lexeme.endsName s.lexemes := by
  cases s with
  | function name ps result =>
    simp only [Spec.passes, Bool.and_eq_true, List.all_eq_true] at ok
    have named := Spec.parameters_phrase ok.1.1 fun p member => FunctionParameter.phrase
      (ok.1.2 p member)
    have joint : Joint rules [.white " ", .keyword "return", .white " "] :=
      .keyword (by decide) (by decide)
    have returned := named.operand.join joint (Phrase.ident ok.2)
    exact word_phrase (by decide) (by decide) returned
  | procedure name ps =>
    simp only [Spec.passes, Bool.and_eq_true, List.all_eq_true] at ok
    have named := Spec.parameters_phrase ok.1 fun p member => ProcedureParameter.phrase
      (ok.2 p member)
    exact word_phrase (by decide) (by decide) named

theorem Spec.head_word (s : Spec) (ls : List Lexeme) :
    ∃ l ∈ (s.lexemes ++ ls).head?, l.isWord = true := by
  cases s <;> exact ⟨_, rfl, rfl⟩

def Declared.doc : Declared → Doc
  | .object kind d => d.doc kind
  | .type d => d.doc
  | .subtype d => d.doc
  | .spec s => .text (s.text ++ ";")
  | .body b => b.doc

theorem Declared.written {d : Declared} (ok : d.passes rules.design = true)
    (inside : ∀ b, d = .body b → Written rules b.doc b.lexemes) :
    Written rules d.doc d.lexemes := by
  cases d with
  | object kind d => exact ObjectDecl.written ok
  | type d => exact TypeDecl.written ok
  | subtype d => exact SubtypeDecl.written ok
  | spec s =>
    refine .text ?_ ⟨(Spec.phrase ok).operand.ended, s.head_word _⟩
    simp [Declared.lexemes, s.spell_lexemes, Lexeme.text]
  | body b => exact inside b rfl

theorem SubprogramItem.doc_declared (i : SubprogramItem) : i.doc = i.declared.doc := by
  cases i <;> simp [SubprogramItem.doc, SubprogramItem.declared, Declared.doc]

theorem SubprogramBody.written (b : SubprogramBody) :
    b.passes rules.design = true → Written rules b.doc b.lexemes := by
  induction b using SubprogramBody.induction with
  | mk spec items body inside =>
    intro ok
    simp only [SubprogramBody.passes, SubprogramItem.passesAll_eq_all, Bool.and_eq_true,
      List.all_eq_true] at ok
    have declared : WrittenAll rules (items.map SubprogramItem.doc)
        (items.map fun i => i.declared.lexemes) := by
      refine .map fun i member => ?_
      have passes := (i.passes_declared rules.design).trans (ok.1.2 i member)
      have nested (b : SubprogramBody) (origin : i.declared = .body b) :
          Written rules b.doc b.lexemes := by
        obtain rfl := SubprogramItem.of_declared_body origin
        exact inside b member passes
      rw [SubprogramItem.doc_declared]
      exact Declared.written passes nested
    have statements : WrittenAll rules (body.map Sequential.doc) (body.map Sequential.lexemes) :=
      .map fun s member => s.written (ok.2 s member)
    rw [SubprogramBody.doc, SubprogramBody.lexemes, SubprogramItem.docs_eq_map,
      SubprogramItem.lexemesAll_eq_map]
    have head : Line rules (spec.lexemes ++ [.white " ", .keyword "is"]) :=
      ⟨(Spec.phrase ok.1.1).operand.headed (fun _ => keyword_fits (by decide)) rfl rfl,
        spec.head_word _⟩
    refine .region ?_ head declared statements ?_ ?_
    · simp [spec.spell_lexemes, Lexeme.text]
    · cases spec <;> simp [isClosing, Spec.word] <;> decide
    · cases spec <;> simp [Spec.closing, Spec.word, ending, Lexeme.text]

theorem Declared.item_written {d : Declared} (ok : d.passes rules.design = true) :
    Written rules d.doc d.lexemes := by
  refine Declared.written ok fun b origin => ?_
  rw [origin] at ok
  exact b.written ok

theorem SubprogramItem.written {i : SubprogramItem} (ok : i.passes rules.design = true) :
    Written rules i.doc i.declared.lexemes := by
  rw [SubprogramItem.doc_declared]
  exact Declared.item_written ((i.passes_declared _).trans ok)

theorem PackageItem.written {i : PackageItem} (ok : i.passes rules.design = true) :
    Written rules i.doc i.declared.lexemes := by
  have same : i.doc = i.declared.doc := by cases i <;> rfl
  rw [same]
  exact Declared.item_written ((i.passes_declared _).trans ok)

theorem PackageBodyItem.written {i : PackageBodyItem} (ok : i.passes rules.design = true) :
    Written rules i.doc i.declared.lexemes := by
  have same : i.doc = i.declared.doc := by cases i <;> rfl
  rw [same]
  exact Declared.item_written ((i.passes_declared _).trans ok)

theorem BlockItem.written {i : BlockItem} (ok : i.passes rules.design = true) :
    Written rules i.doc i.declared.lexemes := by
  have same : i.doc = i.declared.doc := by cases i <;> rfl
  rw [same]
  exact Declared.item_written ((i.passes_declared _).trans ok)

end Declarations

end Vhdl93
