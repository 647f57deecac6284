import Vhdl93.Design.Layout
import Vhdl93.Proofs.Design.Trees
import Vhdl93.Proofs.Inline.Rows
import Vhdl93.Proofs.Layout.Width

set_option autoImplicit false

/-!
Documents of rows. In every layout a row is one line, the document goes on only at the start of a
line, and a group stands only there. Every unit of a design is such a document, and the rows of it
are as much as its identifiers and literals were checked for.
-/

namespace Vhdl93

/-- Where a document goes on: at the start of a line, or behind a line that is at most `slack`
levels deeper than the document. -/
inductive Cursor where
  | start
  | behind (slack : Nat)

namespace Doc

/-- The document goes from one cursor to the other by rows for which `T` holds. The bounds keep the
next line at most one level deeper and at most two levels back. -/
inductive Rows (T : String → Prop) : Cursor → Doc → Cursor → Prop where
  | none (p : Cursor) : Rows T p .empty p
  | row {s : String} (holds : T s) : Rows T .start (.text s) (.behind 0)
  | line {slack : Nat} (near : slack ≤ 2) : Rows T (.behind slack) .line .start
  | body {slack inner : Nat} {ds : List Doc} (each : ∀ d ∈ ds, Rows T .start d (.behind inner))
      (near : slack ≤ 3) (deep : inner ≤ 2) :
      Rows T (.behind slack) (.nest (.lines ds)) (.behind (max slack (inner + 1)))
  -- A broken group is written as `opened`, in which lines stand for its own places to break.
  | group {d opened : Doc} {slack : Nat}
      (same : ∀ (config : Config) (depth column : Nat),
        d.render config depth column = opened.render config depth column)
      (broken : Rows T .start opened (.behind slack)) (flat : T d.flat) :
      Rows T .start (.group d) (.behind slack)
  | cat {p q r : Cursor} {a b : Doc} (first : Rows T p a q) (second : Rows T q b r) :
      Rows T p (a ++ b) r
  | loosen {p : Cursor} {d : Doc} {slack slack' : Nat} (rows : Rows T p d (.behind slack))
      (le : slack ≤ slack') : Rows T p d (.behind slack')

namespace Rows

variable {T : String → Prop} {p q : Cursor} {slack inner : Nat} {ds is : List Doc}
  {head closing : String}

theorem concat (each : ∀ d ∈ ds, Rows T p d p) : Rows T p (.concat ds) p := by
  induction ds with
  | nil => exact .none p
  | cons d ds ih =>
    have first := each d List.mem_cons_self
    exact first.cat (ih fun e member => each e (List.mem_cons_of_mem d member))

theorem lines (each : ∀ d ∈ ds, Rows T .start d (.behind slack)) (near : slack ≤ 2) :
    Rows T (.behind slack) (.lines ds) (.behind slack) := by
  apply concat
  exact List.forall_mem_map.mpr fun d member => (Rows.line near).cat (each d member)

theorem headed (first : T head) (each : ∀ d ∈ ds, Rows T .start d (.behind inner))
    (deep : inner ≤ 1) :
    Rows T .start (.text head ++ .nest (.lines ds)) (.behind (inner + 1)) :=
  (Rows.row first).cat ((Rows.body each (by omega) (by omega)).loosen (by omega))

theorem block (first : T head) (each : ∀ d ∈ ds, Rows T .start d (.behind inner))
    (deep : inner ≤ 1) (last : T closing) :
    Rows T .start (.block head ds closing) (.behind 0) :=
  ((headed first each deep).cat (.line (by omega))).cat (.row last)

theorem region (first : T head) (items : ∀ d ∈ is, Rows T .start d (.behind 0)) (middle : T "begin")
    (body : ∀ d ∈ ds, Rows T .start d (.behind inner)) (deep : inner ≤ 1) (last : T closing) :
    Rows T .start (.region head is ds closing) (.behind 0) :=
  ((headed first items (by omega)).cat (.line (by omega))).cat (block middle body deep last)

theorem branch (first : T head) (each : ∀ d ∈ ds, Rows T .start d (.behind 0)) :
    Rows T (.behind 1) (.line ++ .text head ++ .nest (.lines ds)) (.behind 1) :=
  ((Rows.line (by omega)).cat (.row first)).cat
    ((Rows.body each (by omega) (by omega)).loosen (by omega))

theorem map {α : Type} {f : α → Doc} {xs : List α} (each : ∀ x ∈ xs, Rows T p (f x) q) :
    ∀ d ∈ xs.map f, Rows T p d q :=
  List.forall_mem_map.mpr each

end Rows

def itemRows : String → List String → List Doc
  | item, [] => [.text item]
  | item, next :: rest => .text (item ++ ",") :: itemRows next rest

theorem render_itemRows (config : Config) (depth column : Nat) (first : String)
    (rest : List String) :
    (.soft ++ .text first ++ concat (rest.map nextItem)).render config depth column =
      (lines (itemRows first rest)).render config depth column := by
  have items : ∀ first : String, Text.breakWith (config.indentSize * depth) ++ first ++
      String.join (rest.map ("," ++ Text.breakWith (config.indentSize * depth) ++ ·)) =
      String.join ((itemRows first rest).map fun d =>
        Text.breakWith (config.indentSize * depth) ++
          d.render config depth (config.indentSize * depth)) := by
    induction rest with
    | nil => simp [itemRows, render]
    | cons next rest ih =>
      intro first
      have later := ih next
      simp only [List.map_cons, String.join_cons, itemRows, render, String.append_assoc] at later ⊢
      rw [later]
  rw [render_lines, ← items first, render_append, render_nextItems]
  rfl

end Doc

open Doc Care

variable {care : Care}

section Lists

theorem Care.rows_items {first : String} {rest : List String}
    (each : ∀ item ∈ first :: rest, care.Row item) :
    ∀ d ∈ itemRows first rest, Rows care.Row .start d (.behind 0) := by
  induction rest generalizing first with
  | nil => simpa [itemRows] using Rows.row (each first List.mem_cons_self)
  | cons next rest ih =>
    have row : Rows care.Row .start (.text (first ++ ",")) (.behind 0) :=
      .row ((each first List.mem_cons_self).ended (by decide))
    exact List.forall_mem_cons.mpr
      ⟨row, ih fun item member => each item (List.mem_cons_of_mem first member)⟩

theorem Care.rows_list {opening closing : String} {items : List String} (first : care.Row opening)
    (each : ∀ item ∈ items, care.Row item) (last : care.Row closing) :
    Rows care.Row .start (.list opening items closing) (.behind 0) := by
  cases items with
  | nil => exact .row (first.opens.close last.closes)
  | cons item rest =>
    have flat : care.Row (Doc.list opening (item :: rest) closing).flat := by
      rw [flat_list]
      have inner : care.Inside (", ".intercalate (item :: rest)) :=
        inside_intercalate (inside (by decide)) fun item member => (each item member).inside
      exact (first.opens.append inner).close last.closes
    have broken := Rows.block first (rows_items each) (by omega) last
    refine .group (fun config depth column => ?_) broken flat
    have rows := render_itemRows config (depth + 1) (Text.advance column opening) item rest
    simp only [Doc.block, render_append, render] at rows ⊢
    rw [rows]

end Lists

section Sequential

theorem Association.rows_text {as : List Association}
    (ok : ∀ a ∈ as, care.Trusts (a.passes care.checks)) :
    ∀ item ∈ as.map Association.text, care.Row item :=
  List.forall_mem_map.mpr fun a member => a.row (ok a member)

theorem Name.rows_callDoc {n : Name} {as : List Association}
    (name : care.Trusts (n.passes care.checks))
    (arguments : care.Trusts (Association.passesAll care.checks as)) :
    Rows care.Row .start (n.callDoc as) (.behind 0) := by
  have row := n.row name
  unfold Name.callDoc
  split
  · exact .row (row.ended (by decide))
  · have items : ∀ item ∈ as.map Association.text, care.Row item :=
      List.forall_mem_map.mpr (Association.rowAll as arguments)
    exact rows_list (row.ended (by decide)) items (fixed (by decide))

theorem Sequential.rows_else {otherwise : Option (List Sequential)}
    (body : ∀ last ∈ otherwise, ∀ s ∈ last, Rows care.Row .start s.doc (.behind 0)) :
    Rows care.Row (.behind 1) (Sequential.elseDoc otherwise) (.behind 1) := by
  cases otherwise with
  | none => exact .none _
  | some last =>
    rw [Sequential.elseDoc, Sequential.docs_eq_map]
    exact .branch (fixed (by decide)) (.map (body last rfl))

def Sequential.InRows (care : Care) (s : Sequential) : Prop :=
  care.Trusts (s.passes care.checks) → Rows care.Row .start s.doc (.behind 0)

theorem Branch.rows {b : Branch} (each : ∀ s ∈ b.body, s.InRows care)
    (ok : care.Trusts (b.passes care.checks)) : Rows care.Row (.behind 1) b.doc (.behind 1) := by
  obtain ⟨e, body⟩ := b
  simp only [Branch.passes, Sequential.passesAll_eq_all, trusts_and, trusts_all] at ok
  rw [Layout.doc_branch]
  exact .branch ((e.row ok.1).inside.framed (by decide) (by decide))
    (.map fun s member => each s member (ok.2 s member))

theorem Alternative.rows {a : Alternative} (each : ∀ s ∈ a.body, s.InRows care)
    (ok : care.Trusts (a.passes care.checks)) : Rows care.Row .start a.doc (.behind 1) := by
  obtain ⟨choices, body⟩ := a
  simp only [Alternative.passes, Sequential.passesAll_eq_all, trusts_and, trusts_all] at ok
  have head : care.Row ("when " ++ " | ".intercalate (choices.map Choice.text) ++ " =>") :=
    (inside_intercalate (inside (by decide))
      (inside_map fun c member => (c.row (ok.1.2 c member)).inside)).framed
      (by decide) (by decide)
  rw [Alternative.doc, Sequential.docs_eq_map]
  exact .headed head (.map fun s member => each s member (ok.2 s member)) (by omega)

theorem Sequential.rows_conditional {c : Expr} {body : List Sequential} {elsifs : List Branch}
    {otherwise : Option (List Sequential)} (statements : ∀ s ∈ body, s.InRows care)
    (branches : ∀ b ∈ elsifs, ∀ s ∈ b.body, s.InRows care)
    (last : ∀ ss ∈ otherwise, ∀ s ∈ ss, s.InRows care) :
    (Sequential.conditional c body elsifs otherwise).InRows care := by
  intro ok
  simp only [Sequential.passes, Sequential.passesAll_eq_all, Branch.passesAll_eq_all, trusts_and,
    trusts_all] at ok
  obtain ⟨⟨⟨condition, first⟩, more⟩, rest⟩ := ok
  have opened : Rows care.Row .start
      (.text ("if " ++ c.text ++ " then") ++ .nest (.lines (body.map Sequential.doc)))
      (.behind 1) :=
    .headed ((c.row condition).inside.framed (by decide) (by decide))
      (.map fun s member => statements s member (first s member)) (by omega)
  have later : Rows care.Row (.behind 1) (.concat (elsifs.map Branch.doc)) (.behind 1) :=
    .concat (.map fun b member => Branch.rows (branches b member) (more b member))
  have final : Rows care.Row (.behind 1) (Sequential.elseDoc otherwise) (.behind 1) := by
    apply Sequential.rows_else
    rintro ss rfl s member
    simp only [Sequential.passesElse, Sequential.passesAll_eq_all, trusts_all] at rest
    exact last ss rfl s member (rest s member)
  rw [Layout.doc_conditional]
  exact (((opened.cat later).cat final).cat (.line (by omega))).cat (.row (fixed (by decide)))

theorem Sequential.rows (s : Sequential) : s.InRows care := by
  induction s using Sequential.induction with
  | conditional c body elsifs otherwise statements branches last =>
    exact rows_conditional statements branches last
  | selection e as alternatives =>
    intro ok
    simp only [Sequential.passes, Alternative.passesAll_eq_all, trusts_and, trusts_all] at ok
    rw [Layout.doc_selection]
    have head : care.Row ("case " ++ e.text ++ " is") :=
      (e.row ok.1.1).inside.framed (by decide) (by decide)
    exact .block head
      (.map fun a member => Alternative.rows (alternatives a member) (ok.2 a member))
      (Nat.le_refl 1) (fixed (by decide))
  | ret e =>
    intro ok
    cases e with
    | none => exact .row (fixed (by decide))
    | some e =>
      simp only [Sequential.passes, trusts_option] at ok
      exact .row ((e.row (ok e rfl)).inside.framed (by decide) (by decide))
  | forLoop i r body statements =>
    intro ok
    simp only [Sequential.passes, Sequential.passesAll_eq_all, trusts_and, trusts_all] at ok
    rw [Layout.doc_loop]
    have head : care.Opens ("for " ++ i.render ++ " in " ++ r.text) :=
      (((Ident.row ok.1.1).inside.led (by decide)).word (by decide)).append (r.row ok.1.2).inside
    exact .block (head.ended (by decide))
      (.map fun s member => statements s member (ok.2 s member)) (Nat.zero_le 1) (fixed (by decide))
  | assign n e =>
    intro ok
    simp only [Sequential.passes, trusts_and] at ok
    have target : care.Opens (n.text ++ " := ") := (n.row ok.1).opens.word (by decide)
    exact .row ((target.append (e.row ok.2).inside).ended (by decide))
  | wait e =>
    intro ok
    exact .row ((e.row ok).inside.framed (by decide) (by decide))
  | drive n w =>
    intro ok
    simp only [Sequential.passes, trusts_and] at ok
    have target : care.Opens (n.text ++ " <= ") := (n.row ok.1).opens.word (by decide)
    exact .row ((target.append (Waveform.inside ok.2)).ended (by decide))
  | call n as =>
    intro ok
    simp only [Sequential.passes, trusts_and] at ok
    exact Name.rows_callDoc ok.1 ok.2
  | null =>
    intro _
    exact .row (fixed (by decide))

end Sequential

section Declarations

theorem ObjectClass.opens (kind : ObjectClass) : care.Opens kind.text := by
  cases kind <;> exact Care.opens (by decide)

theorem Mode.inside (m : Mode) : care.Inside m.text := by
  cases m <;> exact Care.inside (by decide)

theorem ObjectDecl.rows (kind : ObjectClass) {d : ObjectDecl}
    (ok : care.Trusts (d.passes care.checks)) : Rows care.Row .start (d.doc kind) (.behind 0) := by
  obtain ⟨name, subtype, value⟩ := d
  simp only [ObjectDecl.passes, trusts_and, trusts_option] at ok
  have initial : care.Inside ((value.map fun e => " := " ++ e.text).getD "") := by
    cases value with
    | none => exact inside (by decide)
    | some e => exact (e.row (ok.2 e rfl)).inside.after (by decide)
  have named : care.Opens (kind.text ++ " " ++ name.render ++ " : ") :=
    ((kind.opens.word (by decide)).append (Ident.row ok.1.1).inside).word (by decide)
  exact .row (((named.append (SubtypeIndication.row ok.1.2).inside).append initial).ended
    (by decide))

theorem EnumLiteral.row {l : EnumLiteral} (ok : care.Trusts (l.passes care.checks)) :
    care.Row l.text := by
  cases l with
  | ident i => exact Ident.row ok
  | character c =>
    have literal : care.Trusts (care.checks.literal (.character c)) := ok
    simpa [Literal.pieces, EnumLiteral.text] using Literal.row literal

theorem TypeDecl.rows {d : TypeDecl} (ok : care.Trusts (d.passes care.checks)) :
    Rows care.Row .start d.doc (.behind 0) := by
  obtain ⟨name, definition⟩ := d
  simp only [TypeDecl.passes, trusts_and] at ok
  obtain ⟨named, defined⟩ := ok
  have head : care.Opens ("type " ++ name.render ++ " is ") :=
    ((Ident.row named).inside.led (by decide)).word (by decide)
  cases definition with
  | enumeration ls =>
    simp only [TypeDef.passes, trusts_and, trusts_all] at defined
    exact rows_list (head.ended (by decide))
      (List.forall_mem_map.mpr fun l member => EnumLiteral.row (defined.2 l member))
      (fixed (by decide))
  | integer r =>
    exact .row (((head.word (by decide)).append (r.row defined).inside).ended (by decide))
  | unconstrainedArray is element =>
    simp only [TypeDef.passes, trusts_and, trusts_all] at defined
    have indices : care.Inside (", ".intercalate (is.map fun i => i.render ++ " range <>")) :=
      inside_intercalate (inside (by decide))
        (inside_map fun i member => (Ident.row (defined.1.2 i member)).inside.word (by decide))
    exact .row (((((head.word (by decide)).append indices).word (by decide)).append
      (Ident.row defined.2).inside).ended (by decide))
  | constrainedArray rs element =>
    simp only [TypeDef.passes, trusts_and, trusts_all] at defined
    exact .row (((((head.word (by decide)).append (Range.row_index defined.1.2).inside).append
      (inside (by decide))).append (Ident.row defined.2).inside).ended (by decide))
  | record fs =>
    simp only [TypeDef.passes, trusts_and, trusts_all] at defined
    refine .block (head.ended (by decide)) (.map fun f member => ?_) (Nat.zero_le 1)
      (fixed (by decide))
    have field := defined.2 f member
    simp only [FieldDecl.passes, trusts_and] at field
    exact .row ((((Ident.row field.1).opens.word (by decide)).append
      (Ident.row field.2).inside).ended (by decide))

theorem SubtypeDecl.rows {d : SubtypeDecl} (ok : care.Trusts (d.passes care.checks)) :
    Rows care.Row .start d.doc (.behind 0) := by
  simp only [SubtypeDecl.passes, trusts_and] at ok
  have head : care.Opens ("subtype " ++ d.name.render ++ " is ") :=
    ((Ident.row ok.1).inside.led (by decide)).word (by decide)
  exact .row ((head.append (SubtypeIndication.row ok.2).inside).ended (by decide))

theorem Spec.inside_parameters {parameters : List String}
    (each : ∀ x ∈ parameters, care.Inside x) : care.Inside (Spec.parameterText parameters) := by
  unfold Spec.parameterText
  split
  · exact inside (by decide)
  · exact (row_parenthesized (inside_intercalate (inside (by decide)) each)).inside

theorem Spec.opens {s : Spec} (ok : care.Trusts (s.passes care.checks)) : care.Opens s.text := by
  cases s with
  | function name parameters result =>
    simp only [Spec.passes, FunctionParameter.passes, trusts_and, trusts_all] at ok
    have listed : care.Inside
        (Spec.parameterText (parameters.map FunctionParameter.text)) :=
      Spec.inside_parameters (inside_map fun p member =>
        ((Ident.row (ok.1.2 p member).1).inside.word (by decide)).append
          (Ident.row (ok.1.2 p member).2).inside)
    exact (((Opens.append (Care.opens (by decide)) (Ident.row ok.1.1).inside).append listed).append
      (inside (by decide))).append (Ident.row ok.2).inside
  | procedure name parameters =>
    simp only [Spec.passes, ProcedureParameter.passes, trusts_and, trusts_all] at ok
    have listed : care.Inside
        (Spec.parameterText (parameters.map ProcedureParameter.text)) := by
      refine Spec.inside_parameters (inside_map fun p member => ?_)
      have named : care.Inside (p.kind.text ++ " " ++ p.name.render ++ " : ") :=
        (((p.kind.opens.inside.word (by decide)).append
          (Ident.row (ok.2 p member).1).inside).word (by decide))
      exact ((named.append p.mode.inside).word (by decide)).append
        (Ident.row (ok.2 p member).2).inside
    exact (Opens.append (Care.opens (by decide)) (Ident.row ok.1).inside).append listed

theorem PackageItem.rows {i : PackageItem} (ok : care.Trusts (i.passes care.checks)) :
    Rows care.Row .start i.doc (.behind 0) := by
  cases i with
  | typeDecl d => exact TypeDecl.rows ok
  | subtypeDecl d => exact SubtypeDecl.rows ok
  | constantDecl d => exact ObjectDecl.rows .constant ok
  | subprogramDecl s => exact .row ((Spec.opens ok).ended (by decide))

theorem SubprogramBody.rows (b : SubprogramBody) : care.Trusts (b.passes care.checks) →
    Rows care.Row .start b.doc (.behind 0) := by
  induction b using SubprogramBody.induction with
  | mk spec items body inner =>
    intro ok
    simp only [SubprogramBody.passes, SubprogramItem.passesAll_eq_all, trusts_and,
      trusts_all] at ok
    rw [Layout.doc_subprogram]
    have closing : care.Row spec.closing := by
      cases spec with
      | function => exact (fixed (by decide) : care.Row "end function;")
      | procedure => exact (fixed (by decide) : care.Row "end procedure;")
    refine .region ((Spec.opens ok.1.1).ended (by decide)) (.map fun i member => ?_)
      (fixed (by decide))
      (.map fun s member => s.rows (ok.2 s member)) (Nat.zero_le 1) closing
    have passed := ok.1.2 i member
    cases i with
    | variableDecl d => exact ObjectDecl.rows .variable passed
    | constantDecl d => exact ObjectDecl.rows .constant passed
    | subprogram b => exact inner b member passed

theorem SubprogramItem.rows {i : SubprogramItem} (ok : care.Trusts (i.passes care.checks)) :
    Rows care.Row .start i.doc (.behind 0) := by
  cases i with
  | variableDecl d => exact ObjectDecl.rows .variable ok
  | constantDecl d => exact ObjectDecl.rows .constant ok
  | subprogram b => exact b.rows ok

theorem PackageBodyItem.rows {i : PackageBodyItem} (ok : care.Trusts (i.passes care.checks)) :
    Rows care.Row .start i.doc (.behind 0) := by
  cases i with
  | constantDecl d => exact ObjectDecl.rows .constant ok
  | subprogram b => exact b.rows ok

theorem BlockItem.rows {i : BlockItem} (ok : care.Trusts (i.passes care.checks)) :
    Rows care.Row .start i.doc (.behind 0) := by
  cases i with
  | signalDecl d => exact ObjectDecl.rows .signal ok
  | constantDecl d => exact ObjectDecl.rows .constant ok
  | typeDecl d => exact TypeDecl.rows ok
  | subtypeDecl d => exact SubtypeDecl.rows ok
  | subprogram b => exact b.rows ok

end Declarations

section Concurrent

theorem Port.row {p : Port} (ok : care.Trusts (p.passes care.checks)) : care.Row p.text := by
  simp only [Port.passes, trusts_and] at ok
  have named : care.Opens (p.name.render ++ " : " ++ p.mode.text ++ " ") :=
    (((Ident.row ok.1).opens.word (by decide)).append p.mode.inside).word (by decide)
  exact named.close (Ident.row ok.2).closes

theorem Port.rows_docs : ∀ {ps : List Port}, (∀ p ∈ ps, care.Trusts (p.passes care.checks)) →
    ∀ d ∈ Port.docs ps, Rows care.Row .start d (.behind 0)
  | [], _ => List.forall_mem_nil _
  | [p], ok => List.forall_mem_singleton.mpr (.row (Port.row (ok p List.mem_cons_self)))
  | p :: q :: ps, ok => by
      have first : care.Row (p.text ++ ";") :=
        (Port.row (ok p List.mem_cons_self)).ended (by decide)
      exact List.forall_mem_cons.mpr
        ⟨.row first, Port.rows_docs fun r member => ok r (List.mem_cons_of_mem p member)⟩

theorem Port.rows_clauseDoc {ps : List Port} (ok : ∀ p ∈ ps, care.Trusts (p.passes care.checks)) :
    Rows care.Row .start (Port.clauseDoc ps) (.behind 0) :=
  .block (fixed (by decide)) (Port.rows_docs ok) (Nat.zero_le 1) (fixed (by decide))

theorem Association.rows_mapDoc {as : List Association}
    (ok : ∀ a ∈ as, care.Trusts (a.passes care.checks)) :
    Rows care.Row .start (Association.mapDoc as) (.behind 0) :=
  rows_list (fixed (by decide)) (Association.rows_text ok) (fixed (by decide))

theorem Process.rows {p : Process} (ok : care.Trusts (p.passes care.checks)) :
    Rows care.Row .start p.doc (.behind 0) := by
  obtain ⟨label, sensitivity, items, body⟩ := p
  simp only [Process.passes, trusts_and, trusts_all] at ok
  obtain ⟨⟨⟨named, sensitive⟩, declared⟩, stated⟩ := ok
  have head : care.Row (label.render ++ " : process" ++ if sensitivity.isEmpty then "" else
      " (" ++ ", ".intercalate (sensitivity.map Ident.render) ++ ")") := by
    have process : care.Row (label.render ++ " : process") := (Ident.row named).ended (by decide)
    split
    · simpa using process
    · have signals := inside_intercalate (inside (by decide) : care.Inside ", ")
        (inside_map fun i member => (Ident.row (sensitive i member)).inside)
      exact process.opens.close (Closes.behind (closes (by decide)) (signals.after (by decide)))
  exact .region head (.map fun i member => SubprogramItem.rows (declared i member))
    (fixed (by decide)) (.map fun s member => s.rows (stated s member)) (Nat.zero_le 1)
    (fixed (by decide))

theorem ConditionalWaveform.closes {w : ConditionalWaveform}
    (ok : care.Trusts (w.passes care.checks)) : care.Closes w.text := by
  simp only [ConditionalWaveform.passes, trusts_and] at ok
  exact (w.condition.row ok.2).closes.behind ((Waveform.inside ok.1).word (by decide))

theorem Assignment.inside_last {a : Assignment}
    (waveform : care.Trusts (a.waveform.passes care.checks))
    (condition : ∀ e ∈ a.condition, care.Trusts (e.passes care.checks)) :
    care.Inside a.lastText := by
  have guard : care.Inside ((a.condition.map fun e => " when " ++ e.text).getD "") := by
    cases same : a.condition with
    | none => exact inside (by decide)
    | some e => exact (e.row (condition e same)).inside.after (by decide)
  exact (Waveform.inside waveform).append guard

def Assignment.elseRows (parts : List String) (last : String) : List Doc :=
  parts.map (fun part => .text ("else " ++ part)) ++ [.text ("else " ++ last ++ ";")]

theorem Assignment.render_elseRows (config : Config) (depth column : Nat) (parts : List String)
    (last : String) :
    (concat ((parts ++ [last]).map Assignment.elseDoc)).render config depth column ++ ";" =
      (Doc.lines (Assignment.elseRows parts last)).render config depth column := by
  rw [render_elseDocs, render_lines]
  simp [Assignment.elseRows, Doc.render, Function.comp_def, String.append_assoc]

theorem Assignment.inside_elseDocs {parts : List String} (each : ∀ part ∈ parts, care.Inside part) :
    care.Inside (concat (parts.map Assignment.elseDoc)).flat := by
  induction parts with
  | nil => exact inside (by decide)
  | cons part parts ih =>
    have first : care.Inside (" " ++ ("else " ++ part)) :=
      ((each part List.mem_cons_self).after (by decide)).after (by decide)
    exact first.append (ih fun q member => each q (List.mem_cons_of_mem part member))

theorem Assignment.rows {a : Assignment} (ok : care.Trusts (a.passes care.checks)) :
    Rows care.Row .start a.doc (.behind 1) := by
  simp only [Assignment.passes, trusts_and, trusts_all, trusts_option] at ok
  obtain ⟨⟨⟨target, guarded⟩, waveform⟩, condition⟩ := ok
  have driven : care.Opens (a.target.text ++ " <= ") := (a.target.row target).opens.word (by decide)
  have last : care.Inside a.lastText := Assignment.inside_last waveform condition
  have each : ∀ part ∈ a.conditionals.map ConditionalWaveform.text, care.Closes part :=
    List.forall_mem_map.mpr fun w member => ConditionalWaveform.closes (guarded w member)
  cases parts : a.conditionals.map ConditionalWaveform.text with
  | nil =>
    have single : a.doc = .text (a.target.text ++ " <= " ++ a.lastText ++ ";") := by
      simp [Assignment.doc, parts]
    rw [single]
    exact (Rows.row ((driven.append last).ended (by decide))).loosen (Nat.zero_le 1)
  | cons first rest =>
    rw [parts] at each
    have head : care.Row (a.target.text ++ " <= " ++ first) :=
      driven.close (each first List.mem_cons_self)
    have later : ∀ d ∈ Assignment.elseRows rest a.lastText, Rows care.Row .start d (.behind 0) := by
      intro d member
      rcases List.mem_append.mp member with middle | final
      · obtain ⟨part, guarded, rfl⟩ := List.mem_map.mp middle
        have closed := each part (List.mem_cons_of_mem first guarded)
        exact .row (Opens.close (opens (by decide)) closed)
      · rw [List.mem_singleton.mp final]
        exact .row (last.framed (by decide) (by decide))
    have flat : care.Inside (concat ((rest ++ [a.lastText]).map Assignment.elseDoc)).flat := by
      apply Assignment.inside_elseDocs
      intro part member
      rcases List.mem_append.mp member with middle | final
      · exact (each part (List.mem_cons_of_mem first middle)).inside
      · rw [List.mem_singleton.mp final]
        exact last
    rw [Layout.doc_assignment parts]
    refine .group (fun config depth column => ?_) (.headed head later (Nat.zero_le 1))
      ((head.opens.append flat).ended (by decide))
    have rows := Assignment.render_elseRows config (depth + 1)
      (Text.advance column (a.target.text ++ " <= " ++ first)) rest a.lastText
    simp only [render_append, render, String.append_assoc] at rows ⊢
    rw [rows]

theorem InstantiatedUnit.row {u : InstantiatedUnit} (ok : care.Trusts (u.passes care.checks)) :
    care.Row u.text := by
  obtain ⟨entity, architecture⟩ := u
  simp only [InstantiatedUnit.passes, trusts_and, trusts_option] at ok
  have named : care.Row ("entity " ++ entity.text) :=
    Opens.close (opens (by decide)) (entity.row ok.1).closes
  cases architecture with
  | none => simpa [InstantiatedUnit.text] using named
  | some i =>
    exact named.opens.close (row_parenthesized (Ident.row (ok.2 i rfl)).inside).closes

theorem Instance.rows {i : Instance} (ok : care.Trusts (i.passes care.checks)) :
    Rows care.Row .start i.doc (.behind 1) := by
  simp only [Instance.passes, trusts_and, trusts_all] at ok
  obtain ⟨⟨⟨label, unit⟩, -⟩, portMap⟩ := ok
  have header : care.Row (i.label.render ++ " : " ++ i.unit.text) :=
    ((Ident.row label).opens.word (by decide)).close (InstantiatedUnit.row unit).closes
  have rows : Rows care.Row .start (Association.mapDoc i.portMap) (.behind 0) :=
    Association.rows_mapDoc portMap
  have flat : care.Closes (" " ++ (Association.mapDoc i.portMap).flat) := by
    rw [Association.mapDoc, flat_list]
    have items : care.Inside (", ".intercalate (i.portMap.map Association.text)) :=
      inside_intercalate (inside (by decide)) fun x member =>
        (Association.rows_text portMap x member).inside
    exact (items.framed (by decide) (by decide)).closes.behind (inside (by decide))
  refine .group (fun config depth column => ?_)
    (.headed header (List.forall_mem_singleton.mpr rows) (Nat.zero_le 1)) (header.opens.close flat)
  simp [Doc.render, render_lines]

theorem Scheme.inside {s : Scheme} (ok : care.Trusts (s.passes care.checks)) :
    care.Inside s.text := by
  cases s with
  | forRange i r =>
    simp only [Scheme.passes, trusts_and] at ok
    exact (((Ident.row ok.1).inside.after (by decide)).word (by decide)).append
      (r.row ok.2).inside
  | ifCondition e => exact (e.row ok).inside.after (by decide)

theorem BlockItem.rows_generateDoc {items : List BlockItem}
    (ok : ∀ i ∈ items, care.Trusts (i.passes care.checks)) :
    Rows care.Row (.behind 0) (BlockItem.generateDoc items) (.behind 0) := by
  unfold BlockItem.generateDoc
  split
  · exact .none _
  · have declared : Rows care.Row (.behind 0) (.nest (.lines (items.map BlockItem.doc)))
        (.behind 1) :=
      .body (.map fun i member => BlockItem.rows (ok i member)) (by omega) (by omega)
    exact (declared.cat (.line (by omega))).cat (.row (fixed (by decide)))

theorem Port.rows_blockDocs {ports : List Port} {portMap : List Association}
    (clause : ∀ p ∈ ports, care.Trusts (p.passes care.checks))
    (mapped : ∀ a ∈ portMap, care.Trusts (a.passes care.checks)) :
    ∀ d ∈ Port.blockDocs ports portMap, Rows care.Row .start d (.behind 0) := by
  unfold Port.blockDocs
  split
  · simp
  · simpa using ⟨Port.rows_clauseDoc clause, Association.rows_mapDoc mapped⟩

theorem Concurrent.rows (s : Concurrent) : care.Trusts (s.passes care.checks) →
    Rows care.Row .start s.doc (.behind 1) := by
  induction s using Concurrent.induction with
  | block label ports portMap items body statements =>
    intro ok
    simp only [Concurrent.passes, Concurrent.passesAll_eq_all, trusts_and, trusts_all] at ok
    obtain ⟨⟨⟨⟨named, clause⟩, mapped⟩, declared⟩, stated⟩ := ok
    rw [Layout.doc_block]
    have opening : ∀ d ∈ Port.blockDocs ports portMap ++ items.map BlockItem.doc,
        Rows care.Row .start d (.behind 0) := by
      intro d member
      rcases List.mem_append.mp member with front | item
      · exact Port.rows_blockDocs clause mapped d front
      · exact Rows.map (fun i member => BlockItem.rows (declared i member)) d item
    refine Rows.loosen ?_ (Nat.zero_le 1)
    exact .region ((Ident.row named).ended (by decide)) opening (fixed (by decide))
      (.map fun s member => statements s member (stated s member)) (Nat.le_refl 1)
      (fixed (by decide))
  | process p =>
    intro ok
    exact (Process.rows ok).loosen (Nat.zero_le 1)
  | assign a =>
    intro ok
    exact Assignment.rows ok
  | instantiate i =>
    intro ok
    exact Instance.rows ok
  | generate label scheme items body statements =>
    intro ok
    simp only [Concurrent.passes, Concurrent.passesAll_eq_all, trusts_and, trusts_all] at ok
    obtain ⟨⟨⟨named, scheduled⟩, declared⟩, stated⟩ := ok
    rw [Layout.doc_generate]
    have head : care.Row (label.render ++ " : " ++ scheme.text ++ " generate") :=
      (((Ident.row named).opens.word (by decide)).append (Scheme.inside scheduled)).ended
        (by decide)
    have inner : Rows care.Row (.behind 0) (.nest (.lines (body.map Concurrent.doc)))
        (.behind 2) :=
      .body (.map fun s member => statements s member (stated s member)) (by omega) (by omega)
    have opened := ((Rows.row head).cat (BlockItem.rows_generateDoc declared)).cat inner
    have closed := (opened.cat (.line (by omega))).cat
      (.row (fixed (by decide) : care.Row "end generate;"))
    exact closed.loosen (Nat.zero_le 1)

end Concurrent

section Units

theorem ContextItem.row {i : ContextItem} (ok : care.Trusts (i.passes care.checks)) :
    care.Row i.text := by
  cases i with
  | library i => exact (Ident.row ok).inside.framed (by decide) (by decide)
  | use n s =>
    simp only [ContextItem.passes, trusts_and] at ok
    have named : care.Opens ("use " ++ n.text ++ ".") :=
      ((n.row ok.1).inside.led (by decide)).word (by decide)
    exact (named.append (Suffix.row ok.2).inside).ended (by decide)

theorem ContextItem.rows_clauseDoc {items : List ContextItem} (some : items ≠ [])
    (ok : ∀ i ∈ items, care.Trusts (i.passes care.checks)) :
    Rows care.Row .start (ContextItem.clauseDoc items) (.behind 0) := by
  cases items with
  | nil => exact absurd rfl some
  | cons item items =>
    have later : ∀ d ∈ items.map fun i => Doc.text i.text, Rows care.Row .start d (.behind 0) :=
      .map fun i member => .row (ContextItem.row (ok i (List.mem_cons_of_mem item member)))
    exact (Rows.row (ContextItem.row (ok item List.mem_cons_self))).cat
      (.lines later (Nat.zero_le 2))

theorem LibraryUnit.rows {u : LibraryUnit} (ok : care.Trusts (u.passes care.checks)) :
    Rows care.Row .start u.doc (.behind 0) := by
  cases u with
  | entity u =>
    simp only [LibraryUnit.passes, trusts_and, trusts_all] at ok
    refine .block ((Ident.row ok.1).inside.framed (by decide) (by decide)) ?_ (Nat.zero_le 1)
      (fixed (by decide))
    split
    · simp
    · simpa using Port.rows_clauseDoc ok.2
  | architecture u =>
    simp only [LibraryUnit.passes, trusts_and, trusts_all] at ok
    have head : care.Opens ("architecture " ++ u.name.render ++ " of " ++ u.entity.render) :=
      (((Ident.row ok.1.1.1).inside.led (by decide)).word (by decide)).append
        (Ident.row ok.1.1.2).inside
    exact .region (head.ended (by decide)) (.map fun i member => BlockItem.rows (ok.1.2 i member))
      (fixed (by decide)) (.map fun s member => s.rows (ok.2 s member)) (Nat.le_refl 1)
      (fixed (by decide))
  | package u =>
    simp only [LibraryUnit.passes, trusts_and, trusts_all] at ok
    exact .block ((Ident.row ok.1).inside.framed (by decide) (by decide))
      (.map fun i member => PackageItem.rows (ok.2 i member)) (Nat.zero_le 1) (fixed (by decide))
  | packageBody u =>
    simp only [LibraryUnit.passes, trusts_and, trusts_all] at ok
    exact .block ((Ident.row ok.1).inside.framed (by decide) (by decide))
      (.map fun i member => PackageBodyItem.rows (ok.2 i member)) (Nat.zero_le 1)
      (fixed (by decide))

theorem LibraryUnit.rows_docIn {context : List ContextItem} {u : LibraryUnit}
    (items : ∀ i ∈ context, care.Trusts (i.passes care.checks))
    (ok : care.Trusts (u.passes care.checks)) :
    Rows care.Row .start (u.docIn context) (.behind 0) := by
  unfold LibraryUnit.docIn
  split
  · exact LibraryUnit.rows ok
  · next some =>
    have clause := ContextItem.rows_clauseDoc (by simpa using some) items
    exact (clause.cat (.line (by omega))).cat (LibraryUnit.rows ok)

end Units

end Vhdl93
