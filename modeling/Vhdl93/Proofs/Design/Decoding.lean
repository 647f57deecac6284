import Vhdl93.Proofs.Design.Lexemes
import Vhdl93.Proofs.Design.Skeleton
import Vhdl93.Proofs.Design.Trees

set_option autoImplicit false

/-!
Lexemes give declarations and statements back, up to the texts of their leaves. Each is read from
the front of a list of lexemes and leaves the rest of the list, whatever that is.
-/

namespace Vhdl93

open Lexer

theorem Pieces.text_of_lexemes {ps qs : Pieces} (same : ps.lexemes = qs.lexemes) :
    ps.text = qs.text := by
  apply String.toList_injective
  rw [← Pieces.spell_lexemes, ← Pieces.spell_lexemes, same]

namespace Lexer

abbrev Rules.design (rules : Rules) : Checks := rules.checks (· != 0)

def Lexeme.keyword? : Lexeme → Option String
  | .keyword word => some word
  | _ => none

/-- `x` and `y` are only written with the same lexemes if `g` does not tell them apart, and then the
same lexemes stand behind them; `follows` tells what may stand there. -/
def Reads {α β : Type} (follows : List Lexeme → Prop) (f : α → List Lexeme) (g : α → β) (x y : α) :
    Prop :=
  ∀ r r', follows r → follows r' → f x ++ r = f y ++ r' → g x = g y ∧ r = r'

def Anything (_ : List Lexeme) : Prop := True

def led (starts : Option String → Bool) (ls : List Lexeme) :
    Bool := ls.head?.any fun l => starts l.keyword?

theorem ne_of_led {starts : Option String → Bool} {t xs : List Lexeme}
    (ends : led starts t.tail = false) (head : led starts xs = true) (r : List Lexeme) :
    t ≠ .white " " :: (xs ++ r) := by
  rintro rfl
  cases xs with
  | nil => cases head
  | cons l tail => simp_all [led]

theorem lines_cut {α β : Type} {follows : List Lexeme → Prop} {f : α → List Lexeme} {g : α → β}
    {xs ys : List α} {t t' : List Lexeme} (starts : Option String → Bool)
    (same : lines (xs.map f) ++ t = lines (ys.map f) ++ t')
    (each : ∀ x ∈ xs, ∀ y ∈ ys, Reads follows f g x y) (heads : ∀ x ∈ xs, led starts (f x) = true)
    (heads' : ∀ y ∈ ys, led starts (f y) = true)
    (behind : ∀ zs : List α, follows (lines (zs.map f) ++ t))
    (behind' : ∀ zs : List α, follows (lines (zs.map f) ++ t')) (ends : led starts t.tail = false)
    (ends' : led starts t'.tail = false) : xs.map g = ys.map g ∧ t = t' := by
  -- Items are read until the first lexeme that no item starts with.
  induction xs generalizing ys with
  | nil =>
    cases ys with
    | nil => exact ⟨rfl, same⟩
    | cons y ys =>
      have first : t = .white " " :: (f y ++ (lines (ys.map f) ++ t')) := by simpa using same
      exact absurd first (ne_of_led ends (heads' y List.mem_cons_self) _)
  | cons x xs ih =>
    cases ys with
    | nil =>
      have first : t' = .white " " :: (f x ++ (lines (xs.map f) ++ t)) := by simpa using same.symm
      exact absurd first (ne_of_led ends' (heads x List.mem_cons_self) _)
    | cons y ys =>
      simp only [List.map_cons, lines_cons, List.cons_append, List.append_assoc, List.cons.injEq,
        true_and] at same
      obtain ⟨first, later⟩ := each x List.mem_cons_self y List.mem_cons_self _ _ (behind xs)
        (behind' ys) same
      obtain ⟨rest, tails⟩ := ih later
        (fun x member y => each x (List.mem_cons_of_mem _ member) y ∘ List.mem_cons_of_mem _)
        (fun x member => heads x (List.mem_cons_of_mem _ member))
        (fun y member => heads' y (List.mem_cons_of_mem _ member))
      exact ⟨by simp [first, rest], tails⟩

theorem enlisted_cut {xs ys : List (List Lexeme)} {t t' : List Lexeme}
    (each : ∀ x ∈ xs, Item associationStops x) (each' : ∀ y ∈ ys, Item associationStops y)
    (same : enlisted xs ++ t = enlisted ys ++ t') : xs = ys ∧ t = t' := by
  simp only [enlisted, List.cons_append, List.append_assoc, List.cons.injEq, true_and] at same
  obtain ⟨items, behind⟩ := separated_cut (fun _ => rfl) each each' ⟨rfl, by simp⟩
    ⟨rfl, by simp⟩ same
  exact ⟨items, by simpa using behind⟩

def isInner (word : Option String) : Bool :=
  word ∉ [some "end", some "elsif", some "else", some "when", some "begin"]

end Lexer

variable {rules : Rules}

theorem Name.head_accepted : ∀ n : Name, n.passes rules.design = true →
    ∃ i tail, n.pieces.lexemes = .ident i :: tail
  | .simple i, ok => by
      have accepted : i.isAccepted = true := ok
      exact ⟨i, [], by simp [Name.pieces, Token.lexeme, accepted]⟩
  | .selected base suffix, ok => by
      simp only [Name.passes, Bool.and_eq_true] at ok
      obtain ⟨i, tail, same⟩ := base.head_accepted ok.1
      exact ⟨i, _, by rw [Name.pieces, lexemes_append, same, List.cons_append]⟩
  | .indexed base es, ok => by
      simp only [Name.passes, Bool.and_eq_true] at ok
      obtain ⟨i, tail, same⟩ := base.head_accepted ok.1.1
      exact ⟨i, _, by rw [Name.pieces, lexemes_append, same, List.cons_append]⟩
  | .slice base range, ok => by
      simp only [Name.passes, Bool.and_eq_true] at ok
      obtain ⟨i, tail, same⟩ := base.head_accepted ok.1
      exact ⟨i, _, by rw [Name.pieces, lexemes_append, same, List.cons_append]⟩
  | .attribute base i e, ok => by
      simp only [Name.passes, Bool.and_eq_true] at ok
      obtain ⟨j, tail, same⟩ := base.head_accepted ok.1.1.1
      exact ⟨j, _, by rw [Name.pieces, lexemes_append, same, List.cons_append]⟩

section Leaves

variable {t t' : List Lexeme}

theorem Name.quoted_of_lexemes {n m : Name} (same : n.pieces.lexemes = m.pieces.lexemes) :
    n.quoted = m.quoted := by
  simp [Name.quoted, Name.text, Pieces.text_of_lexemes same]

theorem Name.cut {n m : Name} (ok : n.passes rules.design = true)
    (ok' : m.passes rules.design = true) (same : n.pieces.lexemes ++ t = m.pieces.lexemes ++ t')
    (ends : stopped nameStops t = true) (ends' : stopped nameStops t' = true) :
    n.quoted = m.quoted ∧ t = t' := by
  obtain ⟨texts, tails⟩ := (Name.leaf ok).cut (Name.leaf ok') same ends ends'
  exact ⟨Name.quoted_of_lexemes texts, tails⟩

theorem Expr.cut {e f : Expr} (ok : e.passes rules.design = true)
    (ok' : f.passes rules.design = true) (same : e.pieces.lexemes ++ t = f.pieces.lexemes ++ t')
    (ends : stopped stops t = true) (ends' : stopped stops t' = true) :
    e.quoted = f.quoted ∧ t = t' := by
  obtain ⟨texts, tails⟩ := (Expr.leaf ok).cut (Expr.leaf ok') same ends ends'
  exact ⟨by simp [Expr.quoted, Expr.text, Pieces.text_of_lexemes texts], tails⟩

theorem Range.cut {r q : Range} (ok : r.passes rules.design = true)
    (ok' : q.passes rules.design = true) (same : r.pieces.lexemes ++ t = q.pieces.lexemes ++ t')
    (ends : stopped stops t = true) (ends' : stopped stops t' = true) :
    r.quoted = q.quoted ∧ t = t' := by
  obtain ⟨texts, tails⟩ := (Range.item ok).cut (Range.item ok').toLeaf same ends ends'
  exact ⟨by simp [Range.quoted, Range.text, Pieces.text_of_lexemes texts], tails⟩

theorem SubtypeIndication.cut {s u : SubtypeIndication} (ok : s.passes rules.design = true)
    (ok' : u.passes rules.design = true) (same : s.pieces.lexemes ++ t = u.pieces.lexemes ++ t')
    (ends : stopped stops t = true) (ends' : stopped stops t' = true) :
    s.quoted = u.quoted ∧ t = t' := by
  obtain ⟨texts, tails⟩ := (SubtypeIndication.leaf ok).cut (SubtypeIndication.leaf ok')
    same ends ends'
  exact ⟨by simp [SubtypeIndication.quoted, SubtypeIndication.text, Pieces.text_of_lexemes texts], tails⟩

theorem Waveform.design_phrase {w : Waveform} (ok : w.passes rules.design = true) :
    Phrase rules Lexeme.endsOperand w.pieces.lexemes := by
  cases w with
  | unaffected => exact .single (keyword_fits (by decide)) rfl rfl
  | elements ws =>
    cases ws with
    | nil => simp [Waveform.passes, Rules.checks] at ok
    | cons w ws =>
      simp only [Waveform.passes, Bool.and_eq_true, List.all_eq_true] at ok
      have each : ∀ x ∈ ((w :: ws).map WaveformElement.pieces).map Pieces.lexemes,
          Phrase rules Lexeme.endsOperand x := by
        rw [List.map_map]
        exact List.forall_mem_map.mpr fun v member => WaveformElement.phrase (ok.2 v member)
      rw [Waveform.pieces, lexemes_commaSeparated]
      exact .separated .comma each

theorem Waveform.item {w : Waveform} (ok : w.passes rules.design = true) :
    Item waveformStops w.pieces.lexemes :=
  .of_phrase (Waveform.closed ok) (Waveform.design_phrase ok)

theorem Waveform.cut {w v : Waveform} (ok : w.passes rules.design = true)
    (ok' : v.passes rules.design = true) (same : w.pieces.lexemes ++ t = v.pieces.lexemes ++ t')
    (ends : stopped waveformStops t = true) (ends' : stopped waveformStops t' = true) :
    w.quoted = v.quoted ∧ t = t' := by
  obtain ⟨texts, tails⟩ := (Waveform.item ok).cut (Waveform.item ok').toLeaf same ends ends'
  exact ⟨by simp [Waveform.quoted, Waveform.text, Pieces.text_of_lexemes texts], tails⟩

end Leaves

def Sequential.lead : Sequential → Option String
  | .conditional _ _ _ _ => some "if"
  | .selection _ _ => some "case"
  | .ret _ => some "return"
  | .forLoop _ _ _ => some "for"
  | .wait _ => some "wait"
  | .null => some "null"
  | .assign _ _ | .drive _ _ | .call _ _ => none

theorem Sequential.head_lexemes {s : Sequential} (ok : s.passes rules.design = true) :
    s.lexemes.head?.map Lexeme.keyword? = some s.lead := by
  cases s with
  | conditional | selection | forLoop | wait | null => rfl
  | ret e => cases e <;> rfl
  | assign n _ | drive n _ | call n _ =>
    simp only [Sequential.passes, Bool.and_eq_true] at ok
    obtain ⟨i, tail, same⟩ := n.head_accepted ok.1
    simp [Sequential.lexemes, Expr.pieces, same, Sequential.lead, Lexeme.keyword?]

theorem Sequential.led_lexemes {s : Sequential} (ok : s.passes rules.design = true) :
    led isInner s.lexemes = true := by
  have head := Sequential.head_lexemes ok
  cases first : s.lexemes with
  | nil => simp [first] at head
  | cons l tail =>
    have lead : l.keyword? = s.lead := by simpa [first] using head
    cases s <;> simp [led, lead, Sequential.lead] <;> decide

theorem Sequential.lead_eq {s t : Sequential} {r r' : List Lexeme}
    (ok : s.passes rules.design = true) (ok' : t.passes rules.design = true)
    (same : s.lexemes ++ r = t.lexemes ++ r') : s.lead = t.lead := by
  have head := Sequential.head_lexemes ok
  have head' := Sequential.head_lexemes ok'
  cases first : s.lexemes with
  | nil => simp [first] at head
  | cons l tail =>
    cases first' : t.lexemes with
    | nil => simp [first'] at head'
    | cons l' tail' =>
      rw [first, first'] at same
      obtain rfl : l = l' := (List.cons.inj same).1
      simp_all

def Sequential.Readable (rules : Rules) (s : Sequential) : Prop :=
  ∀ t : Sequential, s.passes rules.design = true → t.passes rules.design = true →
    Reads Anything Sequential.lexemes Sequential.skeleton s t

theorem Sequential.body_cut {body body' : List Sequential} {t t' : List Lexeme}
    (each : ∀ s ∈ body, s.Readable rules) (ok : ∀ s ∈ body, s.passes rules.design = true)
    (ok' : ∀ s ∈ body', s.passes rules.design = true)
    (same : lines (body.map Sequential.lexemes) ++ t = lines (body'.map Sequential.lexemes) ++ t')
    (ends : led isInner t.tail = false) (ends' : led isInner t'.tail = false) :
    body.map Sequential.skeleton = body'.map Sequential.skeleton ∧ t = t' :=
  lines_cut isInner same (fun s member u member' => each s member u (ok s member) (ok' u member'))
    (fun s member => Sequential.led_lexemes (ok s member))
      (fun s member => Sequential.led_lexemes (ok' s member))
    (fun _ => trivial) (fun _ => trivial) ends ends'

def Outer (r : List Lexeme) : Prop := led isInner r.tail = false

theorem Branch.reads {b b' : Branch} (each : ∀ s ∈ b.body, s.Readable rules)
    (ok : b.passes rules.design = true) (ok' : b'.passes rules.design = true) :
    Reads Outer Branch.lexemes Branch.skeleton b b' := by
  obtain ⟨e, body⟩ := b
  obtain ⟨e', body'⟩ := b'
  intro r r' outer outer' same
  simp only [Branch.passes, Sequential.passesAll_eq_all, Bool.and_eq_true,
    List.all_eq_true] at ok ok'
  simp only [Branch.lexemes, Sequential.lexemesAll_eq_map, List.cons_append, List.append_assoc,
    List.cons.injEq, true_and] at same
  obtain ⟨condition, same⟩ := Expr.cut ok.1 ok'.1 same rfl rfl
  simp only [List.cons.injEq, true_and] at same
  obtain ⟨statements, behind⟩ := @Sequential.body_cut _ body body' _ _ each ok.2 ok'.2 same
    outer outer'
  exact ⟨by simp [Branch.skeleton, condition, statements], behind⟩

theorem Alternative.reads {a a' : Alternative} (each : ∀ s ∈ a.body, s.Readable rules)
    (ok : a.passes rules.design = true) (ok' : a'.passes rules.design = true) :
    Reads Outer Alternative.lexemes Alternative.skeleton a a' := by
  obtain ⟨choices, body⟩ := a
  obtain ⟨choices', body'⟩ := a'
  intro r r' outer outer' same
  simp only [Alternative.passes, Sequential.passesAll_eq_all, Bool.and_eq_true,
    List.all_eq_true] at ok ok'
  simp only [Alternative.lexemes, Sequential.lexemesAll_eq_map, List.cons_append, List.append_assoc,
    List.cons.injEq, true_and] at same
  have items (cs : List Choice) (ok : ∀ c ∈ cs, c.passes rules.design = true) :
      ∀ x ∈ cs.map (fun c => c.pieces.lexemes), Item stops x := by
    simpa using fun c member => Choice.item (ok c member)
  obtain ⟨texts, same⟩ := separated_cut (fun _ => rfl) (items choices ok.1.2)
    (items choices' ok'.1.2)
    ⟨rfl, by simp⟩ ⟨rfl, by simp⟩ same
  have quoted : choices.map Choice.quoted = choices'.map Choice.quoted := by
    refine map_of_map (fun c _ c' _ same => ?_) texts
    simp [Choice.quoted, Choice.text, Pieces.text_of_lexemes same]
  simp only [List.cons.injEq, true_and] at same
  obtain ⟨statements, behind⟩ := @Sequential.body_cut _ body body' _ _ each ok.2 ok'.2 same
    outer outer'
  exact ⟨by simp [Alternative.skeleton, quoted, statements], behind⟩

theorem Sequential.else_cut {body body' : Option (List Sequential)} {t t' : List Lexeme}
    (each : ∀ ss ∈ body, ∀ s ∈ ss, s.Readable rules)
    (ok : Sequential.passesElse rules.design body = true)
    (ok' : Sequential.passesElse rules.design body' = true)
    (same : Sequential.elseLexemes body ++ .white " " :: .keyword "end" :: t =
      Sequential.elseLexemes body' ++ .white " " :: .keyword "end" :: t') :
    Sequential.elseSkeleton body = Sequential.elseSkeleton body' ∧ t = t' := by
  cases body with
  | none =>
    cases body' with
    | none => exact ⟨rfl, by simpa [Sequential.elseLexemes] using same⟩
    | some body' => simp [Sequential.elseLexemes] at same
  | some body =>
    cases body' with
    | none => simp [Sequential.elseLexemes] at same
    | some body' =>
      simp only [Sequential.passesElse, Sequential.passesAll_eq_all, List.all_eq_true] at ok ok'
      simp only [Sequential.elseLexemes, Sequential.lexemesAll_eq_map, List.cons_append,
        List.cons.injEq, true_and] at same
      obtain ⟨statements, behind⟩ := Sequential.body_cut (each body rfl) ok ok' same rfl rfl
      exact ⟨by simp [Sequential.elseSkeleton, statements], by simpa using behind⟩

theorem Sequential.else_outer (body : Option (List Sequential)) (t : List Lexeme) :
    Outer (Sequential.elseLexemes body ++ .white " " :: .keyword "end" :: t) ∧
      led (· = some "elsif") (Sequential.elseLexemes body ++ .white " " :: .keyword "end" ::
        t).tail = false := by
  -- Behind the branches there is an `else` or an `end`.
  cases body with
  | none => exact ⟨rfl, rfl⟩
  | some body => exact ⟨rfl, rfl⟩

theorem Branch.outer {t : List Lexeme} (outer : Outer t) :
    ∀ bs : List Branch, Outer (lines (bs.map Branch.lexemes) ++ t)
  | [] => outer
  | .mk _ _ :: _ => rfl

theorem Alternative.outer {t : List Lexeme} (outer : Outer t) :
    ∀ as : List Alternative, Outer (lines (as.map Alternative.lexemes) ++ t)
  | [] => outer
  | .mk _ _ :: _ => rfl

theorem Branch.led_lexemes : ∀ b : Branch, led (· = some "elsif") b.lexemes = true
  | .mk _ _ => rfl

theorem Alternative.led_lexemes : ∀ a : Alternative, led (· = some "when") a.lexemes = true
  | .mk _ _ => rfl

def Sequential.subject : Sequential → List Lexeme
  | .assign n _ | .drive n _ => n.pieces.lexemes
  | .call n as => (Expr.call n as).pieces.lexemes
  | _ => []

def Sequential.predicate : Sequential → List Lexeme
  | .assign _ e =>
      .white " " :: .delimiter ":=" :: .white " " :: (e.pieces.lexemes ++ [.delimiter ";"])
  | .drive _ w =>
      .white " " :: .delimiter "<=" :: .white " " :: (w.pieces.lexemes ++ [.delimiter ";"])
  | .call _ _ => [.delimiter ";"]
  | s => s.lexemes

theorem Sequential.subject_append_predicate (s : Sequential) :
    s.subject ++ s.predicate = s.lexemes := by
  cases s <;> rfl

theorem Sequential.subject_leaf {s : Sequential} (ok : s.passes rules.design = true)
    (named : s.lead = none) : Leaf nameStops s.subject := by
  cases s with
  | assign n _ | drive n _ =>
    simp only [Sequential.passes, Bool.and_eq_true] at ok
    exact Name.leaf ok.1
  | call n as => exact Expr.call_leaf ok
  | conditional | selection | ret | forLoop | wait | null => cases named

theorem Sequential.predicate_stopped {s : Sequential} (named : s.lead = none) (r : List Lexeme) :
    stopped nameStops (s.predicate ++ r) = true := by
  cases s with
  | assign | drive | call => rfl
  | conditional | selection | ret | forLoop | wait | null => cases named

theorem Sequential.subject_cut {s t : Sequential} {r r' : List Lexeme}
    (ok : s.passes rules.design = true) (ok' : t.passes rules.design = true)
    (named : s.lead = none) (named' : t.lead = none)
    (same : s.lexemes ++ r = t.lexemes ++ r') :
    s.subject = t.subject ∧ s.predicate ++ r = t.predicate ++ r' := by
  rw [← s.subject_append_predicate, ← t.subject_append_predicate, List.append_assoc,
    List.append_assoc] at same
  exact (Sequential.subject_leaf ok named).cut (Sequential.subject_leaf ok' named') same
    (Sequential.predicate_stopped named r) (Sequential.predicate_stopped named' r')

theorem Sequential.named_reads {s : Sequential} (named : s.lead = none) : s.Readable rules := by
  intro t ok ok' r r' _ _ same
  have named' : t.lead = none := (Sequential.lead_eq ok ok' same).symm.trans named
  -- Behind the subject stands `:=`, `<=` or `;`, which tells the three statements apart.
  obtain ⟨subject, same⟩ := Sequential.subject_cut ok ok' named named' same
  cases s with
  | assign n e =>
    cases t with
    | assign n' e' =>
      simp only [Sequential.passes, Bool.and_eq_true] at ok ok'
      simp only [Sequential.predicate, List.cons_append, List.append_assoc, List.cons.injEq,
        true_and] at same
      obtain ⟨value, same⟩ := Expr.cut ok.2 ok'.2 same rfl rfl
      exact ⟨by simp [Sequential.skeleton, Name.quoted_of_lexemes subject, value],
        by simpa using same⟩
    | drive | call => simp [Sequential.predicate] at same
    | conditional | selection | ret | forLoop | wait | null => cases named'
  | drive n w =>
    cases t with
    | drive n' w' =>
      simp only [Sequential.passes, Bool.and_eq_true] at ok ok'
      simp only [Sequential.predicate, List.cons_append, List.append_assoc, List.cons.injEq,
        true_and] at same
      obtain ⟨waveform, same⟩ := Waveform.cut ok.2 ok'.2 same rfl rfl
      exact ⟨by simp [Sequential.skeleton, Name.quoted_of_lexemes subject, waveform],
        by simpa using same⟩
    | assign | call => simp [Sequential.predicate] at same
    | conditional | selection | ret | forLoop | wait | null => cases named'
  | call n as =>
    cases t with
    | call n' as' =>
      exact ⟨by simp [Sequential.skeleton, Expr.text, Pieces.text_of_lexemes subject],
        by simpa [Sequential.predicate] using same⟩
    | assign | drive => simp [Sequential.predicate] at same
    | conditional | selection | ret | forLoop | wait | null => cases named'
  | conditional | selection | ret | forLoop | wait | null => cases named

theorem Sequential.conditional_reads {e : Expr} {body : List Sequential} {elsifs : List Branch}
    {otherwise : Option (List Sequential)} (inBody : ∀ s ∈ body, s.Readable rules)
    (inElsifs : ∀ b ∈ elsifs, ∀ s ∈ b.body, s.Readable rules)
    (inElse : ∀ ss ∈ otherwise, ∀ s ∈ ss, s.Readable rules) :
    (Sequential.conditional e body elsifs otherwise).Readable rules := by
  intro t ok ok' r r' _ _ same
  have lead := Sequential.lead_eq ok ok' same
  cases t with
  | conditional e' body' elsifs' otherwise' =>
    simp only [Sequential.passes, Sequential.passesAll_eq_all, Branch.passesAll_eq_all,
      Bool.and_eq_true, List.all_eq_true] at ok ok'
    simp only [Sequential.lexemes, Sequential.lexemesAll_eq_map, Branch.lexemesAll_eq_map, ending,
      List.cons_append, List.append_assoc, List.nil_append, List.cons.injEq, true_and] at same
    obtain ⟨condition, same⟩ := Expr.cut ok.1.1.1 ok'.1.1.1 same rfl rfl
    simp only [List.cons.injEq, true_and] at same
    have behind (last : Option (List Sequential)) (t : List Lexeme) :=
      Sequential.else_outer last t
    obtain ⟨statements, same⟩ := Sequential.body_cut inBody ok.1.1.2 ok'.1.1.2 same
      (Branch.outer (behind otherwise _).1 elsifs) (Branch.outer (behind otherwise' _).1 elsifs')
    obtain ⟨branches, same⟩ := lines_cut (· = some "elsif") same
      (fun b member b' member' => Branch.reads (inElsifs b member) (ok.1.2 b member)
        (ok'.1.2 b' member'))
      (fun b _ => b.led_lexemes) (fun b _ => b.led_lexemes) (Branch.outer (behind otherwise _).1)
      (Branch.outer (behind otherwise' _).1) (behind otherwise _).2 (behind otherwise' _).2
    obtain ⟨last, same⟩ := Sequential.else_cut inElse ok.2 ok'.2 same
    exact ⟨by simp [Sequential.skeleton, condition, statements, branches, last], by simpa using same⟩
  | selection | ret | forLoop | assign | wait | drive | call | null =>
    simp [Sequential.lead] at lead

theorem Sequential.selection_reads {e : Expr} {as : List Alternative}
    (inAlternatives : ∀ a ∈ as, ∀ s ∈ a.body, s.Readable rules) :
    (Sequential.selection e as).Readable rules := by
  intro t ok ok' r r' _ _ same
  have lead := Sequential.lead_eq ok ok' same
  cases t with
  | selection e' as' =>
    simp only [Sequential.passes, Alternative.passesAll_eq_all, Bool.and_eq_true,
      List.all_eq_true] at ok ok'
    simp only [Sequential.lexemes, block, Alternative.lexemesAll_eq_map, List.cons_append,
      List.append_assoc, List.nil_append, List.cons.injEq, true_and] at same
    obtain ⟨selector, same⟩ := Expr.cut ok.1.1 ok'.1.1 same rfl rfl
    simp only [List.cons.injEq, true_and] at same
    obtain ⟨alternatives, behind⟩ := lines_cut (· = some "when") same
      (fun a member a' member' => Alternative.reads (inAlternatives a member) (ok.2 a member)
        (ok'.2 a' member'))
      (fun a _ => a.led_lexemes) (fun a _ => a.led_lexemes) (Alternative.outer rfl)
        (Alternative.outer rfl) rfl rfl
    exact ⟨by simp [Sequential.skeleton, selector, alternatives], by simpa [ending] using behind⟩
  | conditional | ret | forLoop | assign | wait | drive | call | null =>
    simp [Sequential.lead] at lead

theorem Sequential.ret_reads (e : Option Expr) : (Sequential.ret e).Readable rules := by
  intro t ok ok' r r' _ _ same
  have lead := Sequential.lead_eq ok ok' same
  cases t with
  | ret e' =>
    cases e with
    | none =>
      cases e' with
      | none => exact ⟨rfl, by simpa [Sequential.lexemes] using same⟩
      | some e' => simp [Sequential.lexemes] at same
    | some e =>
      cases e' with
      | none => simp [Sequential.lexemes] at same
      | some e' =>
        simp only [Sequential.lexemes, List.cons_append, List.append_assoc, List.cons.injEq,
          true_and] at same
        obtain ⟨value, behind⟩ := Expr.cut ok ok' same rfl rfl
        exact ⟨by simp [Sequential.skeleton, value], by simpa using behind⟩
  | conditional | selection | forLoop | assign | wait | drive | call | null =>
    simp [Sequential.lead] at lead

theorem Sequential.forLoop_reads {i : Ident} {q : Range} {body : List Sequential}
    (inBody : ∀ s ∈ body, s.Readable rules) : (Sequential.forLoop i q body).Readable rules := by
  intro t ok ok' r r' _ _ same
  have lead := Sequential.lead_eq ok ok' same
  cases t with
  | forLoop i' q' body' =>
    simp only [Sequential.passes, Sequential.passesAll_eq_all, Bool.and_eq_true,
      List.all_eq_true] at ok ok'
    simp only [Sequential.lexemes, block, Sequential.lexemesAll_eq_map, List.cons_append,
      List.append_assoc, List.nil_append, List.cons.injEq, Lexeme.ident.injEq, true_and] at same
    obtain ⟨rfl, same⟩ := same
    obtain ⟨range, same⟩ := Range.cut ok.1.2 ok'.1.2 same rfl rfl
    simp only [List.cons.injEq, true_and] at same
    obtain ⟨statements, behind⟩ := Sequential.body_cut inBody ok.2 ok'.2 same rfl rfl
    exact ⟨by simp [Sequential.skeleton, range, statements], by simpa [ending] using behind⟩
  | conditional | selection | ret | assign | wait | drive | call | null =>
    simp [Sequential.lead] at lead

theorem Sequential.wait_reads (e : Expr) : (Sequential.wait e).Readable rules := by
  intro t ok ok' r r' _ _ same
  have lead := Sequential.lead_eq ok ok' same
  cases t with
  | wait e' =>
    simp only [Sequential.lexemes, List.cons_append, List.append_assoc, List.cons.injEq,
      true_and] at same
    obtain ⟨duration, same⟩ := Expr.cut ok ok' same rfl rfl
    exact ⟨by simp [Sequential.skeleton, duration], by simpa using same⟩
  | conditional | selection | ret | forLoop | assign | drive | call | null =>
    simp [Sequential.lead] at lead

theorem Sequential.null_reads : Sequential.null.Readable rules := by
  intro t ok ok' r r' _ _ same
  have lead := Sequential.lead_eq ok ok' same
  cases t with
  | null => exact ⟨rfl, by simpa [Sequential.lexemes] using same⟩
  | conditional | selection | ret | forLoop | assign | wait | drive | call =>
    simp [Sequential.lead] at lead

theorem Sequential.reads (s : Sequential) : s.Readable rules := by
  induction s using Sequential.induction with
  | conditional e body elsifs otherwise inBody inElsifs inElse =>
    exact conditional_reads inBody inElsifs inElse
  | selection e as inAlternatives => exact selection_reads inAlternatives
  | ret e => exact ret_reads e
  | forLoop i q body inBody => exact forLoop_reads inBody
  | wait e => exact wait_reads e
  | null => exact null_reads
  | assign | drive | call => exact named_reads rfl

end Vhdl93
