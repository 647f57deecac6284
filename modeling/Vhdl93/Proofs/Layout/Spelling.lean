import Vhdl93.Proofs.Layout.Outline
import Vhdl93.Proofs.Lexer.Phrase

set_option autoImplicit false

namespace Vhdl93.Layout

open Lexer

variable {rules : Rules} {before : Before}

/-- Lexemes with white space of any kind, and the same ones with single blanks. -/
inductive Squeezes : List Lexeme → List Lexeme → Prop where
  | nil : Squeezes [] []
  | keep {l : Lexeme} {ws ls : List Lexeme} (black : l.isBlank = false) (rest : Squeezes ws ls) :
      Squeezes (l :: ws) (l :: ls)
  | white {w : String} {ws ls : List Lexeme} (white : IsWhite w) (nonempty : w ≠ "")
    (rest : Squeezes ws ls) :
      Squeezes (.white w :: ws) (.white " " :: ls)
  | opening {w : String} {ws ls : List Lexeme} (white : IsWhite w) (nonempty : w ≠ "")
      (leads : ∃ l ∈ ls.head?, l.leads = true) (rest : Squeezes ws ls) :
      Squeezes (.delimiter "(" :: .white w :: ws) (.delimiter "(" :: ls)
  | closing {w : String} {ws ls : List Lexeme} (white : IsWhite w) (nonempty : w ≠ "")
    (rest : Squeezes ws ls) :
      Squeezes (.white w :: .delimiter ")" :: ws) (.delimiter ")" :: ls)

def squeeze : List Lexeme → List Lexeme
  | [] => []
  | l :: ws =>
      if l.isBlank then
        if ws.head? = some (.delimiter ")") then squeeze ws else .white " " :: squeeze ws
      else if l = .delimiter "(" then l :: (squeeze ws).dropWhile Lexeme.isBlank
      else l :: squeeze ws

theorem squeeze_white (w : String) (ws : List Lexeme) :
    squeeze (.white w :: ws) =
      if ws.head? = some (.delimiter ")") then squeeze ws else .white " " :: squeeze ws := by
  simp [squeeze, Lexeme.isBlank]

theorem dropWhile_blank {ls : List Lexeme} (black : ∀ m ∈ ls.head?, m.isBlank = false) :
    ls.dropWhile Lexeme.isBlank = ls := by
  cases ls with
  | nil => rfl
  | cons l ls => simp [black l rfl]

theorem Squeezes.head_closing {ws ls : List Lexeme} (squeezes : Squeezes ws ls)
    (head : ws.head? = some (.delimiter ")")) : ls.head? = some (.delimiter ")") := by
  cases squeezes with
  | nil => exact head
  | keep => exact head
  | white => cases head
  | opening => simp at head
  | closing => cases head

theorem squeeze_eq {ws ls : List Lexeme} (squeezes : Squeezes ws ls)
    (legible : Legible rules before ls) : squeeze ws = ls := by
  induction squeezes generalizing before with
  | nil => rfl
  | @keep l ws ls black rest ih =>
    obtain ⟨-, meets, legible⟩ := legible
    rw [squeeze, if_neg (by simp [black]), ih legible]
    split
    · next paren =>
      rw [dropWhile_blank fun m member => (meets m member).opening paren]
    · rfl
  | @white w ws ls _ _ rest ih =>
    obtain ⟨-, meets, legible⟩ := legible
    have apart : ws.head? ≠ some (.delimiter ")") := by
      intro head
      exact (meets _ (rest.head_closing head)).closing rfl rfl
    rw [squeeze_white, if_neg apart, ih legible]
  | @opening w ws ls _ _ leads rest ih =>
    obtain ⟨-, meets, legible⟩ := legible
    have inner : (squeeze (.white w :: ws)).dropWhile Lexeme.isBlank = ls := by
      have tight := dropWhile_blank fun m member => (meets m member).opening rfl
      rw [squeeze_white, ih legible]
      split
      · exact tight
      · exact (List.dropWhile_cons_of_pos rfl).trans tight
    rw [squeeze, if_neg (by simp [Lexeme.isBlank]), if_pos rfl, inner]
  | closing _ _ rest ih =>
    obtain ⟨-, -, legible⟩ := legible
    simp [squeeze, Lexeme.isBlank, ih legible]

theorem lexerWhite {w : String} (white : IsWhite w) : w.toList.all isWhite = true := by
  rw [List.all_eq_true]
  intro c member
  rcases white c member with rfl | rfl <;> decide

theorem white_fits_of {w : String} (white : IsWhite w) (nonempty : w ≠ "") :
    (Lexeme.white w).Fits rules before :=
  ⟨by simpa using nonempty, lexerWhite white⟩

theorem head_spell {l : Lexeme} {ls : List Lexeme} {c : Char} (nonempty : l.text.toList ≠ [])
    (head : c ∈ (spell (l :: ls)).head?) : c ∈ l.text.toList.head? := by
  -- The text of lexemes starts with the text of the first of them.
  rw [spell_cons] at head
  cases same : l.text.toList with
  | nil => exact absurd same nonempty
  | cons d tail => simpa [same] using head

theorem white_head {w : String} {ws : List Lexeme} {c : Char} (white : IsWhite w)
    (nonempty : w ≠ "") (head : c ∈ (spell (.white w :: ws)).head?) : isWhite c = true := by
  have first : c ∈ w.toList.head? := @head_spell (.white w) ws c
    (by simpa [Lexeme.text] using nonempty) head
  exact List.all_eq_true.mp (lexerWhite white) c (List.mem_of_head? first)

theorem Squeezes.head_stops {l : Lexeme} {ws ls : List Lexeme} {b : Before}
    (squeezes : Squeezes ws ls) (legible : Legible rules b ls) (fits : l.Fits rules before)
    (black : l.isBlank = false) (meets : ∀ m ∈ ls.head?, l.Meets m) :
    ∀ c ∈ (spell ws).head?, l.stopsAt c = true := by
  -- A lexeme ends before the squeezed lexemes that it meets, however they are spaced.
  intro c head
  cases squeezes with
  | nil => cases head
  | keep _ rest => exact (meets _ rfl).stops c (head_spell legible.1.text_ne_nil head)
  | opening white nonempty leads rest =>
    exact (meets _ rfl).stops c (head_spell legible.1.text_ne_nil head)
  | white white nonempty rest =>
    exact Lexeme.stops_white fits black (white_head white nonempty head)
  | closing white nonempty rest =>
    exact Lexeme.stops_white fits black (white_head white nonempty head)

theorem Squeezes.white_stops {w : String} {ws ls : List Lexeme} {b : Before}
    (squeezes : Squeezes ws ls) (legible : Legible rules b ls)
    (leads : ∀ m ∈ ls.head?, m.leads = true) :
    ∀ c ∈ (spell ws).head?, (Lexeme.white w).stopsAt c = true := by
  -- White space ends before the squeezed lexemes behind it.
  intro c head
  cases squeezes with
  | nil => cases head
  | keep _ rest =>
    exact (Lexeme.white_meets w legible.1 (leads _ rfl)).stops c
      (head_spell legible.1.text_ne_nil head)
  | opening _ _ _ rest =>
    exact (Lexeme.white_meets w legible.1 (leads _ rfl)).stops c
      (head_spell legible.1.text_ne_nil head)
  | white => cases leads _ rfl
  | closing =>
    have impossible := leads _ rfl
    simp [Lexeme.leads] at impossible

theorem leads_of_meets {l : Lexeme} (meets : (Lexeme.white " ").Meets l) : l.leads = true := by
  cases l with
  | white w =>
    have single := meets.single rfl
    have stops := meets.stops ' ' (by rw [single]; rfl)
    exact absurd stops (by decide)
  | delimiter d =>
    have apart := meets.closing rfl
    simpa [Lexeme.leads] using apart
  | comment | ident | keyword | number | character | string | bitString | stray => rfl

theorem Squeezes.lex_spell {ws ls : List Lexeme} (squeezes : Squeezes ws ls)
    (legible : Legible rules before ls) : lex rules before (spell ws) = ws := by
  -- However it is spaced, the text of legible lexemes is read back.
  induction squeezes generalizing before with
  | nil => simp [lex]
  | keep black rest ih =>
    obtain ⟨fits, meets, legible⟩ := legible
    rw [spell_cons, lex_step fits (rest.head_stops legible fits black meets), ih legible]
  | white white nonempty rest ih =>
    obtain ⟨-, meets, legible⟩ := legible
    have leads := fun m member => leads_of_meets (meets m member)
    rw [spell_cons, lex_step (white_fits_of white nonempty) (rest.white_stops legible leads)]
    exact congrArg _ (ih legible)
  | @opening w ws ls white nonempty leads rest ih =>
    obtain ⟨fits, meets, legible⟩ := legible
    obtain ⟨first, head, firstLeads⟩ := leads
    have leads : ∀ m ∈ ls.head?, m.leads = true := by
      intro m member
      obtain rfl : first = m := Option.some.inj (head.symm.trans member)
      exact firstLeads
    rw [spell_cons, lex_step fits (fun c _ => by simp [Lexeme.stopsAt, compounds]), spell_cons,
      lex_step (white_fits_of white nonempty) (rest.white_stops legible leads)]
    exact congrArg (fun rest => _ :: _ :: rest) (ih legible)
  | @closing w ws ls white nonempty rest ih =>
    obtain ⟨fits, meets, legible⟩ := legible
    have closes : ∀ c ∈ (spell (.delimiter ")" :: ws)).head?,
        (Lexeme.white w).stopsAt c = true := by
      intro c head
      obtain rfl : ')' = c := by simpa [Lexeme.text] using head
      simp [Lexeme.stopsAt, isWhite]
    rw [spell_cons, lex_step (white_fits_of white nonempty) closes, spell_cons]
    show _ :: lex rules before _ = _
    rw [lex_step fits (rest.head_stops legible fits rfl meets)]
    exact congrArg (fun rest => _ :: _ :: rest) (ih legible)

inductive Spelled : List Mark → List Lexeme → Prop where
  | nil : Spelled [] []
  | fragment {f : String} {xs : List Lexeme} {ms : List Mark} {ls : List Lexeme}
    (text : f.toList = spell xs)
      (rest : Spelled ms ls) : Spelled (.fragment f :: ms) (xs ++ ls)
  | gap {ms : List Mark} {ls : List Lexeme} (rest : Spelled ms ls) :
    Spelled (.gap :: ms) (.white " " :: ls)
  | padded {f : String} {ms : List Mark} {ls : List Lexeme} (white : IsWhite f)
    (rest : Spelled (.gap :: ms) ls) :
      Spelled (.fragment f :: .gap :: ms) ls
  | opening {f : String} {m : Mark} {xs : List Lexeme} {ms : List Mark} {ls : List Lexeme}
      (text : f.toList = spell (xs ++ [.delimiter "("])) (place : m = .gap ∨ m = .edge)
      (leads : ∃ l ∈ ls.head?, l.leads = true) (rest : Spelled ms ls) :
      Spelled (.fragment f :: m :: ms) (xs ++ .delimiter "(" :: ls)
  | closing {f : String} {m : Mark} {xs : List Lexeme} {ms : List Mark} {ls : List Lexeme}
      (text : f.toList = spell (.delimiter ")" :: xs)) (place : m = .gap ∨ m = .edge)
      (rest : Spelled ms ls) :
      Spelled (m :: .fragment f :: ms) (.delimiter ")" :: xs ++ ls)

theorem head_append {ls : List Lexeme} (leads : ∃ l ∈ ls.head?, l.leads = true) (ks : List Lexeme) :
    ∃ l ∈ (ls ++ ks).head?, l.leads = true := by
  obtain ⟨l, head, leads⟩ := leads
  refine ⟨l, ?_, leads⟩
  rw [Option.mem_def] at head ⊢
  simp [List.head?_append, head]

theorem Squeezes.append {ws ls vs ms : List Lexeme} (left : Squeezes ws ls)
    (right : Squeezes vs ms) : Squeezes (ws ++ vs) (ls ++ ms) := by
  induction left with
  | nil => exact right
  | keep black rest ih => exact .keep black ih
  | white white nonempty rest ih => exact .white white nonempty ih
  | opening white nonempty leads rest ih =>
    exact .opening white nonempty (head_append leads ms) ih
  | closing white nonempty rest ih => exact .closing white nonempty ih

theorem Spelled.append {ms ns : List Mark} {ls ks : List Lexeme} (left : Spelled ms ls)
    (right : Spelled ns ks) : Spelled (ms ++ ns) (ls ++ ks) := by
  induction left with
  | nil => exact right
  | fragment text rest ih =>
    rw [List.append_assoc]
    exact .fragment text ih
  | gap rest ih => exact .gap ih
  | padded white rest ih => exact .padded white ih
  | opening text place leads rest ih =>
    rw [List.append_assoc]
    exact .opening text place (head_append leads ks) ih
  | closing text place rest ih =>
    rw [List.append_assoc]
    exact .closing text place ih

theorem Squeezes.refl {xs : List Lexeme} (single : ∀ l ∈ xs, l.isBlank = true → l = .white " ") :
    Squeezes xs xs := by
  induction xs with
  | nil => exact .nil
  | cons l xs ih =>
    have rest := ih fun m member => single m (List.mem_cons_of_mem l member)
    cases black : l.isBlank with
    | false => exact .keep black rest
    | true =>
      rw [single l List.mem_cons_self black]
      exact .white (by simp [IsWhite]) (by simp) rest

theorem fills_place {m : Mark} {ms : List Mark} {s : String} (fills : Fills (m :: ms) s)
    (place : m = .gap ∨ m = .edge) : ∃ w t, s = w ++ t ∧ IsWhite w ∧ Fills ms t := by
  rcases place with rfl | rfl
  · cases fills with
    | gap white nonempty rest => exact ⟨_, _, rfl, white, rest⟩
  · cases fills with
    | edge white rest => exact ⟨_, _, rfl, white, rest⟩

theorem Spelled.squeezes {ms : List Mark} {ls : List Lexeme} {s : String} (spelled : Spelled ms ls)
    (single : ∀ l ∈ ls, l.isBlank = true → l = .white " ") (fills : Fills ms s) :
    ∃ ws, s.toList = spell ws ∧ Squeezes ws ls := by
  -- A text along an outline is the text of the outline's lexemes with other white space.
  induction spelled generalizing s with
  | nil =>
    cases fills
    exact ⟨[], rfl, .nil⟩
  | @fragment f xs ms ls text rest ih =>
    cases fills with
    | fragment _ fills =>
      obtain ⟨ws, same, squeezes⟩ := ih (fun l member => single l (List.mem_append_right xs member))
        fills
      have fragment := Squeezes.refl fun l member => single l (List.mem_append_left ls member)
      exact ⟨xs ++ ws, by simp [text, same], fragment.append squeezes⟩
  | @gap ms ls rest ih =>
    cases fills with
    | @gap w _ _ white nonempty fills =>
      obtain ⟨ws, same, squeezes⟩ := ih (fun l member => single l (List.mem_cons_of_mem _ member))
        fills
      exact ⟨.white w :: ws, by simp [Lexeme.text, same], .white white nonempty squeezes⟩
  | @padded f ms ls white rest ih =>
    cases fills with
    | fragment _ fills =>
      -- The white space of the fragment and that of the gap are one lexeme.
      cases fills with
      | @gap w _ t white' nonempty fills =>
        have wider : IsWhite (f ++ w) := by
          intro c member
          rw [String.toList_append, List.mem_append] at member
          exact member.elim (white c) (white' c)
        obtain ⟨ws, same, squeezes⟩ := ih single (.gap wider (by simp [nonempty]) fills)
        exact ⟨ws, by rw [← same, String.append_assoc], squeezes⟩
  | @opening f m xs ms ls text place leads rest ih =>
    cases fills with
    | fragment _ fills =>
      obtain ⟨w, t, rfl, white, fills⟩ := fills_place fills place
      obtain ⟨ws, same, squeezes⟩ := ih (fun l member => single l (by simp [member])) fills
      have fragment := Squeezes.refl fun l member => single l (List.mem_append_left _ member)
      by_cases none : w = ""
      · refine ⟨xs ++ .delimiter "(" :: ws, ?_, fragment.append (.keep rfl squeezes)⟩
        simp [text, same, none]
      · refine ⟨xs ++ .delimiter "(" :: .white w :: ws, ?_,
          fragment.append (.opening white none leads squeezes)⟩
        simp [text, same, Lexeme.text]
  | @closing f m xs ms ls text place rest ih =>
    obtain ⟨w, t, rfl, white, behind⟩ := fills_place fills place
    cases behind with
    | fragment _ behind =>
      obtain ⟨ws, same, squeezes⟩ := ih (fun l member => single l (List.mem_append_right _ member))
        behind
      have fragment : Squeezes xs xs := Squeezes.refl fun l member => single l (by simp [member])
      have behind := fragment.append squeezes
      by_cases none : w = ""
      · exact ⟨.delimiter ")" :: (xs ++ ws), by simp [text, same, none], .keep rfl behind⟩
      · refine ⟨.white w :: .delimiter ")" :: (xs ++ ws), ?_, .closing white none behind⟩
        simp [text, same, Lexeme.text]

theorem single_of_legible {l : Lexeme} {ls : List Lexeme}
    (legible : Legible rules before (l :: ls)) : ∀ m ∈ ls, m.isBlank = true → m = .white " " := by
  -- Behind the first lexeme, the blanks of legible lexemes are single.
  induction ls generalizing before l with
  | nil => simp
  | cons k ls ih =>
    obtain ⟨-, meets, legible⟩ := legible
    intro m member blank
    rcases List.mem_cons.mp member with rfl | later
    · exact (meets m rfl).single blank
    · exact ih legible m later blank

/-- In every layout a document has the lexemes that its outline is spelled with. -/
theorem squeeze_lex_render {d : Doc} {ls : List Lexeme} (spelled : Spelled d.outline ls)
    (legible : Legible rules .start ls) (black : ∀ l ∈ ls.head?, l.isBlank = false)
    (config : Config) (depth column : Nat) :
    squeeze (lex rules .start (d.render config depth column).toList) = ls := by
  have single : ∀ l ∈ ls, l.isBlank = true → l = .white " " := by
    cases ls with
    | nil => simp
    | cons l ls =>
      intro m member blank
      rcases List.mem_cons.mp member with rfl | later
      · simp [black m rfl] at blank
      · exact single_of_legible legible m later blank
  obtain ⟨ws, same, squeezes⟩ := spelled.squeezes single (d.fills_render config depth column)
  rw [same, squeezes.lex_spell legible, squeeze_eq squeezes legible]

end Vhdl93.Layout
