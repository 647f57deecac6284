import Vhdl93.Proofs.Ident.Language

set_option autoImplicit false

namespace Vhdl93

namespace Text

/-- The text up to the first mark that stands alone, and what follows that mark. Two marks in a row
stand for one in the text. -/
def scanEnclosed (mark : Char) : List Char → Option (List Char × List Char)
  | [] => none
  | [c] => if c = mark then some ([], []) else none
  | c :: d :: rest =>
      if c = mark then
        if d = mark then (scanEnclosed mark rest).map fun x => (mark :: x.1, x.2)
        else some ([], d :: rest)
      else (scanEnclosed mark (d :: rest)).map fun x => (c :: x.1, x.2)

theorem scanEnclosed_doubled (mark : Char) (text later : List Char)
    (stops : later.head? ≠ some mark) :
    scanEnclosed mark (doubled mark text ++ mark :: later) = some (text, later) := by
  induction text with
  | nil =>
    cases later with
    | nil => simp [scanEnclosed]
    | cons c later =>
      have other : c ≠ mark := by simpa using stops
      simp [scanEnclosed, other]
  | cons c text ih =>
    rw [doubled_cons]
    by_cases same : c = mark
    · simp [same, scanEnclosed, ih]
    · simp only [same, if_false, List.cons_append, List.nil_append]
      -- At least the closing mark follows, so the scanner sees two characters.
      cases tail : doubled mark text ++ mark :: later with
      | nil => simp at tail
      | cons d rest =>
        rw [tail] at ih
        simp [scanEnclosed, same, ih]

theorem of_scanEnclosed {mark : Char} {cs text later : List Char}
    (scanned : scanEnclosed mark cs = some (text, later)) :
    cs = doubled mark text ++ mark :: later ∧ later.head? ≠ some mark := by
  fun_induction scanEnclosed mark cs generalizing text later with
  | case1 => simp at scanned
  | case2 =>
    obtain ⟨rfl, rfl⟩ : [] = text ∧ [] = later := by simpa using scanned
    simp
  | case3 => simp at scanned
  | case4 rest ih =>
    obtain ⟨⟨inner, after⟩, found, same⟩ := Option.map_eq_some_iff.mp scanned
    obtain ⟨rfl, rfl⟩ : mark :: inner = text ∧ after = later := by simpa using same
    obtain ⟨rfl, stops⟩ := ih found
    simpa [doubled_cons] using stops
  | case5 d rest other =>
    obtain ⟨rfl, rfl⟩ : [] = text ∧ d :: rest = later := by simpa using scanned
    simpa using other
  | case6 c d rest other ih =>
    obtain ⟨⟨inner, after⟩, found, same⟩ := Option.map_eq_some_iff.mp scanned
    obtain ⟨rfl, rfl⟩ : c :: inner = text ∧ after = later := by simpa using same
    obtain ⟨split, stops⟩ := ih found
    rw [split, doubled_cons, if_neg other]
    exact ⟨rfl, stops⟩

end Text

namespace Ident

def scanExtended : List Char → Option (String × List Char)
  | '\\' :: cs => (Text.scanEnclosed '\\' cs).map fun x => (String.ofList x.1, x.2)
  | _ => none

theorem scanExtended_iff (cs later : List Char) (text : String) :
    scanExtended cs = some (text, later) ↔
      cs = (extended text).render.toList ++ later ∧ later.head? ≠ some '\\' := by
  have rendered : (extended text).render.toList ++ later =
      '\\' :: (Text.doubled '\\' text.toList ++ '\\' :: later) := by
    simp [render]
  rw [rendered]
  constructor
  · intro scanned
    unfold scanExtended at scanned
    split at scanned
    · next rest =>
      obtain ⟨⟨inner, after⟩, found, same⟩ := Option.map_eq_some_iff.mp scanned
      obtain ⟨rfl, rfl⟩ : String.ofList inner = text ∧ after = later := by simpa using same
      obtain ⟨split, stops⟩ := Text.of_scanEnclosed found
      exact ⟨by rw [split, String.toList_ofList], stops⟩
    · cases scanned
  · rintro ⟨rfl, stops⟩
    simp [scanExtended, Text.scanEnclosed_doubled _ _ _ stops]

def IsRenderable (i : Ident) : Prop := i.isAccepted = true ∨ i.isBasic = false

theorem basic_render_ne_extended {text other : String} (renderable : (basic text).IsRenderable) :
    (basic text).render ≠ (extended other).render := by
  have accepted : (ofBasic text).isOk = true := by
    simpa [IsRenderable, isBasic, isAccepted] using renderable
  have word := ((basicText_iff text).mp ((isOk_ofBasic text).mp accepted)).1
  obtain ⟨c, tail, split, letter, -⟩ := Lexer.basicText_cases word
  intro same
  have marks : c :: tail = '\\' :: Text.doubled '\\' other.toList ++ ['\\'] := by
    rw [← split, ← Text.toList_enclosed]
    exact congrArg String.toList same
  obtain ⟨rfl, -⟩ := List.cons.inj marks
  exact absurd letter (by decide)

theorem extended_render_injective {s t : String}
    (same : (extended s).render = (extended t).render) : s = t := by
  have first := (scanExtended_iff _ [] s).mpr ⟨rfl, by simp⟩
  have second := (scanExtended_iff _ [] t).mpr ⟨rfl, by simp⟩
  rw [same, second] at first
  simpa using first.symm

theorem render_injective {i j : Ident} (left : i.IsRenderable) (right : j.IsRenderable)
    (same : i.render = j.render) : i = j := by
  cases i with
  | basic s =>
    cases j with
    | basic t => exact congrArg basic same
    | extended t => exact absurd same (basic_render_ne_extended left)
  | extended s =>
    cases j with
    | basic t => exact absurd same.symm (basic_render_ne_extended right)
    | extended t => exact congrArg extended (extended_render_injective same)

/-- An extended identifier is read back from its rendering whatever stands behind, a backslash
apart, and nothing else is read; no two identifiers are rendered alike. -/
theorem render_decodable :
    (∀ (cs later : List Char) (text : String), scanExtended cs = some (text, later) ↔
      cs = (extended text).render.toList ++ later ∧ later.head? ≠ some '\\') ∧
    ∀ i j : Ident, i.IsRenderable → j.IsRenderable → (i.render = j.render ↔ i = j) := by
  refine ⟨scanExtended_iff, ?_⟩
  intro i j left right
  exact ⟨render_injective left right, fun same => same ▸ rfl⟩

/-- A text of three backslashes is rendered as eight, and they are read as one identifier. -/
theorem backslashes_decoded :
    scanExtended ("\\\\\\\\\\\\\\\\".toList ++ [' ', '\\']) = some ("\\\\\\", [' ', '\\']) ∧
      (extended "\\\\\\").render ≠ (basic "a").render := by
  obtain ⟨decodes, injective⟩ := render_decodable
  refine ⟨(decodes _ _ _).mpr ⟨by decide +kernel, by decide⟩, ?_⟩
  rw [ne_eq, injective (extended "\\\\\\") (basic "a") (.inr rfl) (.inl (by decide +kernel))]
  simp

end Ident

end Vhdl93
