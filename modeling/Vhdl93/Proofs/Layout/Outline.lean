import Vhdl93.Layout.Step

set_option autoImplicit false

/-!
What a document fixes of its text in every layout. The outline of a document is the sequence of its
fragments with the places between them: a gap has white space in every layout, an edge, which stands
directly inside a parenthesis, may have none.
-/

namespace Vhdl93

inductive Mark where
  | fragment (text : String)
  | gap
  | edge

namespace Layout

def IsWhite (text : String) : Prop := ∀ c ∈ text.toList, c = ' ' ∨ c = '\n'

inductive Fills : List Mark → String → Prop where
  | nil : Fills [] ""
  | fragment (s : String) {ms : List Mark} {t : String} (rest : Fills ms t) :
    Fills (.fragment s :: ms) (s ++ t)
  | gap {w : String} {ms : List Mark} {t : String} (white : IsWhite w) (nonempty : w ≠ "")
    (rest : Fills ms t) :
      Fills (.gap :: ms) (w ++ t)
  | edge {w : String} {ms : List Mark} {t : String} (white : IsWhite w) (rest : Fills ms t) :
      Fills (.edge :: ms) (w ++ t)

/-- Every edge stands directly behind an opening parenthesis or directly before a closing one. -/
inductive Placed : List Mark → Prop where
  | nil : Placed []
  | fragment (s : String) {ms : List Mark} (rest : Placed ms) : Placed (.fragment s :: ms)
  | gap {ms : List Mark} (rest : Placed ms) : Placed (.gap :: ms)
  | opening (s : String) {ms : List Mark} (rest : Placed ms) :
    Placed (.fragment (s ++ "(") :: .edge :: ms)
  | closing (s : String) {ms : List Mark} (rest : Placed ms) :
    Placed (.edge :: .fragment (")" ++ s) :: ms)

/-- Two texts with the same fragments, of which only the white space at gaps and edges differs. -/
def Respaced (outline : List Mark) (s t : String) : Prop :=
  Placed outline ∧ Fills outline s ∧ Fills outline t

theorem Fills.append {ms ns : List Mark} {s t : String} (left : Fills ms s) (right : Fills ns t) :
    Fills (ms ++ ns) (s ++ t) := by
  induction left with
  | nil => simpa using right
  | fragment s rest ih =>
    rw [String.append_assoc]
    exact .fragment s ih
  | gap white nonempty rest ih =>
    rw [String.append_assoc]
    exact .gap white nonempty ih
  | edge white rest ih =>
    rw [String.append_assoc]
    exact .edge white ih

theorem Placed.append {ms ns : List Mark} (left : Placed ms) (right : Placed ns) :
    Placed (ms ++ ns) := by
  induction left with
  | nil => exact right
  | fragment s rest ih => exact .fragment s ih
  | gap rest ih => exact .gap ih
  | opening s rest ih => exact .opening s ih
  | closing s rest ih => exact .closing s ih

theorem isWhite_breakWith (n : Nat) : IsWhite (Text.breakWith n) := by
  intro c member
  simp only [Text.breakWith, String.toList_ofList, List.mem_cons, List.mem_replicate] at member
  rcases member with newline | ⟨-, blank⟩
  · exact .inr newline
  · exact .inl blank

theorem breakWith_ne_empty (n : Nat) : Text.breakWith n ≠ "" := by
  intro empty
  have chars := congrArg String.toList empty
  simp [Text.breakWith] at chars

theorem fills_fragment (s : String) : Fills [.fragment s] s := by
  simpa using Fills.fragment s .nil

theorem fills_gap {w : String} (white : IsWhite w) (nonempty : w ≠ "") : Fills [.gap] w := by
  simpa using Fills.gap white nonempty .nil

theorem fills_edge {w : String} (white : IsWhite w) : Fills [.edge] w := by
  simpa using Fills.edge white .nil

/-- The words of a text, where a parenthesis is a word of its own; `current` is the word read so
far. -/
def words (current : List Char) : List Char → List (List Char)
  | [] => [current].filter (· ≠ [])
  | c :: cs =>
      if c = ' ' ∨ c = '\n' then [current].filter (· ≠ []) ++ words [] cs
      else if c = '(' ∨ c = ')' then [current].filter (· ≠ []) ++ [c] :: words [] cs
      else words (current ++ [c]) cs

theorem words_congr {s t : List Char} (same : ∀ current, words current s = words current t)
    (cs current : List Char) : words current (cs ++ s) = words current (cs ++ t) := by
  induction cs generalizing current with
  | nil => exact same current
  | cons c cs ih => simp only [List.cons_append, words, ih]

theorem words_behind_opening {s t : List Char} (same : words [] s = words [] t)
    (cs current : List Char) : words current (cs ++ '(' :: s) = words current (cs ++ '(' :: t) := by
  apply words_congr
  intro current
  simp [words, same]

theorem words_white {w : List Char} (white : ∀ c ∈ w, c = ' ' ∨ c = '\n') (s : List Char) :
    words [] (w ++ s) = words [] s := by
  induction w with
  | nil => rfl
  | cons c w ih =>
    have blank := white c List.mem_cons_self
    simp [words, blank, ih fun d member => white d (List.mem_cons_of_mem c member)]

theorem words_gap {w : List Char} (white : ∀ c ∈ w, c = ' ' ∨ c = '\n') (nonempty : w ≠ [])
    (s current : List Char) : words current (w ++ s) = [current].filter (· ≠ []) ++ words [] s := by
  cases w with
  | nil => exact absurd rfl nonempty
  | cons c w =>
    have blank := white c List.mem_cons_self
    simp [words, blank, words_white fun d member => white d (List.mem_cons_of_mem c member)]

theorem words_before_closing {w : List Char} (white : ∀ c ∈ w, c = ' ' ∨ c = '\n')
    (s current : List Char) :
    words current (w ++ ')' :: s) = [current].filter (· ≠ []) ++ [')'] :: words [] s := by
  cases w with
  | nil => simp [words]
  | cons c w =>
    rw [words_gap white (by simp)]
    simp [words]

theorem Placed.same_words {ms : List Mark} {s t : String} (placed : Placed ms) (left : Fills ms s)
    (right : Fills ms t) (current : List Char) :
    words current s.toList = words current t.toList := by
  induction placed generalizing s t current with
  | nil =>
    cases left
    cases right
    rfl
  | fragment f rest ih =>
    cases left with
    | fragment _ left =>
      cases right with
      | fragment _ right =>
        simpa using words_congr (fun current => ih left right current) f.toList current
  | gap rest ih =>
    cases left with
    | gap white nonempty left =>
      cases right with
      | gap white' nonempty' right =>
        rw [String.toList_append, String.toList_append, words_gap white (by simpa using nonempty),
          words_gap white' (by simpa using nonempty'), ih left right]
  | opening f rest ih =>
    cases left with
    | fragment _ left =>
      cases left with
      | edge white left =>
        cases right with
        | fragment _ right =>
          cases right with
          | edge white' right =>
            have behind := (words_white white _).trans
              ((ih left right []).trans (words_white white' _).symm)
            simpa using words_behind_opening behind f.toList current
  | closing f rest ih =>
    cases left with
    | edge white left =>
      cases left with
      | fragment _ left =>
        cases right with
        | edge white' right =>
          cases right with
          | fragment _ right =>
            have later := words_congr (fun current => ih left right current) f.toList []
            have mark : ")".toList = [')'] := rfl
            simp only [String.toList_append, mark, List.cons_append, List.nil_append]
            rw [words_before_closing white, words_before_closing white', later]

theorem Respaced.same_words {outline : List Mark} {s t : String} (respaced : Respaced outline s t) :
    words [] s.toList = words [] t.toList :=
  respaced.1.same_words respaced.2.1 respaced.2.2 []

end Layout

open Layout

namespace Doc

def outline : Doc → List Mark
  | .text s => [.fragment s]
  | .line | .space => [.gap]
  | .soft => [.edge]
  | .nest d | .group d => d.outline
  | .cat a b => a.outline ++ b.outline

@[simp] theorem outline_append (a b : Doc) : (a ++ b).outline = a.outline ++ b.outline := rfl

theorem fills_flat (d : Doc) : Fills d.outline d.flat := by
  induction d with
  | text s => exact fills_fragment s
  | line => exact fills_gap (by simp [IsWhite, flat]) (by simp [flat])
  | space => exact fills_gap (by simp [IsWhite, flat]) (by simp [flat])
  | soft => exact fills_edge (by simp [IsWhite, flat])
  | nest d ih | group d ih => exact ih
  | cat a b iha ihb => exact iha.append ihb

theorem fills_render (d : Doc) (config : Config) (depth column : Nat) :
    Fills d.outline (d.render config depth column) := by
  induction d generalizing depth column with
  | text s => exact fills_fragment s
  | line | space => exact fills_gap (isWhite_breakWith _) (breakWith_ne_empty _)
  | soft => exact fills_edge (isWhite_breakWith _)
  | nest d ih => exact ih (depth + 1) column
  | cat a b iha ihb => exact (iha depth column).append (ihb depth _)
  | group d ih =>
    rw [render]
    split
    · exact d.fills_flat
    · exact ih depth column

section Placement

variable {ds is : List Doc}

theorem placed_text (s : String) : Placed (Doc.text s).outline := .fragment s .nil

theorem placed_line : Placed Doc.line.outline := .gap .nil

theorem placed_map {α : Type} {f : α → Doc} (xs : List α) (each : ∀ x, Placed (f x).outline) :
    ∀ d ∈ xs.map f, Placed d.outline := by
  intro d member
  obtain ⟨x, -, rfl⟩ := List.mem_map.mp member
  exact each x

theorem placed_concat (each : ∀ d ∈ ds, Placed d.outline) : Placed (Doc.concat ds).outline := by
  induction ds with
  | nil => exact placed_text ""
  | cons d ds ih =>
    have first := each d List.mem_cons_self
    exact first.append (ih fun e member => each e (List.mem_cons_of_mem d member))

theorem placed_lines (each : ∀ d ∈ ds, Placed d.outline) : Placed (Doc.lines ds).outline := by
  apply placed_concat
  intro d member
  obtain ⟨e, origin, rfl⟩ := List.mem_map.mp member
  exact .gap (each e origin)

theorem placed_joined (each : ∀ d ∈ ds, Placed d.outline) : Placed (Doc.joined ds).outline := by
  cases ds with
  | nil => exact placed_text ""
  | cons d ds =>
    have first := each d List.mem_cons_self
    exact first.append (placed_lines fun e member => each e (List.mem_cons_of_mem d member))

theorem placed_block (head closing : String) (each : ∀ d ∈ ds, Placed d.outline) :
    Placed (Doc.block head ds closing).outline := by
  have opened : Placed (Doc.text head ++ .nest (.lines ds)).outline :=
    (placed_text head).append (placed_lines each)
  exact (opened.append placed_line).append (placed_text closing)

theorem placed_region (head closing : String) (items : ∀ d ∈ is, Placed d.outline)
    (body : ∀ d ∈ ds, Placed d.outline) : Placed (Doc.region head is ds closing).outline := by
  have opened : Placed (Doc.text head ++ .nest (.lines is)).outline :=
    (placed_text head).append (placed_lines items)
  exact (opened.append placed_line).append (placed_block "begin" closing body)

theorem placed_list (opening closing : String) (items : List String) :
    Placed (Doc.list (opening ++ "(") items (")" ++ closing)).outline := by
  -- The edges of a list stand inside its parentheses.
  cases items with
  | nil => exact placed_text _
  | cons first rest =>
    have later : Placed (Doc.concat (rest.map nextItem)).outline :=
      placed_concat (placed_map rest fun item => .fragment "," (.gap (.fragment item .nil)))
    have inside : Placed (.fragment first :: (Doc.concat (rest.map nextItem)).outline ++
        [.edge, .fragment (")" ++ closing)]) :=
      .fragment first (later.append (.closing closing .nil))
    simpa [Doc.list, outline] using Placed.opening opening inside

end Placement

end Doc

end Vhdl93
