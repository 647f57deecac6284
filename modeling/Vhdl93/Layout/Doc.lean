import Vhdl93.Config
import Vhdl93.Text.Column

set_option autoImplicit false

/-!
Documents. A document is text with places where a line may break. A group is written on one line if
that line is not too wide and otherwise breaks at all of its own places; the groups inside it decide
again for themselves.
-/

namespace Vhdl93

inductive Doc where
  | text (text : String)
  -- In a group on one line a space is a blank and a soft break nothing; a line breaks even there.
  | line
  | space
  | soft
  | nest (body : Doc)
  | cat (first second : Doc)
  | group (body : Doc)

namespace Doc

instance : Append Doc := ⟨cat⟩

def empty : Doc := .text ""

def flat : Doc → String
  | .text s => s
  | .line => "\n"
  | .space => " "
  | .soft => ""
  | .nest d => d.flat
  | .cat a b => a.flat ++ b.flat
  | .group d => d.flat

def render (config : Config) (depth column : Nat) : Doc → String
  | .text s => s
  -- A product of words, which is a word too: it is at most the length of the text.
  | .line | .space | .soft => Text.breakWith (config.indentSize * depth)
  | .nest d => d.render config (depth + 1) column
  | .cat a b =>
      let first := a.render config depth column
      first ++ b.render config depth (Text.advance column first)
  | .group d =>
      -- All characters count, also those behind a line break inside a literal.
      if column + d.flat.length ≤ config.lineWidth then d.flat
      else d.render config depth column

@[simp] theorem flat_append (a b : Doc) : (a ++ b).flat = a.flat ++ b.flat := rfl

@[simp] theorem render_append (config : Config) (depth column : Nat) (a b : Doc) :
    (a ++ b).render config depth column =
      a.render config depth column ++
        b.render config depth (Text.advance column (a.render config depth column)) := rfl

def concat : List Doc → Doc
  | [] => empty
  | d :: ds => d ++ concat ds

def lines (ds : List Doc) : Doc := concat (ds.map (.line ++ ·))

def joined : List Doc → Doc
  | [] => empty
  | d :: ds => d ++ lines ds

def nextItem (item : String) : Doc := .text "," ++ .space ++ .text item

def list (opening : String) (items : List String) (closing : String) : Doc :=
  match items with
  | [] => .text (opening ++ closing)
  | first :: rest =>
      .group (.text opening ++
        .nest (.soft ++ .text first ++ concat (rest.map nextItem)) ++
        .soft ++ .text closing)

theorem flat_concat_nextItem (first : String) (rest : List String) :
    first ++ (concat (rest.map nextItem)).flat = ", ".intercalate (first :: rest) := by
  induction rest generalizing first with
  | nil => simp [concat, empty, flat]
  | cons second rest ih =>
    rw [String.intercalate_cons_cons, ← ih second]
    simp [concat, nextItem, flat, ← String.append_assoc]

@[simp] theorem flat_list (opening : String) (items : List String) (closing : String) :
    (list opening items closing).flat = opening ++ ", ".intercalate items ++ closing := by
  cases items with
  | nil => simp [list, flat]
  | cons first rest =>
    rw [← flat_concat_nextItem]
    simp [list, flat, String.append_assoc]

def block (head : String) (body : List Doc) (closing : String) : Doc :=
  .text head ++ .nest (lines body) ++ .line ++ .text closing

def region (head : String) (items body : List Doc) (closing : String) : Doc :=
  .text head ++ .nest (lines items) ++ .line ++ block "begin" body closing

end Doc

end Vhdl93
