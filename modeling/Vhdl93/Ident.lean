import Vhdl93.Error
import Vhdl93.Ident.Reserved
import Vhdl93.Text.Enclosed

set_option autoImplicit false

namespace Vhdl93

inductive Ident where
  | basic (text : String)
  | extended (text : String)
  deriving DecidableEq

namespace Ident

def isGraphic (c : Char) : Bool := ' ' ≤ c && c ≤ '~'

/-- What may follow the characters read so far; `closed` tells whether the text may end here. -/
def isBasicTail (closed : Bool) : List Char → Bool
  | [] => closed
  | c :: rest =>
      if c = '_' then isBasicTail false rest
      else c.isAlphanum && isBasicTail true rest

def isBasicText : List Char → Bool
  | [] => false
  | c :: rest => c.isAlpha && isBasicTail true rest

def ofBasic (text : String) : Except Error Ident :=
  if text.isEmpty then .error .emptyIdentifier
  else if isBasicText text.toList && !isReserved text then .ok (.basic text)
  else .error (.invalidBasic text)

def ofExtended (text : String) : Except Error Ident :=
  if text.isEmpty then .error .emptyIdentifier
  else if text.toList.all isGraphic then .ok (.extended text)
  else .error (.invalidExtended text)

def text : Ident → String
  | .basic text | .extended text => text

def isBasic : Ident → Bool
  | .basic _ => true
  | .extended _ => false

def render : Ident → String
  | .basic text => text
  | .extended text => Text.enclosed '\\' text

def append : Ident → String → Ident
  | .basic text, suffix => .basic (text ++ suffix)
  | .extended text, suffix => .extended (text ++ suffix)

@[simp] theorem text_append (i : Ident) (suffix : String) :
    (i.append suffix).text = i.text ++ suffix := by
  cases i <;> rfl

@[simp] theorem isBasic_append (i : Ident) (suffix : String) :
    (i.append suffix).isBasic = i.isBasic := by
  cases i <;> rfl

end Ident

end Vhdl93
