import Vhdl93.Expr.Equality
import Vhdl93.Expr.Pieces

set_option autoImplicit false

namespace Vhdl93

structure WaveformElement where
  value : Expr
  delay : Option Expr

inductive Waveform where
  | elements (elements : List WaveformElement)
  | unaffected

def Waveform.single (value : Expr) : Waveform := .elements [⟨value, none⟩]

def WaveformElement.eqv (v w : WaveformElement) : Bool := v.value == w.value && v.delay == w.delay

instance : BEq WaveformElement := ⟨WaveformElement.eqv⟩

def Waveform.eqv : Waveform → Waveform → Bool
  | .elements vs, .elements ws => vs == ws
  | .unaffected, .unaffected => true
  | _, _ => false

instance : BEq Waveform := ⟨Waveform.eqv⟩

def WaveformElement.pieces (w : WaveformElement) : Pieces :=
  match w.delay with
  | none => w.value.pieces
  | some delay => w.value.pieces ++ .blank :: .keyword "after" :: .blank :: delay.pieces

def Waveform.pieces : Waveform → Pieces
  | .elements ws => Pieces.commaSeparated (ws.map WaveformElement.pieces)
  | .unaffected => [.keyword "unaffected"]

def WaveformElement.text (w : WaveformElement) : String := w.pieces.text
def Waveform.text (w : Waveform) : String := w.pieces.text

end Vhdl93
