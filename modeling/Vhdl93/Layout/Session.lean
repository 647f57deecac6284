import Vhdl93.Layout.Doc

set_option autoImplicit false

namespace Vhdl93

structure Session where
  config : Config
  depth : Nat
  buffer : String

inductive Fault where
  | outermost
  deriving DecidableEq

def Fault.message : Fault → String
  | .outermost => "attempt to subtract with overflow"

namespace Session

def start (config : Config) : Session := ⟨config, 0, ""⟩

def push (s : Session) (text : String) : Session := { s with buffer := s.buffer ++ text }

def column (s : Session) : Nat := Text.column s.buffer

-- A product of words of 64 bits. Nothing is said of the column where it overflows.
def newline (s : Session) : Session := s.push (Text.breakWith (s.config.indentSize * s.depth))

def indent (s : Session) : Session := { s with depth := s.depth + 1 }

def dedent (s : Session) : Except Fault Session :=
  match s.depth with
  | 0 => .error .outermost
  | depth + 1 => .ok { s with depth := depth }

def fits (s : Session) (text : String) : Bool := s.column + text.length ≤ s.config.lineWidth

def write (s : Session) : Doc → Except Fault Session
  | .text t => .ok (s.push t)
  | .line | .space | .soft => .ok s.newline
  | .nest d => do
      let t ← s.indent.write d
      t.dedent
  | .cat a b => do
      let t ← s.write a
      t.write b
  | .group d => if s.fits d.flat then .ok (s.push d.flat) else s.write d

@[simp] theorem column_push (s : Session) (text : String) :
    (s.push text).column = Text.advance s.column text := by
  simp [column, push]

@[simp] theorem dedent_indent_push (s : Session) (text : String) :
    (s.indent.push text).dedent = .ok (s.push text) := rfl

theorem push_push (s : Session) (t u : String) : (s.push t).push u = s.push (t ++ u) := by
  simp [push, String.append_assoc]

theorem write_eq (s : Session) (d : Doc) :
    s.write d = .ok (s.push (d.render s.config s.depth s.column)) := by
  induction d generalizing s with
  | text t => rfl
  | line | space | soft => rfl
  | nest d ih =>
    rw [write, ih]
    rfl
  | cat a b iha ihb =>
    rw [write, iha]
    show (s.push _).write b = _
    rw [ihb, push_push]
    simp [push, Doc.render, column]
  | group d ih =>
    simp only [write, Doc.render, fits, decide_eq_true_eq]
    split
    · rfl
    · exact ih s

end Session

end Vhdl93
