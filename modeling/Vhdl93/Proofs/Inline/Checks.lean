import Vhdl93.Subtype
import Vhdl93.Waveform

set_option autoImplicit false

namespace Vhdl93

structure Checks where
  ident : Ident → Bool
  designator : Ident → Bool
  -- The name that an attribute is applied to.
  stem : Name → Bool
  literal : Literal → Bool
  size : Nat → Bool

def Suffix.passes (c : Checks) : Suffix → Bool
  | .simple i => c.ident i
  | .all => true

mutual

def Name.passes (c : Checks) : Name → Bool
  | .simple i => c.ident i
  | .selected base suffix => base.passes c && suffix.passes c
  | .indexed base es => base.passes c && c.size es.length && Expr.passesAll c es
  | .slice base range => base.passes c && range.passes c
  | .attribute base i e =>
      base.passes c && c.stem base && c.designator i && Expr.passesOption c e

def Range.passes (c : Checks) : Range → Bool
  | .bounds _ l r => l.passes c && r.passes c
  | .attribute base i e =>
      base.passes c && c.stem base && c.designator i && Expr.passesOption c e

def Expr.passes (c : Checks) : Expr → Bool
  | .binary _ l r => l.passes c && r.passes c
  | .unary _ e => e.passes c
  | .literal x => c.literal x
  | .name n => n.passes c
  | .call n as => n.passes c && Association.passesAll c as
  | .aggregate es => c.size es.length && Element.passesAll c es

def Choice.passes (c : Checks) : Choice → Bool
  | .expr e => e.passes c
  | .others => true

def Element.passes (c : Checks) : Element → Bool
  | .positional e => e.passes c
  | .named choice e => choice.passes c && e.passes c

def Actual.passes (c : Checks) : Actual → Bool
  | .name n => n.passes c
  | .expr e => e.passes c
  | .unconnected => true

def Association.passes (c : Checks) : Association → Bool
  | .positional a => a.passes c
  | .named i a => c.ident i && a.passes c

def Expr.passesOption (c : Checks) : Option Expr → Bool
  | none => true
  | some e => e.passes c

def Expr.passesAll (c : Checks) : List Expr → Bool
  | [] => true
  | e :: es => e.passes c && Expr.passesAll c es

def Element.passesAll (c : Checks) : List Element → Bool
  | [] => true
  | e :: es => e.passes c && Element.passesAll c es

def Association.passesAll (c : Checks) : List Association → Bool
  | [] => true
  | a :: as => a.passes c && Association.passesAll c as

end

theorem Association.passesAll_eq_all (c : Checks) (as : List Association) :
    Association.passesAll c as = as.all (Association.passes c) := by
  induction as with
  | nil => rfl
  | cons a as ih => rw [Association.passesAll, ih, List.all_cons]

def Constraint.passes (c : Checks) : Constraint → Bool
  | .range r => r.passes c
  | .index rs => c.size rs.length && rs.all (Range.passes c)

def SubtypeIndication.passes (c : Checks) (s : SubtypeIndication) : Bool :=
  c.ident s.mark && s.constraint.all (Constraint.passes c)

def WaveformElement.passes (c : Checks) (w : WaveformElement) : Bool :=
  w.value.passes c && w.delay.all (Expr.passes c)

def Waveform.passes (c : Checks) : Waveform → Bool
  | .elements ws => c.size ws.length && ws.all (WaveformElement.passes c)
  | .unaffected => true

def Literal.isFinite : Literal → Bool
  | .real x => x.isFinite
  | _ => true

/-- What is asked of every tree: finite reals, and an element in each list that needs one. -/
def Checks.documented : Checks where
  ident _ := true
  designator _ := true
  stem _ := true
  literal := Literal.isFinite
  size n := n != 0

def Literal.isNumeric : Literal → Bool
  | .real x => !x.isNaN
  | _ => true

def Checks.ofLiterals (check : Literal → Bool) : Checks where
  ident _ := true
  designator _ := true
  stem _ := true
  literal := check
  size _ := true

section Literals

variable (check : Literal → Bool)

@[simp] theorem Checks.ofLiterals_ident (i : Ident) : (ofLiterals check).ident i = true := rfl

@[simp] theorem Checks.ofLiterals_designator (i : Ident) :
    (ofLiterals check).designator i = true := rfl

@[simp] theorem Checks.ofLiterals_stem (n : Name) : (ofLiterals check).stem n = true := rfl

@[simp] theorem Checks.ofLiterals_literal (x : Literal) :
    (ofLiterals check).literal x = check x := rfl

@[simp] theorem Checks.ofLiterals_size (n : Nat) : (ofLiterals check).size n = true := rfl

end Literals

abbrev Checks.numeric : Checks := .ofLiterals Literal.isNumeric

end Vhdl93
