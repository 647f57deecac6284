import Vhdl93.Interface
import Vhdl93.Subtype

set_option autoImplicit false

namespace Vhdl93

structure ObjectDecl where
  name : Ident
  subtype : SubtypeIndication
  value : Option Expr

inductive EnumLiteral where
  | ident (ident : Ident)
  | character (value : Char)
  deriving DecidableEq

structure FieldDecl where
  name : Ident
  mark : Ident
  deriving DecidableEq

inductive TypeDef where
  | enumeration (literals : List EnumLiteral)
  | integer (range : Range)
  | unconstrainedArray (indices : List Ident) (element : Ident)
  | constrainedArray (ranges : List Range) (element : Ident)
  | record (fields : List FieldDecl)

structure TypeDecl where
  name : Ident
  definition : TypeDef

structure SubtypeDecl where
  name : Ident
  subtype : SubtypeIndication

inductive PackageItem where
  | typeDecl (decl : TypeDecl)
  | subtypeDecl (decl : SubtypeDecl)
  | constantDecl (decl : ObjectDecl)
  | subprogramDecl (spec : Spec)

def ObjectDecl.eqv (d e : ObjectDecl) : Bool :=
  d.name = e.name && d.subtype == e.subtype && d.value == e.value

instance : BEq ObjectDecl := ⟨ObjectDecl.eqv⟩

def TypeDef.eqv : TypeDef → TypeDef → Bool
  | .enumeration ls, .enumeration ms => ls = ms
  | .integer r, .integer s => r == s
  | .unconstrainedArray is i, .unconstrainedArray js j => is = js && i = j
  | .constrainedArray rs i, .constrainedArray ss j => rs == ss && i = j
  | .record fs, .record gs => fs = gs
  | _, _ => false

instance : BEq TypeDef := ⟨TypeDef.eqv⟩

def TypeDecl.eqv (d e : TypeDecl) : Bool := d.name = e.name && d.definition == e.definition

instance : BEq TypeDecl := ⟨TypeDecl.eqv⟩

def SubtypeDecl.eqv (d e : SubtypeDecl) : Bool := d.name = e.name && d.subtype == e.subtype

instance : BEq SubtypeDecl := ⟨SubtypeDecl.eqv⟩

def PackageItem.eqv : PackageItem → PackageItem → Bool
  | .typeDecl d, .typeDecl e => d == e
  | .subtypeDecl d, .subtypeDecl e => d == e
  | .constantDecl d, .constantDecl e => d == e
  | .subprogramDecl s, .subprogramDecl t => s = t
  | _, _ => false

instance : BEq PackageItem := ⟨PackageItem.eqv⟩

end Vhdl93
