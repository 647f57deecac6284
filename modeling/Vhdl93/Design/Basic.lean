import Vhdl93.Concurrent.Basic

set_option autoImplicit false

namespace Vhdl93

inductive ContextItem where
  | library (name : Ident)
  | use (name : Name) (suffix : Suffix)

structure Entity where
  name : Ident
  ports : List Port

structure Architecture where
  name : Ident
  entity : Ident
  items : List BlockItem
  body : List Concurrent

structure Package where
  name : Ident
  items : List PackageItem

structure PackageBody where
  name : Ident
  items : List PackageBodyItem

inductive LibraryUnit where
  | entity (unit : Entity)
  | architecture (unit : Architecture)
  | package (unit : Package)
  | packageBody (unit : PackageBody)

def LibraryUnit.ident : LibraryUnit → Ident
  | .entity u => u.name
  | .architecture u => u.name
  | .package u => u.name
  | .packageBody u => u.name

structure Design where
  context : List ContextItem := []
  units : List LibraryUnit := []

def ContextItem.eqv : ContextItem → ContextItem → Bool
  | .library i, .library j => i = j
  | .use n s, .use m t => n == m && s = t
  | _, _ => false

instance : BEq ContextItem := ⟨ContextItem.eqv⟩

def LibraryUnit.eqv : LibraryUnit → LibraryUnit → Bool
  | .entity u, .entity v => u.name = v.name && u.ports = v.ports
  | .architecture u, .architecture v =>
      u.name = v.name && u.entity = v.entity && u.items == v.items && u.body == v.body
  | .package u, .package v => u.name = v.name && u.items == v.items
  | .packageBody u, .packageBody v => u.name = v.name && u.items == v.items
  | _, _ => false

instance : BEq LibraryUnit := ⟨LibraryUnit.eqv⟩

def Design.eqv (d e : Design) : Bool := d.context == e.context && d.units == e.units

instance : BEq Design := ⟨Design.eqv⟩

end Vhdl93
