import Vhdl93.Declaration.Basic
import Vhdl93.Sequential.Basic

set_option autoImplicit false

namespace Vhdl93

mutual

inductive SubprogramBody where
  | mk (spec : Spec) (items : List SubprogramItem) (body : List Sequential)

inductive SubprogramItem where
  | variableDecl (decl : ObjectDecl)
  | constantDecl (decl : ObjectDecl)
  | subprogram (body : SubprogramBody)

end

mutual

def SubprogramBody.eqv : SubprogramBody → SubprogramBody → Bool
  | .mk s items body, .mk t items' body' =>
      s = t && SubprogramItem.eqvAll items items' && body == body'

def SubprogramItem.eqv : SubprogramItem → SubprogramItem → Bool
  | .variableDecl d, .variableDecl e => d == e
  | .constantDecl d, .constantDecl e => d == e
  | .subprogram b, .subprogram c => b.eqv c
  | _, _ => false

def SubprogramItem.eqvAll : List SubprogramItem → List SubprogramItem → Bool
  | [], [] => true
  | i :: is, j :: js => i.eqv j && SubprogramItem.eqvAll is js
  | _, _ => false

end

instance : BEq SubprogramBody := ⟨SubprogramBody.eqv⟩
instance : BEq SubprogramItem := ⟨SubprogramItem.eqv⟩

inductive PackageBodyItem where
  | constantDecl (decl : ObjectDecl)
  | subprogram (body : SubprogramBody)

def PackageBodyItem.eqv : PackageBodyItem → PackageBodyItem → Bool
  | .constantDecl d, .constantDecl e => d == e
  | .subprogram b, .subprogram c => b == c
  | _, _ => false

instance : BEq PackageBodyItem := ⟨PackageBodyItem.eqv⟩

end Vhdl93
