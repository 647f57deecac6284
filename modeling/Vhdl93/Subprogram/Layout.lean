import Vhdl93.Declaration.Layout
import Vhdl93.Sequential.Layout
import Vhdl93.Subprogram.Basic

set_option autoImplicit false

namespace Vhdl93

def Spec.closing : Spec → String
  | .function _ _ _ => "end function;"
  | .procedure _ _ => "end procedure;"

mutual

def SubprogramBody.doc : SubprogramBody → Doc
  | .mk spec items body =>
      .region (spec.text ++ " is") (SubprogramItem.docs items) (body.map Sequential.doc)
        spec.closing

def SubprogramItem.doc : SubprogramItem → Doc
  | .variableDecl d => d.doc .variable
  | .constantDecl d => d.doc .constant
  | .subprogram b => b.doc

def SubprogramItem.docs : List SubprogramItem → List Doc
  | [] => []
  | i :: is => i.doc :: SubprogramItem.docs is

end

@[simp] theorem SubprogramItem.docs_eq_map (is : List SubprogramItem) :
    SubprogramItem.docs is = is.map SubprogramItem.doc := by
  induction is with
  | nil => rfl
  | cons i is ih => simp [SubprogramItem.docs, ih]

def PackageBodyItem.doc : PackageBodyItem → Doc
  | .constantDecl d => d.doc .constant
  | .subprogram b => b.doc

end Vhdl93
