import Vhdl93.Ident

set_option autoImplicit false

namespace Vhdl93

inductive Mode where
  | input | output
  deriving DecidableEq

instance : Inhabited Mode := ⟨.input⟩

inductive ObjectClass where
  | constant | signal | variable
  deriving DecidableEq

structure Port where
  name : Ident
  mode : Mode
  mark : Ident
  deriving DecidableEq

structure FunctionParameter where
  name : Ident
  mark : Ident
  deriving DecidableEq

structure ProcedureParameter where
  kind : ObjectClass
  name : Ident
  mode : Mode
  mark : Ident
  deriving DecidableEq

inductive Spec where
  | function (name : Ident) (parameters : List FunctionParameter) (result : Ident)
  | procedure (name : Ident) (parameters : List ProcedureParameter)
  deriving DecidableEq

def Spec.designator : Spec → Ident
  | .function name _ _ | .procedure name _ => name

def Mode.text : Mode → String
  | .input => "in"
  | .output => "out"

def ObjectClass.text : ObjectClass → String
  | .constant => "constant"
  | .signal => "signal"
  | .variable => "variable"

def Port.text (p : Port) : String :=
  p.name.render ++ " : " ++ p.mode.text ++ " " ++ p.mark.render

def FunctionParameter.text (p : FunctionParameter) : String :=
  p.name.render ++ " : " ++ p.mark.render

def ProcedureParameter.text (p : ProcedureParameter) : String :=
  p.kind.text ++ " " ++ p.name.render ++ " : " ++ p.mode.text ++ " " ++ p.mark.render

def Spec.parameterText (parameters : List String) : String :=
  if parameters.isEmpty then "" else "(" ++ "; ".intercalate parameters ++ ")"

def Spec.text : Spec → String
  | .function name parameters result =>
      "function " ++ name.render ++ parameterText (parameters.map FunctionParameter.text) ++
        " return " ++ result.render
  | .procedure name parameters =>
      "procedure " ++ name.render ++ parameterText (parameters.map ProcedureParameter.text)

end Vhdl93
