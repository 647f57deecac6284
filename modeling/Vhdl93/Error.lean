set_option autoImplicit false

namespace Vhdl93

inductive Error where
  | emptyIdentifier
  | invalidBasic (text : String)
  | invalidExtended (text : String)
  | other (message : String)
  deriving DecidableEq

def Error.message : Error → String
  | .emptyIdentifier => "Identifier must not be empty"
  | .invalidBasic text => "'" ++ text ++ "' is not a valid basic identifier"
  | .invalidExtended text => "'" ++ text ++ "' is not a valid extended identifier"
  | .other message => message

end Vhdl93
