set_option autoImplicit false

namespace Vhdl93

structure Config where
  lineWidth : Nat := 80
  indentSize : Nat := 4
  deriving DecidableEq

def Config.isDefault (config : Config) : Bool := config = {}

end Vhdl93
