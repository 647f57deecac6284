set_option autoImplicit false

namespace Vhdl93

inductive Event where
  | writing (units : Nat) (path : String)
  | wrote (bytes : Nat) (path : String)
  | loaded (path : String)
  deriving DecidableEq

inductive Level where
  | trace | debug | info
  deriving DecidableEq

def Level.name : Level → String
  | .trace => "TRACE"
  | .debug => "DEBUG"
  | .info => "INFO"

def Event.level : Event → Level
  | .writing _ _ => .debug
  | .wrote _ _ => .trace
  | .loaded _ => .info

def Event.text : Event → String
  | .writing units path => "Writing " ++ units.repr ++ " library unit(s) to " ++ path
  | .wrote bytes path => "Wrote " ++ bytes.repr ++ " bytes to " ++ path
  | .loaded path => "Loaded configuration from " ++ path

end Vhdl93
