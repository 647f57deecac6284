import Vhdl93.Config
import Vhdl93.Toml.Loading

set_option autoImplicit false

namespace Vhdl93

inductive Setting where
  | lineWidth | indentSize
  deriving DecidableEq

def Setting.key : Setting → String
  | .lineWidth => "line_width"
  | .indentSize => "indent_size"

inductive ConfigError where
  | malformed
  | unknownKey (key : String)
  | notInteger (setting : Setting)
  | notPositive (setting : Setting)
  deriving DecidableEq

def ConfigError.message : ConfigError → String
  | .malformed => "invalid TOML"
  | .unknownKey key => "Unknown key '" ++ key ++ "'"
  | .notInteger setting => setting.key ++ " must be an integer"
  | .notPositive setting => setting.key ++ " must be positive"

namespace Config

def isKnownKey (key : String) : Bool := key = Setting.lineWidth.key || key = Setting.indentSize.key

def positive (setting : Setting) (default : Nat) : Option Toml.Value → Except ConfigError Nat
  | none => .ok default
  | some (.scalar (.integer n)) => if 0 < n then .ok n.toNat else .error (.notPositive setting)
  | some _ => .error (.notInteger setting)

def ofTable (table : Toml.Entries) : Except ConfigError Config :=
  match table.leastKey? fun key => !isKnownKey key with
  | some key => .error (.unknownKey key)
  | none => do
      -- The line width goes first, so its error hides one of the indent size.
      let lineWidth ← positive .lineWidth ({} : Config).lineWidth (table.get? Setting.lineWidth.key)
      let indentSize ←
        positive .indentSize ({} : Config).indentSize (table.get? Setting.indentSize.key)
      return { lineWidth, indentSize }

-- `load` gives the top-level table of a text that is a document.
def fromText (load : String → Option Toml.Entries) (text : String) : Except ConfigError Config :=
  match load text with
  | none => .error .malformed
  | some table => ofTable table

def parse : String → Except ConfigError Config := fromText Toml.load?

end Config

end Vhdl93
