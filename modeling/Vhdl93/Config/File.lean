import Vhdl93.Config.Reading
import Vhdl93.Store.Basic
import Vhdl93.Store.Event

set_option autoImplicit false

namespace Vhdl93

inductive LoadError where
  | access (error : AccessError)
  | notText
  | rejected (error : ConfigError)
  deriving DecidableEq

namespace Config

def readBytes (bytes : ByteArray) : Except LoadError Config :=
  match String.fromUTF8? bytes with
  | none => .error .notText
  | some text => (parse text).mapError .rejected

def load (path : String) (store : Store) : Except LoadError Config × List Event :=
  match (store.read (Path.ofText path)).mapError .access >>= readBytes with
  | .error e => (.error e, [])
  | .ok config => (.ok config, [.loaded path])

end Config

end Vhdl93
