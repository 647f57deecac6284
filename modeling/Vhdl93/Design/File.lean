import Vhdl93.Design.Layout
import Vhdl93.Store.Basic
import Vhdl93.Store.Event

set_option autoImplicit false

namespace Vhdl93

namespace Design

def header : String := "-- Automatically generated by vhdl_gen. Do not edit."

def fileText (rendered : String) : String :=
  header ++ "\n" ++ if rendered.isEmpty then "" else rendered ++ "\n"

def write (d : Design) (config : Config) (path : String) (store : Store) :
    Except AccessError Store × List Event :=
  let rendered := d.render config
  let start := Event.writing d.units.length path
  match store.create (Path.ofText path) (fileText rendered).toUTF8 with
  -- The first event is there even if the file cannot be made.
  | .error e => (.error e, [start])
  | .ok store => (.ok store, [start, .wrote rendered.utf8ByteSize path])

end Design

end Vhdl93
