import Vhdl93.Concurrent.Layout
import Vhdl93.Design.Basic

set_option autoImplicit false

namespace Vhdl93

def ContextItem.text : ContextItem → String
  | .library i => "library " ++ i.render ++ ";"
  | .use n s => "use " ++ n.text ++ "." ++ s.text ++ ";"

def ContextItem.clauseDoc (items : List ContextItem) : Doc :=
  .joined (items.map fun item => .text item.text)

def Entity.doc (u : Entity) : Doc :=
  .block ("entity " ++ u.name.render ++ " is")
    (if u.ports.isEmpty then [] else [Port.clauseDoc u.ports]) "end entity;"

def Architecture.doc (u : Architecture) : Doc :=
  .region ("architecture " ++ u.name.render ++ " of " ++ u.entity.render ++ " is")
    (u.items.map BlockItem.doc) (u.body.map Concurrent.doc) "end architecture;"

def Package.doc (u : Package) : Doc :=
  .block ("package " ++ u.name.render ++ " is") (u.items.map PackageItem.doc) "end package;"

def PackageBody.doc (u : PackageBody) : Doc :=
  .block ("package body " ++ u.name.render ++ " is") (u.items.map PackageBodyItem.doc)
    "end package body;"

def LibraryUnit.doc : LibraryUnit → Doc
  | .entity u => u.doc
  | .architecture u => u.doc
  | .package u => u.doc
  | .packageBody u => u.doc

def LibraryUnit.docIn (context : List ContextItem) (u : LibraryUnit) : Doc :=
  if context.isEmpty then u.doc else ContextItem.clauseDoc context ++ .line ++ u.doc

def Design.doc (d : Design) : Doc :=
  match d.units with
  | [] => ContextItem.clauseDoc d.context
  | first :: rest =>
      -- The first break ends the unit before it and the second one the empty line.
      first.docIn d.context ++
        .concat (rest.map fun u => .text "\n" ++ .line ++ u.docIn d.context)

def Design.render (d : Design) (config : Config) : String := d.doc.render config 0 0

end Vhdl93
