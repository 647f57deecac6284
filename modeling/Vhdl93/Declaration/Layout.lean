import Vhdl93.Declaration.Basic
import Vhdl93.Layout.Doc

set_option autoImplicit false

namespace Vhdl93

def ObjectDecl.doc (kind : ObjectClass) (d : ObjectDecl) : Doc :=
  .text (kind.text ++ " " ++ d.name.render ++ " : " ++ d.subtype.text ++
    (d.value.map fun e => " := " ++ e.text).getD "" ++ ";")

def EnumLiteral.text : EnumLiteral → String
  | .ident i => i.render
  | .character c => (Token.character c).text

def FieldDecl.text (f : FieldDecl) : String := f.name.render ++ " : " ++ f.mark.render

def TypeDef.doc (head : String) : TypeDef → Doc
  | .enumeration ls => .list (head ++ "(") (ls.map EnumLiteral.text) ");"
  | .integer r => .text (head ++ "range " ++ r.text ++ ";")
  | .unconstrainedArray is element =>
      .text (head ++ "array (" ++ ", ".intercalate (is.map fun i => i.render ++ " range <>") ++
        ") of " ++ element.render ++ ";")
  | .constrainedArray rs element =>
      .text (head ++ "array " ++ (Range.indexPieces rs).text ++ " of " ++ element.render ++ ";")
  | .record fs => .block (head ++ "record") (fs.map fun f => .text (f.text ++ ";")) "end record;"

def TypeDecl.doc (d : TypeDecl) : Doc := d.definition.doc ("type " ++ d.name.render ++ " is ")

def SubtypeDecl.doc (d : SubtypeDecl) : Doc :=
  .text ("subtype " ++ d.name.render ++ " is " ++ d.subtype.text ++ ";")

def PackageItem.doc : PackageItem → Doc
  | .typeDecl d => d.doc
  | .subtypeDecl d => d.doc
  | .constantDecl d => d.doc .constant
  | .subprogramDecl s => .text (s.text ++ ";")

end Vhdl93
