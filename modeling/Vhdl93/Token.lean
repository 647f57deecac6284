import Vhdl93.Ident
import Vhdl93.Literal
import Vhdl93.Operator

set_option autoImplicit false

/-!
Tokens and their spelling. Inline text is a list of pieces, each a token or a blank: the blanks fix
the text, and leaving them out gives the tokens.
-/

namespace Vhdl93

inductive Symbol where
  | leftParen | rightParen | comma | dot | tick | arrow
  | equal | notEqual | less | lessEqual | greater | greaterEqual
  | plus | minus | ampersand | star | slash | doubleStar
  deriving DecidableEq

def Symbol.text : Symbol → String
  | .leftParen => "("
  | .rightParen => ")"
  | .comma => ","
  | .dot => "."
  | .tick => "'"
  | .arrow => "=>"
  | .equal => "="
  | .notEqual => "/="
  | .less => "<"
  | .lessEqual => "<="
  | .greater => ">"
  | .greaterEqual => ">="
  | .plus => "+"
  | .minus => "-"
  | .ampersand => "&"
  | .star => "*"
  | .slash => "/"
  | .doubleStar => "**"

/-- A real token has no sign: the minus of a negative real is a token of its own. -/
inductive Token where
  | ident (ident : Ident)
  | keyword (word : String)
  | symbol (symbol : Symbol)
  | integer (value : Nat)
  | real (magnitude : Binary64)
  | character (value : Char)
  | string (text : String)
  | bitString (base : Base) (digits : String)
  deriving DecidableEq

namespace Token

def text : Token → String
  | .ident i => i.render
  | .keyword word => word
  | .symbol s => s.text
  | .integer n => n.repr
  | .real x => x.magnitudeText
  | .character c => String.ofList ['\x27', c, '\x27']
  | .string s => Text.enclosed '"' s
  | .bitString base digits => base.text ++ "\"" ++ digits ++ "\""

end Token

inductive Piece where
  | token (token : Token)
  | blank
  deriving DecidableEq

namespace Piece

def text : Piece → String
  | .token t => t.text
  | .blank => " "

def token? : Piece → Option Token
  | .token t => some t
  | .blank => none

def ident (i : Ident) : Piece := .token (.ident i)

def keyword (word : String) : Piece := .token (.keyword word)

def symbol (s : Symbol) : Piece := .token (.symbol s)

end Piece

abbrev Pieces := List Piece

namespace Pieces

def text (ps : Pieces) : String := String.join (ps.map Piece.text)

def tokens (ps : Pieces) : List Token := ps.filterMap Piece.token?

@[simp] theorem tokens_append (ps qs : Pieces) : tokens (ps ++ qs) = tokens ps ++ tokens qs := by
  simp [tokens]

def commaSeparated : List Pieces → Pieces
  | [] => []
  | [item] => item
  | item :: rest => item ++ .symbol .comma :: .blank :: commaSeparated rest

def parenthesized (ps : Pieces) : Pieces := .symbol .leftParen :: ps ++ [.symbol .rightParen]

end Pieces

def BinaryOp.token : BinaryOp → Token
  | .and => .keyword "and"
  | .or => .keyword "or"
  | .nand => .keyword "nand"
  | .nor => .keyword "nor"
  | .xor => .keyword "xor"
  | .xnor => .keyword "xnor"
  | .equal => .symbol .equal
  | .notEqual => .symbol .notEqual
  | .less => .symbol .less
  | .lessEqual => .symbol .lessEqual
  | .greater => .symbol .greater
  | .greaterEqual => .symbol .greaterEqual
  | .sll => .keyword "sll"
  | .srl => .keyword "srl"
  | .sla => .keyword "sla"
  | .sra => .keyword "sra"
  | .rol => .keyword "rol"
  | .ror => .keyword "ror"
  | .plus => .symbol .plus
  | .minus => .symbol .minus
  | .concat => .symbol .ampersand
  | .times => .symbol .star
  | .divide => .symbol .slash
  | .mod => .keyword "mod"
  | .rem => .keyword "rem"
  | .power => .symbol .doubleStar

def UnaryOp.token : UnaryOp → Token
  | .plus => .symbol .plus
  | .minus => .symbol .minus
  | .abs => .keyword "abs"
  | .not => .keyword "not"

def UnaryOp.pieces : UnaryOp → Pieces
  | .plus => [.symbol .plus]
  | .minus => [.symbol .minus]
  | .abs => [.keyword "abs", .blank]
  | .not => [.keyword "not", .blank]

def Literal.pieces : Literal → Pieces
  | .integer n => [.token (.integer n)]
  | .real x =>
      if x.negative && !x.isNaN then [.symbol .minus, .token (.real x.magnitude)]
      else [.token (.real x)]
  | .character c => [.token (.character c)]
  | .string s => [.token (.string s)]
  | .bitString base digits => [.token (.bitString base digits)]
  | .null => [.keyword "null"]

end Vhdl93
