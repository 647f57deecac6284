import Vhdl93.Token

set_option autoImplicit false

/-!
A lexer of maximal munch for the whole text of a design. White space and comments are lexemes too,
so that nothing of the text is lost; what the lexer cannot read is a stray character.
-/

namespace Vhdl93.Lexer

inductive Lexeme where
  | white (text : String)
  | comment (text : String)
  | ident (ident : Ident)
  | keyword (word : String)
  | delimiter (text : String)
  | number (text : String)
  | character (value : Char)
  | string (text : String)
  | bitString (base : Base) (digits : String)
  | stray (c : Char)
  deriving DecidableEq

structure Rules where
  -- What may stand in a literal or in an extended identifier.
  graphic : Char → Bool
  bit : Char → Bool
  -- Whether a reserved word behind a tick may have an attribute of its own.
  chained : Bool
  graphic_ascii : ∀ c, Ident.isGraphic c = true → graphic c = true
  bit_mark : bit '"' = false

/-- What the last lexeme lets a tick be: an attribute has to follow a value. -/
inductive Before where
  | start | value | tick
  deriving DecidableEq

def isWhite (c : Char) : Bool := c ∈ [' ', '\xa0', '\t', '\n', '\x0b', '\x0c', '\r']

def isLetter (c : Char) : Bool :=
  c.isAlpha || 0xc0 ≤ c.toNat && c.toNat ≤ 0xff && c.toNat != 0xd7 && c.toNat != 0xf7

def isWordChar (c : Char) : Bool := isLetter c || c.isDigit || c = '_'

def isNumeral (c : Char) : Bool := c.isDigit || c = '_'

def compounds : List (List Char) :=
  [['=', '>'], ['*', '*'], [':', '='], ['/', '='], ['>', '='], ['<', '='], ['<', '>']]

def singles : List Char :=
  ['&', '\x27', '(', ')', '*', '+', ',', '-', '.', '/', ':', ';', '<', '=', '>', '|', '[', ']']

def isDelimiter (text : List Char) : Bool := text ∈ compounds || text ∈ singles.map fun c => [c]

namespace Lexeme

def after (rules : Rules) (before : Before) : Lexeme → Before
  | .white _ | .comment _ => before
  | .ident _ => .value
  | .keyword word =>
      if word.toLower = "all" || rules.chained && before = .tick then .value else .start
  | .delimiter d => if d = ")" then .value else if d = "'" then .tick else .start
  | _ => .start

def text : Lexeme → String
  | .white text | .comment text | .number text => text
  | .ident i => i.render
  | .keyword word => word
  | .delimiter d => d
  | .character c => (Token.character c).text
  | .string s => (Token.string s).text
  | .bitString base digits => (Token.bitString base digits).text
  | .stray c => String.ofList [c]

def stopsAt : Lexeme → Char → Bool
  | .white _, c => !isWhite c
  | .ident (.extended _), c => c ≠ '\\'
  | .ident (.basic _), c | .keyword _, c => !isWordChar c && c ≠ '"'
  | .delimiter d, c => d.toList ++ [c] ∉ ['-', '-'] :: compounds
  | .number _, c => !isWordChar c && c ≠ '.' && c ≠ '#'
  | .string _, c => c ≠ '"'
  | _, _ => true

end Lexeme

def readEnclosed (mark : Char) : List Char → Option (List Char)
  | [] => none
  | [c] => if c = mark then some [] else none
  | c :: d :: rest =>
      if c ≠ mark then (readEnclosed mark (d :: rest)).map (c :: ·)
      else if d = mark then (readEnclosed mark rest).map (mark :: ·)
      else some []

def readFraction : List Char → List Char
  | '.' :: d :: rest => if d.isDigit then '.' :: d :: rest.takeWhile isNumeral else []
  | _ => []

def readBased : List Char → List Char
  | '#' :: rest =>
      let digits := rest.takeWhile fun c => isWordChar c || c = '.'
      if (rest.drop digits.length).head? = some '#' then '#' :: digits ++ ['#'] else []
  | _ => []

def readExponent : List Char → List Char
  | e :: c :: rest =>
      if (e = 'e' || e = 'E') && (c.isDigit || (c = '+' || c = '-') && rest.head?.any Char.isDigit) then
        e :: c :: rest.takeWhile isNumeral
      else []
  | _ => []

def readNumber (cs : List Char) : List Char :=
  let rest := cs.dropWhile isNumeral
  let middle := readBased rest ++ readFraction rest
  cs.takeWhile isNumeral ++ middle ++ readExponent (rest.drop middle.length)

def readDelimiter : List Char → Lexeme
  | [] => .stray ' '
  | c :: rest =>
      if c :: rest.take 1 ∈ compounds then .delimiter (String.ofList (c :: rest.take 1))
      else if c ∈ singles then .delimiter (String.ofList [c])
      else .stray c

def base? (word : List Char) : Option Base :=
  if word = ['B'] || word = ['b'] then some .binary
  else if word = ['O'] || word = ['o'] then some .octal
  else if word = ['X'] || word = ['x'] then some .hexadecimal
  else none

def readBits (rules : Rules) (word rest : List Char) : Option Lexeme :=
  match base? word, rest with
  | some base, '"' :: rest =>
      let digits := rest.takeWhile (· ≠ '"')
      if (rest.drop digits.length).head? = some '"' && digits.all rules.bit then
        some (.bitString base (String.ofList digits))
      else none
  | _, _ => none

def readWord (word : List Char) : Lexeme :=
  if isReserved (String.ofList word) then .keyword (String.ofList word)
  else .ident (.basic (String.ofList word))

def next (rules : Rules) (before : Before) (c : Char) (cs : List Char) : Lexeme :=
  if isWhite c then .white (String.ofList (c :: cs.takeWhile isWhite))
  else if isLetter c then
    let word := c :: cs.takeWhile isWordChar
    (readBits rules word (cs.dropWhile isWordChar)).getD (readWord word)
  else if c.isDigit then .number (String.ofList (readNumber (c :: cs)))
  else if c = '"' then
    match readEnclosed '"' cs with
    | some content =>
      if content.all rules.graphic then .string (String.ofList content) else .stray c
    | none => .stray c
  else if c = '\\' then
    match readEnclosed '\\' cs with
    | some content =>
        if content ≠ [] && content.all rules.graphic then .ident (.extended (String.ofList content))
        else .stray c
    | none => .stray c
  else if c = '\x27' && before ≠ .value then
    match cs with
    | d :: '\x27' :: _ => if rules.graphic d then .character d else .stray c
    | _ => .stray c
  else if c = '-' && cs.head? = some '-' then
    .comment (String.ofList (c :: cs.takeWhile (· ≠ '\n')))
  else readDelimiter (c :: cs)

def lex (rules : Rules) (before : Before) : List Char → List Lexeme
  | [] => []
  | c :: cs =>
      let lexeme := next rules before c cs
      lexeme :: lex rules (lexeme.after rules before) (cs.drop (lexeme.text.length - 1))
  termination_by cs => cs.length
  decreasing_by
    simp only [List.length_drop, List.length_cons]
    omega

end Vhdl93.Lexer
