set_option autoImplicit false

namespace Vhdl93.Toml

def isBlank (c : Char) : Bool := c = ' ' || c = '\t'

def isPlain (c : Char) : Bool := c = '\t' || (' ' ≤ c && c ≠ '\x7f')

def lineBreak? : List Char → Option (List Char)
  | '\n' :: rest => some rest
  | '\r' :: '\n' :: rest => some rest
  | _ => none

def skipBreaks : List Char → List Char
  | ' ' :: rest => skipBreaks rest
  | '\t' :: rest => skipBreaks rest
  | '\n' :: rest => skipBreaks rest
  | '\r' :: '\n' :: rest => skipBreaks rest
  | cs => cs

def isHexDigit (c : Char) : Bool :=
  c.isDigit || ('a' ≤ c && c ≤ 'f') || ('A' ≤ c && c ≤ 'F')

def digitValue (c : Char) : Nat :=
  if c.isDigit then c.toNat - '0'.toNat
  else if 'a' ≤ c then c.toNat - 'a'.toNat + 10
  else c.toNat - 'A'.toNat + 10

def numeral (base : Nat) (digits : List Char) : Nat :=
  digits.foldl (fun n c => base * n + digitValue c) 0

def scalarValue? (digits : List Char) : Option Char :=
  let n := numeral 16 digits
  if digits.all isHexDigit && n.isValidChar then some (Char.ofNat n) else none

def hexEscape? (width : Nat) (cs : List Char) : Option (Char × List Char) :=
  if cs.length < width then none
  else (scalarValue? (cs.take width)).map fun c => (c, cs.drop width)

def escape? : List Char → Option (Char × List Char)
  | 'b' :: rest => some ('\x08', rest)
  | 't' :: rest => some ('\t', rest)
  | 'n' :: rest => some ('\n', rest)
  | 'f' :: rest => some ('\x0c', rest)
  | 'r' :: rest => some ('\r', rest)
  | 'e' :: rest => some ('\x1b', rest)
  | '"' :: rest => some ('"', rest)
  | '\\' :: rest => some ('\\', rest)
  | 'x' :: rest => hexEscape? 2 rest
  | 'u' :: rest => hexEscape? 4 rest
  | 'U' :: rest => hexEscape? 8 rest
  | _ => none

/-- One step through a string: the text it adds, what is left, and whether the string ends. -/
structure Bite where
  text : List Char
  rest : List Char
  last : Bool

def plainBite? : List Char → Option Bite
  | c :: rest => if isPlain c then some ⟨[c], rest, false⟩ else none
  | [] => none

def basicBite? : List Char → Option Bite
  | '"' :: rest => some ⟨[], rest, true⟩
  | '\\' :: rest => (escape? rest).map fun (c, rest) => ⟨[c], rest, false⟩
  | cs => plainBite? cs

def literalBite? : List Char → Option Bite
  | '\x27' :: rest => some ⟨[], rest, true⟩
  | cs => plainBite? cs

def lineBite? (cs : List Char) : Option Bite :=
  match lineBreak? cs with
  | some rest => some ⟨['\n'], rest, false⟩
  | none => plainBite? cs

def closingBite? (quote : Char) : List Char → Option Bite
  | a :: b :: c :: d :: e :: rest =>
      if [a, b, c, d, e].all (· = quote) then some ⟨[quote, quote], rest, true⟩
      else if [a, b, c, d].all (· = quote) then some ⟨[quote], e :: rest, true⟩
      else if [a, b, c].all (· = quote) then some ⟨[], d :: e :: rest, true⟩
      else none
  | [a, b, c, d] =>
      if [a, b, c, d].all (· = quote) then some ⟨[quote], [], true⟩
      else if [a, b, c].all (· = quote) then some ⟨[], [d], true⟩
      else none
  | [a, b, c] => if [a, b, c].all (· = quote) then some ⟨[], [], true⟩ else none
  | _ => none

def folded? (cs : List Char) : Option (List Char) :=
  (lineBreak? (cs.dropWhile isBlank)).map skipBreaks

def openBasicBite? (cs : List Char) : Option Bite :=
  (closingBite? '"' cs).or <|
    match cs with
    | '\\' :: rest =>
        match folded? rest with
        | some rest => some ⟨[], rest, false⟩
        | none => (escape? rest).map fun (c, rest) => ⟨[c], rest, false⟩
    | cs => lineBite? cs

def openLiteralBite? (cs : List Char) : Option Bite :=
  (closingBite? '\x27' cs).or (lineBite? cs)

/-- Takes bites until the last one; `taken` has the text of the earlier ones, from the end. -/
def collect (bite? : List Char → Option Bite) :
    Nat → List Char → List Char → Option (List Char × List Char)
  | 0, _, _ => none
  | fuel + 1, taken, cs =>
      match bite? cs with
      | none => none
      | some bite =>
          let taken := bite.text.reverseAux taken
          if bite.last then some (taken.reverse, bite.rest) else collect bite? fuel taken bite.rest

def quotedBy (bite? : List Char → Option Bite) (cs : List Char) : Option (String × List Char) :=
  (collect bite? (cs.length + 1) [] cs).map fun (text, rest) => (String.ofList text, rest)

def trimBreak (cs : List Char) : List Char := (lineBreak? cs).getD cs

def quoted? : List Char → Option (String × List Char)
  | '"' :: '"' :: '"' :: rest => quotedBy openBasicBite? (trimBreak rest)
  | '\x27' :: '\x27' :: '\x27' :: rest => quotedBy openLiteralBite? (trimBreak rest)
  | '"' :: rest => quotedBy basicBite? rest
  | '\x27' :: rest => quotedBy literalBite? rest
  | _ => none

def quotedKey? : List Char → Option (String × List Char)
  | '"' :: '"' :: '"' :: _ => none
  | '\x27' :: '\x27' :: '\x27' :: _ => none
  | cs => quoted? cs

end Vhdl93.Toml
