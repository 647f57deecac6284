import Vhdl93.Toml.Quoted

set_option autoImplicit false

namespace Vhdl93.Toml

inductive Scalar where
  | string (text : String)
  | integer (value : Int)
  /-- The number `digits * 10 ^ exponent`. -/
  | float (digits : Int) (exponent : Int)
  | special (spelling : String)
  | boolean (value : Bool)
  | moment (spelling : String)
  deriving DecidableEq

def digits? (isDigit : Char → Bool) : List Char → Option (List Char)
  | [] => none
  | [c] => if isDigit c then some [c] else none
  | c :: '_' :: rest => if isDigit c then (digits? isDigit rest).map (c :: ·) else none
  | c :: rest => if isDigit c then (digits? isDigit rest).map (c :: ·) else none

def decimal? (cs : List Char) : Option (List Char) :=
  match digits? Char.isDigit cs with
  | some ('0' :: _ :: _) => none
  | ds => ds

def radix? (base : Nat) (isDigit : Char → Bool) (cs : List Char) : Option Int :=
  (digits? isDigit cs).map fun ds => numeral base ds

def splitSign : List Char → Bool × List Char
  | '-' :: rest => (true, rest)
  | '+' :: rest => (false, rest)
  | cs => (false, cs)

def signed (minus : Bool) (n : Nat) : Int := if minus then -n else n

def integer? : List Char → Option Int
  | '0' :: 'x' :: rest => radix? 16 isHexDigit rest
  | '0' :: 'o' :: rest => radix? 8 (fun c => '0' ≤ c && c ≤ '7') rest
  | '0' :: 'b' :: rest => radix? 2 (fun c => c = '0' || c = '1') rest
  | cs =>
      let (minus, rest) := splitSign cs
      (decimal? rest).map fun ds => signed minus (numeral 10 ds)

def fractionDigits? : List Char → Option (List Char)
  | [] => some []
  | '.' :: rest => digits? Char.isDigit rest
  | _ => none

def exponentOf? : List Char → Option Int
  | [] => some 0
  | _ :: rest =>
      let (minus, rest) := splitSign rest
      (digits? Char.isDigit rest).map fun ds => signed minus (numeral 10 ds)

def isExponentMark (c : Char) : Bool := c = 'e' || c = 'E'

def decimalFloat? (cs : List Char) : Option Scalar := do
  let (minus, body) := splitSign cs
  let mantissa := body.takeWhile fun c => !isExponentMark c
  let mark := body.dropWhile fun c => !isExponentMark c
  let point := mantissa.dropWhile (· ≠ '.')
  let whole ← decimal? (mantissa.takeWhile (· ≠ '.'))
  let fraction ← fractionDigits? point
  let exponent ← exponentOf? mark
  if mark.isEmpty && point.isEmpty then none
  else some (.float (signed minus (numeral 10 (whole ++ fraction))) (exponent - fraction.length))

def float? (cs : List Char) : Option Scalar :=
  let body := (splitSign cs).2
  if body = "inf".toList || body = "nan".toList then some (.special (String.ofList cs))
  else decimalFloat? cs

def isLeapYear (year : Nat) : Bool := year % 4 = 0 && (year % 100 ≠ 0 || year % 400 = 0)

def daysInMonth (year month : Nat) : Nat :=
  if month = 2 then if isLeapYear year then 29 else 28
  else if month = 4 || month = 6 || month = 9 || month = 11 then 30
  else 31

def isPairUpTo (limit : Nat) (a b : Char) : Bool :=
  a.isDigit && b.isDigit && numeral 10 [a, b] ≤ limit

def isDate : List Char → Bool
  | [y, y', y'', y''', '-', m, m', '-', d, d'] =>
      let year := numeral 10 [y, y', y'', y''']
      let month := numeral 10 [m, m']
      let day := numeral 10 [d, d']
      [y, y', y'', y''', m, m', d, d'].all Char.isDigit &&
        1 ≤ month && month ≤ 12 && 1 ≤ day && day ≤ daysInMonth year month
  | _ => false

def isSeconds : List Char → Bool
  | [] => true
  | [':', s, s'] => isPairUpTo 60 s s'
  | ':' :: s :: s' :: '.' :: fraction =>
      isPairUpTo 60 s s' && !fraction.isEmpty && fraction.all Char.isDigit
  | _ => false

def isTime : List Char → Bool
  | h :: h' :: ':' :: m :: m' :: rest => isPairUpTo 23 h h' && isPairUpTo 59 m m' && isSeconds rest
  | _ => false

def isOffset : List Char → Bool
  | [] => true
  | ['Z'] => true
  | ['z'] => true
  | [sign, h, h', ':', m, m'] =>
      (sign = '+' || sign = '-') && isPairUpTo 23 h h' && isPairUpTo 59 m m'
  | _ => false

def isOffsetMark (c : Char) : Bool := c = 'Z' || c = 'z' || c = '+' || c = '-'

def isMoment (cs : List Char) : Bool :=
  if cs.length ≤ 10 && isDate cs then true
  else if isTime cs then true
  else
    match cs.drop 10 with
    | mark :: clock =>
        (mark = 'T' || mark = 't' || mark = ' ') && isDate (cs.take 10) &&
          isTime (clock.takeWhile fun c => !isOffsetMark c) &&
          isOffset (clock.dropWhile fun c => !isOffsetMark c)
    | [] => false

def wordScalar? (word : List Char) : Option Scalar :=
  if word = "true".toList then some (.boolean true)
  else if word = "false".toList then some (.boolean false)
  else
    ((integer? word).map .integer).or <| (float? word).or <|
      if isMoment word then some (.moment (String.ofList word)) else none

def isWordChar (c : Char) : Bool :=
  c.isAlphanum || c = '+' || c = '-' || c = '.' || c = '_' || c = ':'

def takeWord (cs : List Char) : List Char × List Char :=
  let word := cs.takeWhile isWordChar
  let rest := cs.dropWhile isWordChar
  match rest with
  | ' ' :: c :: tail =>
      if isDate word && c.isDigit then
        (word ++ ' ' :: (c :: tail).takeWhile isWordChar, (c :: tail).dropWhile isWordChar)
      else (word, rest)
  | _ => (word, rest)

def scalar? (cs : List Char) : Option (Scalar × List Char) :=
  match quoted? cs with
  | some (text, rest) => some (.string text, rest)
  | none =>
      let (word, rest) := takeWord cs
      (wordScalar? word).map fun s => (s, rest)

end Vhdl93.Toml
