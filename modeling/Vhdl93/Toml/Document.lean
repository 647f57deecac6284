import Vhdl93.Toml.Table

set_option autoImplicit false

namespace Vhdl93.Toml

def depthLimit : Nat := 80

mutual

def skipSpace? : List Char → Option (List Char)
  | '\r' :: '\n' :: rest => skipSpace? rest
  | '#' :: rest => skipComment? rest
  | c :: rest => if c = '\n' || isBlank c then skipSpace? rest else some (c :: rest)
  | [] => some []

def skipComment? : List Char → Option (List Char)
  | '\r' :: '\n' :: rest => skipSpace? rest
  | c :: rest =>
      if c = '\n' then skipSpace? rest
      else if isPlain c then skipComment? rest
      else none
  | [] => some []

end

def skipBlanks (cs : List Char) : List Char := cs.dropWhile isBlank

def isBareKeyChar (c : Char) : Bool := c.isAlphanum || c = '_' || c = '-'

def key? (cs : List Char) : Option (String × List Char) :=
  match cs.takeWhile isBareKeyChar with
  | [] => quotedKey? cs
  | word => some (String.ofList word, cs.dropWhile isBareKeyChar)

def keyPath? : Nat → List Char → Option (List String × List Char)
  | 0, _ => none
  | fuel + 1, cs => do
      let (key, rest) ← key? (skipBlanks cs)
      match skipBlanks rest with
      | '.' :: rest =>
          let (path, rest) ← keyPath? fuel rest
          return (key :: path, rest)
      | rest => return ([key], rest)

def pair? (skip? : List Char → Option (List Char))
    (value? : List Char → Option (Value × List Char)) (cs : List Char) :
    Option (List String × Value × List Char) := do
  let (path, rest) ← keyPath? depthLimit cs
  match ← skip? rest with
  | '=' :: rest =>
      let (value, rest) ← value? (← skip? rest)
      return (path, value, rest)
  | _ => none

def arrayItems? (value? : List Char → Option (Value × List Char)) :
    Nat → List Char → Option (List Value × List Char)
  | 0, _ => none
  | fuel + 1, cs => do
      match ← skipSpace? cs with
      | ']' :: rest => return ([], rest)
      | cs =>
          let (value, rest) ← value? cs
          match ← skipSpace? rest with
          | ',' :: rest =>
              let (values, rest) ← arrayItems? value? fuel rest
              return (value :: values, rest)
          | ']' :: rest => return ([value], rest)
          | _ => none

def tablePairs? (value? : List Char → Option (Value × List Char)) :
    Nat → Entries → List Char → Option (Entries × List Char)
  | 0, _, _ => none
  | fuel + 1, es, cs => do
      match ← skipSpace? cs with
      | '}' :: rest => return (es, rest)
      | cs =>
          let (path, value, rest) ← pair? skipSpace? value? cs
          let es ← es.assign value path
          match ← skipSpace? rest with
          | ',' :: rest => tablePairs? value? fuel es rest
          | '}' :: rest => return (es, rest)
          | _ => none

def value? : Nat → List Char → Option (Value × List Char)
  | depth + 1, '[' :: rest => do
      let (values, rest) ← arrayItems? (value? depth) (rest.length + 1) rest
      return (.array values, rest)
  | depth + 1, '{' :: rest => do
      let (es, rest) ← tablePairs? (value? depth) (rest.length + 1) [] rest
      return (.table .braces es, rest)
  | _, cs => (scalar? cs).map fun (s, rest) => (.scalar s, rest)

inductive Item where
  | pair (path : List String) (value : Value)
  | header (path : List String)
  | nextHeader (path : List String)

def item? : List Char → Option (Item × List Char)
  | '[' :: '[' :: rest => do
      let (path, rest) ← keyPath? depthLimit rest
      match rest with
      | ']' :: ']' :: rest => return (.nextHeader path, rest)
      | _ => none
  | '[' :: rest => do
      let (path, rest) ← keyPath? depthLimit rest
      match rest with
      | ']' :: rest => return (.header path, rest)
      | _ => none
  | cs => do
      let (path, value, rest) ← pair? (some <| skipBlanks ·) (value? depthLimit) cs
      return (.pair path value, rest)

def lineEnds (cs : List Char) : Bool :=
  match skipBlanks cs with
  | [] => true
  | '#' :: _ => true
  | cs => (lineBreak? cs).isSome

def items? : Nat → List Char → Option (List Item)
  | 0, _ => none
  | fuel + 1, cs => do
      match ← skipSpace? cs with
      | [] => return []
      | cs =>
          let (item, rest) ← item? cs
          if lineEnds rest then
            let items ← items? fuel rest
            return item :: items
          else none

structure Draft where
  entries : Entries := []
  path : List String := []

def Draft.add (d : Draft) : Item → Option Draft
  | .pair path value => do
      let entries ←
        if d.path.isEmpty then d.entries.assign value path
        else d.entries.alter (Entries.assignIn path value) d.path
      return { d with entries }
  | .header path => do
      let entries ← d.entries.alter Entries.openTable path
      return { entries, path }
  | .nextHeader path => do
      let entries ← d.entries.alter Entries.openNext path
      return { entries, path }

def skipMark : List Char → List Char
  | '\uFEFF' :: rest => rest
  | cs => cs

def parse? (text : String) : Option Entries := do
  let cs := skipMark text.toList
  let items ← items? (cs.length + 1) cs
  let draft ← items.foldlM Draft.add {}
  return draft.entries

end Vhdl93.Toml
