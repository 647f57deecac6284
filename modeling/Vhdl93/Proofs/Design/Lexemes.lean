import Vhdl93.Design.Basic
import Vhdl93.Proofs.Lexer.Cutting

set_option autoImplicit false

namespace Vhdl93

open Lexer

namespace Lexer

def lines (items : List (List Lexeme)) : List Lexeme := items.flatMap (.white " " :: ·)

@[simp] theorem lines_nil : lines [] = [] := rfl

@[simp] theorem lines_cons (item : List Lexeme) (items : List (List Lexeme)) :
    lines (item :: items) = .white " " :: (item ++ lines items) := by
  simp [lines]

@[simp] theorem lines_append (items more : List (List Lexeme)) :
    lines (items ++ more) = lines items ++ lines more := by
  simp [lines]

def ending : List String → List Lexeme
  | [] => [.delimiter ";"]
  | word :: rest => .white " " :: .keyword word :: ending rest

def block (head : List Lexeme) (body : List (List Lexeme)) (closing : List String) : List Lexeme :=
  head ++ (lines body ++ .white " " :: .keyword "end" :: ending closing)

def region (head : List Lexeme) (items body : List (List Lexeme)) (closing : List String) :
    List Lexeme :=
  head ++ (lines items ++ .white " " :: block [.keyword "begin"] body closing)

def enlisted (items : List (List Lexeme)) : List Lexeme :=
  .delimiter "(" :: (separated [.delimiter ",", .white " "] items ++ [.delimiter ")"])

end Lexer

def Port.lexemes (p : Port) : List Lexeme :=
  [.ident p.name, .white " ", .delimiter ":", .white " ", .keyword p.mode.text, .white " ",
    .ident p.mark]

def FunctionParameter.lexemes (p : FunctionParameter) : List Lexeme :=
  [.ident p.name, .white " ", .delimiter ":", .white " ", .ident p.mark]

def ProcedureParameter.lexemes (p : ProcedureParameter) : List Lexeme :=
  [.keyword p.kind.text, .white " ", .ident p.name, .white " ", .delimiter ":", .white " ",
    .keyword p.mode.text,
    .white " ", .ident p.mark]

def Spec.parameterLexemes (parameters : List (List Lexeme)) : List Lexeme :=
  .delimiter "(" :: (separated [.delimiter ";", .white " "] parameters ++ [.delimiter ")"])

def Spec.lexemes : Spec → List Lexeme
  | .function name ps result =>
      .keyword "function" :: .white " " :: .ident name ::
        ((if ps.isEmpty then [] else parameterLexemes (ps.map FunctionParameter.lexemes)) ++
          [.white " ", .keyword "return", .white " ", .ident result])
  | .procedure name ps =>
      .keyword "procedure" :: .white " " :: .ident name ::
        (if ps.isEmpty then [] else parameterLexemes (ps.map ProcedureParameter.lexemes))

def ObjectDecl.valueLexemes : Option Expr → List Lexeme
  | none => []
  | some e => .white " " :: .delimiter ":=" :: .white " " :: e.pieces.lexemes

def ObjectDecl.lexemes (kind : ObjectClass) (d : ObjectDecl) : List Lexeme :=
  .keyword kind.text :: .white " " :: .ident d.name :: .white " " :: .delimiter ":" :: .white " " ::
    (d.subtype.pieces.lexemes ++ (ObjectDecl.valueLexemes d.value ++ [.delimiter ";"]))

def EnumLiteral.lexeme : EnumLiteral → Lexeme
  | .ident i => .ident i
  | .character c => .character c

def FieldDecl.lexemes (f : FieldDecl) : List Lexeme :=
  [.ident f.name, .white " ", .delimiter ":", .white " ", .ident f.mark, .delimiter ";"]

def Ident.unboundedLexemes (i : Ident) : List Lexeme :=
  [.ident i, .white " ", .keyword "range", .white " ", .delimiter "<>"]

def TypeDef.arrayLexemes (indices : List (List Lexeme)) (element : Ident) : List Lexeme :=
  .keyword "array" :: .white " " ::
    (enlisted indices ++ [.white " ", .keyword "of", .white " ", .ident element, .delimiter ";"])

def TypeDef.lexemes : TypeDef → List Lexeme
  | .enumeration ls => enlisted (ls.map fun l => [l.lexeme]) ++ [.delimiter ";"]
  | .integer r => .keyword "range" :: .white " " :: (r.pieces.lexemes ++ [.delimiter ";"])
  | .unconstrainedArray is element => TypeDef.arrayLexemes (is.map Ident.unboundedLexemes) element
  | .constrainedArray rs element => TypeDef.arrayLexemes (rs.map fun r => r.pieces.lexemes) element
  | .record fs => block [.keyword "record"] (fs.map FieldDecl.lexemes) ["record"]

def TypeDecl.lexemes (d : TypeDecl) : List Lexeme :=
  .keyword "type" :: .white " " :: .ident d.name :: .white " " :: .keyword "is" :: .white " " ::
    d.definition.lexemes

def SubtypeDecl.lexemes (d : SubtypeDecl) : List Lexeme :=
  .keyword "subtype" :: .white " " :: .ident d.name :: .white " " :: .keyword "is" :: .white " " ::
    (d.subtype.pieces.lexemes ++ [.delimiter ";"])

mutual

def Sequential.lexemes : Sequential → List Lexeme
  | .conditional e body elsifs otherwise =>
      .keyword "if" :: .white " " :: (e.pieces.lexemes ++ .white " " :: .keyword "then" ::
        (lines (Sequential.lexemesAll body) ++ (lines (Branch.lexemesAll elsifs) ++
          (Sequential.elseLexemes otherwise ++ .white " " :: .keyword "end" :: ending ["if"]))))
  | .selection e as =>
      block (.keyword "case" :: .white " " :: (e.pieces.lexemes ++ [.white " ", .keyword "is"]))
        (Alternative.lexemesAll as) ["case"]
  | .ret none => [.keyword "return", .delimiter ";"]
  | .ret (some e) => .keyword "return" :: .white " " :: (e.pieces.lexemes ++ [.delimiter ";"])
  | .forLoop i r body =>
      block (.keyword "for" :: .white " " :: .ident i :: .white " " :: .keyword "in" :: .white " "
        :: (r.pieces.lexemes ++ [.white " ", .keyword "loop"])) (Sequential.lexemesAll body) ["loop"]
  | .assign n e =>
      n.pieces.lexemes ++ .white " " :: .delimiter ":=" :: .white " " ::
        (e.pieces.lexemes ++ [.delimiter ";"])
  | .wait e =>
      .keyword "wait" :: .white " " :: .keyword "for" :: .white " " ::
        (e.pieces.lexemes ++ [.delimiter ";"])
  | .drive n w =>
      n.pieces.lexemes ++ .white " " :: .delimiter "<=" :: .white " " ::
        (w.pieces.lexemes ++ [.delimiter ";"])
  | .call n as => (Expr.call n as).pieces.lexemes ++ [.delimiter ";"]
  | .null => [.keyword "null", .delimiter ";"]

def Branch.lexemes : Branch → List Lexeme
  | .mk e body =>
      .keyword "elsif" :: .white " " :: (e.pieces.lexemes ++ .white " " :: .keyword "then" ::
        lines (Sequential.lexemesAll body))

def Alternative.lexemes : Alternative → List Lexeme
  | .mk choices body =>
      .keyword "when" :: .white " " ::
        (separated [.white " ", .delimiter "|", .white " "] (choices.map fun c => c.pieces.lexemes)
          ++ .white " " :: .delimiter "=>" :: lines (Sequential.lexemesAll body))

def Sequential.elseLexemes : Option (List Sequential) → List Lexeme
  | none => []
  | some body => .white " " :: .keyword "else" :: lines (Sequential.lexemesAll body)

def Sequential.lexemesAll : List Sequential → List (List Lexeme)
  | [] => []
  | s :: ss => s.lexemes :: Sequential.lexemesAll ss

def Branch.lexemesAll : List Branch → List (List Lexeme)
  | [] => []
  | b :: bs => b.lexemes :: Branch.lexemesAll bs

def Alternative.lexemesAll : List Alternative → List (List Lexeme)
  | [] => []
  | a :: as => a.lexemes :: Alternative.lexemesAll as

end

@[simp] theorem Sequential.lexemesAll_eq_map (ss : List Sequential) :
    Sequential.lexemesAll ss = ss.map Sequential.lexemes := by
  induction ss with
  | nil => rfl
  | cons s ss ih => simp [Sequential.lexemesAll, ih]

@[simp] theorem Branch.lexemesAll_eq_map (bs : List Branch) :
    Branch.lexemesAll bs = bs.map Branch.lexemes := by
  induction bs with
  | nil => rfl
  | cons b bs ih => simp [Branch.lexemesAll, ih]

@[simp] theorem Alternative.lexemesAll_eq_map (as : List Alternative) :
    Alternative.lexemesAll as = as.map Alternative.lexemes := by
  induction as with
  | nil => rfl
  | cons a as ih => simp [Alternative.lexemesAll, ih]

def Spec.word : Spec → String
  | .function _ _ _ => "function"
  | .procedure _ _ => "procedure"

mutual

def SubprogramBody.lexemes : SubprogramBody → List Lexeme
  | .mk spec items body =>
      region (spec.lexemes ++ [.white " ", .keyword "is"]) (SubprogramItem.lexemesAll items)
        (body.map Sequential.lexemes) [spec.word]

def SubprogramItem.lexemes : SubprogramItem → List Lexeme
  | .variableDecl d => d.lexemes .variable
  | .constantDecl d => d.lexemes .constant
  | .subprogram b => b.lexemes

def SubprogramItem.lexemesAll : List SubprogramItem → List (List Lexeme)
  | [] => []
  | i :: is => i.lexemes :: SubprogramItem.lexemesAll is

end

inductive Declared where
  | object (kind : ObjectClass) (decl : ObjectDecl)
  | type (decl : TypeDecl)
  | subtype (decl : SubtypeDecl)
  | spec (spec : Spec)
  | body (body : SubprogramBody)

def Declared.lexemes : Declared → List Lexeme
  | .object kind d => d.lexemes kind
  | .type d => d.lexemes
  | .subtype d => d.lexemes
  | .spec s => s.lexemes ++ [.delimiter ";"]
  | .body b => b.lexemes

def PackageItem.declared : PackageItem → Declared
  | .typeDecl d => .type d
  | .subtypeDecl d => .subtype d
  | .constantDecl d => .object .constant d
  | .subprogramDecl s => .spec s

def SubprogramItem.declared : SubprogramItem → Declared
  | .variableDecl d => .object .variable d
  | .constantDecl d => .object .constant d
  | .subprogram b => .body b

def PackageBodyItem.declared : PackageBodyItem → Declared
  | .constantDecl d => .object .constant d
  | .subprogram b => .body b

def BlockItem.declared : BlockItem → Declared
  | .signalDecl d => .object .signal d
  | .constantDecl d => .object .constant d
  | .typeDecl d => .type d
  | .subtypeDecl d => .subtype d
  | .subprogram b => .body b

@[simp] theorem SubprogramItem.lexemesAll_eq_map (is : List SubprogramItem) :
    SubprogramItem.lexemesAll is = is.map fun i => i.declared.lexemes := by
  induction is with
  | nil => rfl
  | cons i is ih =>
    have first : i.lexemes = i.declared.lexemes := by
      cases i <;> simp [SubprogramItem.lexemes, SubprogramItem.declared, Declared.lexemes]
    simp [SubprogramItem.lexemesAll, first, ih]

def Port.clauseLexemes (ps : List Port) : List Lexeme :=
  .keyword "port" :: .white " " :: (Spec.parameterLexemes (ps.map Port.lexemes) ++ [.delimiter ";"])

def Association.mapLexemes (as : List Association) : List Lexeme :=
  .keyword "port" :: .white " " :: .keyword "map" :: .white " " ::
    (enlisted (as.map fun a => a.pieces.lexemes) ++ [.delimiter ";"])

def Process.sensitivityLexemes (is : List Ident) : List Lexeme :=
  if is.isEmpty then [] else .white " " :: enlisted (is.map fun i => [.ident i])

def Process.lexemes (p : Process) : List Lexeme :=
  region (.ident p.label :: .white " " :: .delimiter ":" :: .white " " :: .keyword "process" ::
    Process.sensitivityLexemes p.sensitivity) (p.items.map fun i => i.declared.lexemes)
      (p.body.map Sequential.lexemes)
    ["process"]

def Waveform.guardedLexemes (w : Waveform) (condition : Option Expr) : List Lexeme :=
  w.pieces.lexemes ++ match condition with
    | none => []
    | some e => .white " " :: .keyword "when" :: .white " " :: e.pieces.lexemes

def Assignment.parts (a : Assignment) : List (List Lexeme) :=
  a.conditionals.map (fun w => w.waveform.guardedLexemes (some w.condition)) ++
    [a.waveform.guardedLexemes a.condition]

def Assignment.lexemes (a : Assignment) : List Lexeme :=
  a.target.pieces.lexemes ++ .white " " :: .delimiter "<=" :: .white " " ::
    (separated [.white " ", .keyword "else", .white " "] a.parts ++ [.delimiter ";"])

def InstantiatedUnit.lexemes (u : InstantiatedUnit) : List Lexeme :=
  .keyword "entity" :: .white " " :: (u.entity.pieces.lexemes ++ match u.architecture with
    | none => []
    | some i => [.delimiter "(", .ident i, .delimiter ")"])

def Instance.lexemes (i : Instance) : List Lexeme :=
  .ident i.label :: .white " " :: .delimiter ":" :: .white " " ::
    (i.unit.lexemes ++ .white " " :: Association.mapLexemes i.portMap)

def Scheme.lexemes : Scheme → List Lexeme
  | .forRange i r =>
      .keyword "for" :: .white " " :: .ident i :: .white " " :: .keyword "in" :: .white " " ::
        r.pieces.lexemes
  | .ifCondition e => .keyword "if" :: .white " " :: e.pieces.lexemes

def Port.blockLexemes (ports : List Port) (portMap : List Association) : List (List Lexeme) :=
  if ports.isEmpty then [] else [Port.clauseLexemes ports, Association.mapLexemes portMap]

def BlockItem.generateLexemes (items : List BlockItem) : List Lexeme :=
  if items.isEmpty then []
  else lines (items.map fun i => i.declared.lexemes) ++ [.white " ", .keyword "begin"]

mutual

def Concurrent.lexemes : Concurrent → List Lexeme
  | .block label ports portMap items body =>
      region [.ident label, .white " ", .delimiter ":", .white " ", .keyword "block"]
        (Port.blockLexemes ports portMap ++ items.map fun i => i.declared.lexemes)
          (Concurrent.lexemesAll body) ["block"]
  | .process p => p.lexemes
  | .assign a => a.lexemes
  | .instantiate i => i.lexemes
  | .generate label scheme items body =>
      .ident label :: .white " " :: .delimiter ":" :: .white " " ::
        (scheme.lexemes ++ .white " " :: .keyword "generate" :: (BlockItem.generateLexemes items ++
          (lines (Concurrent.lexemesAll body) ++ .white " " :: .keyword "end" ::
            ending ["generate"])))

def Concurrent.lexemesAll : List Concurrent → List (List Lexeme)
  | [] => []
  | s :: ss => s.lexemes :: Concurrent.lexemesAll ss

end

@[simp] theorem Concurrent.lexemesAll_eq_map (ss : List Concurrent) :
    Concurrent.lexemesAll ss = ss.map Concurrent.lexemes := by
  induction ss with
  | nil => rfl
  | cons s ss ih => simp [Concurrent.lexemesAll, ih]

def ContextItem.lexemes : ContextItem → List Lexeme
  | .library i => [.keyword "library", .white " ", .ident i, .delimiter ";"]
  | .use n s =>
      .keyword "use" :: .white " " ::
        (n.pieces.lexemes ++ .delimiter "." :: (s.pieces.lexemes ++ [.delimiter ";"]))

def LibraryUnit.lexemes : LibraryUnit → List Lexeme
  | .entity u =>
      block [.keyword "entity", .white " ", .ident u.name, .white " ", .keyword "is"]
        (if u.ports.isEmpty then [] else [Port.clauseLexemes u.ports]) ["entity"]
  | .architecture u =>
      region [.keyword "architecture", .white " ", .ident u.name, .white " ", .keyword "of",
        .white " ", .ident u.entity, .white " ", .keyword "is"]
        (u.items.map fun i => i.declared.lexemes)
        (u.body.map Concurrent.lexemes) ["architecture"]
  | .package u =>
      block [.keyword "package", .white " ", .ident u.name, .white " ", .keyword "is"]
        (u.items.map fun i => i.declared.lexemes) ["package"]
  | .packageBody u =>
      block [.keyword "package", .white " ", .keyword "body", .white " ", .ident u.name, .white " ",
        .keyword "is"] (u.items.map fun i => i.declared.lexemes) ["package", "body"]

/-- What a design is made of, in order: its context stands in front of every unit. -/
def Design.members (d : Design) : List (ContextItem ⊕ LibraryUnit) :=
  if d.units.isEmpty then d.context.map .inl
  else d.units.flatMap fun u => d.context.map .inl ++ [.inr u]

def Design.memberLexemes : ContextItem ⊕ LibraryUnit → List Lexeme
  | .inl item => item.lexemes
  | .inr u => u.lexemes

def Design.lexemes (d : Design) : List Lexeme := (lines (d.members.map Design.memberLexemes)).tail

end Vhdl93
