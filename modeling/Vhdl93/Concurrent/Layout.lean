import Vhdl93.Concurrent.Basic
import Vhdl93.Subprogram.Layout

set_option autoImplicit false

namespace Vhdl93

def Port.docs : List Port → List Doc
  | [] => []
  | [p] => [.text p.text]
  | p :: ps => .text (p.text ++ ";") :: Port.docs ps

def Port.clauseDoc (ps : List Port) : Doc := .block "port (" (Port.docs ps) ");"

def Association.mapDoc (as : List Association) : Doc :=
  .list "port map (" (as.map Association.text) ");"

def BlockItem.doc : BlockItem → Doc
  | .signalDecl d => d.doc .signal
  | .constantDecl d => d.doc .constant
  | .typeDecl d => d.doc
  | .subtypeDecl d => d.doc
  | .subprogram b => b.doc

def Process.doc (p : Process) : Doc :=
  let sensitivity :=
    if p.sensitivity.isEmpty then ""
    else " (" ++ ", ".intercalate (p.sensitivity.map Ident.render) ++ ")"
  .region (p.label.render ++ " : process" ++ sensitivity) (p.items.map SubprogramItem.doc)
    (p.body.map Sequential.doc) "end process;"

def ConditionalWaveform.text (w : ConditionalWaveform) : String :=
  w.waveform.text ++ " when " ++ w.condition.text

def Assignment.lastText (a : Assignment) : String :=
  a.waveform.text ++ (a.condition.map fun e => " when " ++ e.text).getD ""

def Assignment.elseDoc (part : String) : Doc := .space ++ .text ("else " ++ part)

def Assignment.doc (a : Assignment) : Doc :=
  match a.conditionals.map ConditionalWaveform.text with
  -- A single waveform has no place to break.
  | [] => .text (a.target.text ++ " <= " ++ a.lastText ++ ";")
  | first :: rest =>
      .group (.text (a.target.text ++ " <= " ++ first) ++
        .nest (.concat ((rest ++ [a.lastText]).map elseDoc)) ++
        .text ";")

def InstantiatedUnit.text (u : InstantiatedUnit) : String :=
  "entity " ++ u.entity.text ++ (u.architecture.map fun i => "(" ++ i.render ++ ")").getD ""

def Instance.doc (i : Instance) : Doc :=
  .group (.text (i.label.render ++ " : " ++ i.unit.text) ++
    .nest (.space ++ Association.mapDoc i.portMap))

def Scheme.text : Scheme → String
  | .forRange i r => "for " ++ i.render ++ " in " ++ r.text
  | .ifCondition e => "if " ++ e.text

def Port.blockDocs (ports : List Port) (portMap : List Association) : List Doc :=
  if ports.isEmpty then [] else [Port.clauseDoc ports, Association.mapDoc portMap]

def BlockItem.generateDoc (items : List BlockItem) : Doc :=
  -- Without declarations there is no `begin`.
  if items.isEmpty then .empty
  else .nest (.lines (items.map BlockItem.doc)) ++ .line ++ .text "begin"

mutual

def Concurrent.doc : Concurrent → Doc
  | .block label ports portMap items body =>
      .region (label.render ++ " : block") (Port.blockDocs ports portMap ++ items.map BlockItem.doc)
        (Concurrent.docs body) "end block;"
  | .process p => p.doc
  | .assign a => a.doc
  | .instantiate i => i.doc
  | .generate label scheme items body =>
      .text (label.render ++ " : " ++ scheme.text ++ " generate") ++
        BlockItem.generateDoc items ++ .nest (.lines (Concurrent.docs body)) ++
        .line ++ .text "end generate;"

def Concurrent.docs : List Concurrent → List Doc
  | [] => []
  | s :: ss => s.doc :: Concurrent.docs ss

end

@[simp] theorem Concurrent.docs_eq_map (ss : List Concurrent) :
    Concurrent.docs ss = ss.map Concurrent.doc := by
  induction ss with
  | nil => rfl
  | cons s ss ih => simp [Concurrent.docs, ih]

end Vhdl93
