import Vhdl93.Subprogram.Basic

set_option autoImplicit false

namespace Vhdl93

inductive BlockItem where
  | signalDecl (decl : ObjectDecl)
  | constantDecl (decl : ObjectDecl)
  | typeDecl (decl : TypeDecl)
  | subtypeDecl (decl : SubtypeDecl)
  | subprogram (body : SubprogramBody)

structure Process where
  label : Ident
  sensitivity : List Ident
  items : List SubprogramItem
  body : List Sequential

structure ConditionalWaveform where
  waveform : Waveform
  condition : Expr

structure Assignment where
  target : Name
  conditionals : List ConditionalWaveform
  waveform : Waveform
  condition : Option Expr

structure InstantiatedUnit where
  entity : Name
  architecture : Option Ident

structure Instance where
  label : Ident
  unit : InstantiatedUnit
  portMap : List Association

inductive Scheme where
  | forRange (index : Ident) (range : Range)
  | ifCondition (condition : Expr)

inductive Concurrent where
  | block (label : Ident) (ports : List Port) (portMap : List Association) (items : List BlockItem)
      (body : List Concurrent)
  | process (process : Process)
  | assign (assignment : Assignment)
  | instantiate (inst : Instance)
  | generate (label : Ident) (scheme : Scheme) (items : List BlockItem) (body : List Concurrent)

def BlockItem.eqv : BlockItem → BlockItem → Bool
  | .signalDecl d, .signalDecl e => d == e
  | .constantDecl d, .constantDecl e => d == e
  | .typeDecl d, .typeDecl e => d == e
  | .subtypeDecl d, .subtypeDecl e => d == e
  | .subprogram b, .subprogram c => b == c
  | _, _ => false

instance : BEq BlockItem := ⟨BlockItem.eqv⟩

def Process.eqv (p q : Process) : Bool :=
  p.label = q.label && p.sensitivity = q.sensitivity && p.items == q.items && p.body == q.body

instance : BEq Process := ⟨Process.eqv⟩

def ConditionalWaveform.eqv (v w : ConditionalWaveform) : Bool :=
  v.waveform == w.waveform && v.condition == w.condition

instance : BEq ConditionalWaveform := ⟨ConditionalWaveform.eqv⟩

def Assignment.eqv (a b : Assignment) : Bool :=
  a.target == b.target && a.conditionals == b.conditionals && a.waveform == b.waveform &&
    a.condition == b.condition

instance : BEq Assignment := ⟨Assignment.eqv⟩

def InstantiatedUnit.eqv (u v : InstantiatedUnit) : Bool :=
  u.entity == v.entity && u.architecture = v.architecture

instance : BEq InstantiatedUnit := ⟨InstantiatedUnit.eqv⟩

def Instance.eqv (i j : Instance) : Bool :=
  i.label = j.label && i.unit == j.unit && i.portMap == j.portMap

instance : BEq Instance := ⟨Instance.eqv⟩

def Scheme.eqv : Scheme → Scheme → Bool
  | .forRange i r, .forRange j s => i = j && r == s
  | .ifCondition e, .ifCondition f => e == f
  | _, _ => false

instance : BEq Scheme := ⟨Scheme.eqv⟩

mutual

def Concurrent.eqv : Concurrent → Concurrent → Bool
  | .block l ps as is b, .block l' ps' as' is' b' =>
      l = l' && ps = ps' && as == as' && is == is' && Concurrent.eqvAll b b'
  | .process p, .process q => p == q
  | .assign a, .assign b => a == b
  | .instantiate i, .instantiate j => i == j
  | .generate l s is b, .generate l' s' is' b' =>
      l = l' && s == s' && is == is' && Concurrent.eqvAll b b'
  | _, _ => false

def Concurrent.eqvAll : List Concurrent → List Concurrent → Bool
  | [], [] => true
  | s :: ss, t :: ts => s.eqv t && Concurrent.eqvAll ss ts
  | _, _ => false

end

instance : BEq Concurrent := ⟨Concurrent.eqv⟩

end Vhdl93
