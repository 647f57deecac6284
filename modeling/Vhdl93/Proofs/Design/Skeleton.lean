import Vhdl93.Design.Layout

set_option autoImplicit false

/-!
Skeletons. The skeleton of a design is the design with every inline leaf replaced by one that holds
nothing but the text of that leaf. All else stays: units, declarations, statements, labels,
identifiers, modes, classes, and the lengths of lists. Two designs have the same skeleton if they
differ only inside leaves of the same text.
-/

namespace Vhdl93

def Name.quoted (n : Name) : Name := .simple (.extended n.text)

def Expr.quoted (e : Expr) : Expr := .literal (.string e.text)

def Range.quoted (r : Range) : Range := .attribute (.simple (.extended r.text)) (.extended "") none

def Choice.quoted (c : Choice) : Choice := .expr (.literal (.string c.text))

def Association.quoted (a : Association) :
    Association := .positional (.expr (.literal (.string a.text)))

def SubtypeIndication.quoted (s : SubtypeIndication) : SubtypeIndication := ⟨.extended s.text, none⟩

def Waveform.quoted (w : Waveform) : Waveform := .single (.literal (.string w.text))

def InstantiatedUnit.quoted (u : InstantiatedUnit) :
    InstantiatedUnit := ⟨.simple (.extended u.text), none⟩

def ContextItem.quoted (item : ContextItem) : ContextItem := .library (.extended item.text)

def ObjectDecl.skeleton (d : ObjectDecl) : ObjectDecl :=
  { d with subtype := d.subtype.quoted, value := d.value.map Expr.quoted }

def TypeDef.skeleton : TypeDef → TypeDef
  | .enumeration ls => .enumeration ls
  | .integer r => .integer r.quoted
  | .unconstrainedArray is element => .unconstrainedArray is element
  | .constrainedArray rs element => .constrainedArray (rs.map Range.quoted) element
  | .record fs => .record fs

def TypeDecl.skeleton (d : TypeDecl) : TypeDecl := { d with definition := d.definition.skeleton }

def SubtypeDecl.skeleton (d : SubtypeDecl) : SubtypeDecl := { d with subtype := d.subtype.quoted }

def PackageItem.skeleton : PackageItem → PackageItem
  | .typeDecl d => .typeDecl d.skeleton
  | .subtypeDecl d => .subtypeDecl d.skeleton
  | .constantDecl d => .constantDecl d.skeleton
  | .subprogramDecl s => .subprogramDecl s

mutual

def Sequential.skeleton : Sequential → Sequential
  | .conditional e body elsifs otherwise =>
      .conditional e.quoted (Sequential.skeletons body) (Branch.skeletons elsifs)
        (Sequential.elseSkeleton otherwise)
  | .selection e as => .selection e.quoted (Alternative.skeletons as)
  | .ret e => .ret (e.map Expr.quoted)
  | .forLoop i r body => .forLoop i r.quoted (Sequential.skeletons body)
  | .assign n e => .assign n.quoted e.quoted
  | .wait e => .wait e.quoted
  | .drive n w => .drive n.quoted w.quoted
  -- A call is a leaf as a whole: `p(1)` may be a name with an index, called without arguments.
  | .call n as => .call (.simple (.extended (Expr.call n as).text)) []
  | .null => .null

def Branch.skeleton : Branch → Branch
  | .mk e body => .mk e.quoted (Sequential.skeletons body)

def Alternative.skeleton : Alternative → Alternative
  | .mk choices body => .mk (choices.map Choice.quoted) (Sequential.skeletons body)

def Sequential.elseSkeleton : Option (List Sequential) → Option (List Sequential)
  | none => none
  | some body => some (Sequential.skeletons body)

def Sequential.skeletons : List Sequential → List Sequential
  | [] => []
  | s :: ss => s.skeleton :: Sequential.skeletons ss

def Branch.skeletons : List Branch → List Branch
  | [] => []
  | b :: bs => b.skeleton :: Branch.skeletons bs

def Alternative.skeletons : List Alternative → List Alternative
  | [] => []
  | a :: as => a.skeleton :: Alternative.skeletons as

end

@[simp] theorem Sequential.skeletons_eq_map (ss : List Sequential) :
    Sequential.skeletons ss = ss.map Sequential.skeleton := by
  induction ss with
  | nil => rfl
  | cons s ss ih => simp [Sequential.skeletons, ih]

@[simp] theorem Branch.skeletons_eq_map (bs : List Branch) :
    Branch.skeletons bs = bs.map Branch.skeleton := by
  induction bs with
  | nil => rfl
  | cons b bs ih => simp [Branch.skeletons, ih]

@[simp] theorem Alternative.skeletons_eq_map (as : List Alternative) :
    Alternative.skeletons as = as.map Alternative.skeleton := by
  induction as with
  | nil => rfl
  | cons a as ih => simp [Alternative.skeletons, ih]

mutual

def SubprogramBody.skeleton : SubprogramBody → SubprogramBody
  | .mk spec items body => .mk spec (SubprogramItem.skeletons items) (body.map Sequential.skeleton)

def SubprogramItem.skeleton : SubprogramItem → SubprogramItem
  | .variableDecl d => .variableDecl d.skeleton
  | .constantDecl d => .constantDecl d.skeleton
  | .subprogram b => .subprogram b.skeleton

def SubprogramItem.skeletons : List SubprogramItem → List SubprogramItem
  | [] => []
  | i :: is => i.skeleton :: SubprogramItem.skeletons is

end

@[simp] theorem SubprogramItem.skeletons_eq_map (is : List SubprogramItem) :
    SubprogramItem.skeletons is = is.map SubprogramItem.skeleton := by
  induction is with
  | nil => rfl
  | cons i is ih => simp [SubprogramItem.skeletons, ih]

def PackageBodyItem.skeleton : PackageBodyItem → PackageBodyItem
  | .constantDecl d => .constantDecl d.skeleton
  | .subprogram b => .subprogram b.skeleton

def BlockItem.skeleton : BlockItem → BlockItem
  | .signalDecl d => .signalDecl d.skeleton
  | .constantDecl d => .constantDecl d.skeleton
  | .typeDecl d => .typeDecl d.skeleton
  | .subtypeDecl d => .subtypeDecl d.skeleton
  | .subprogram b => .subprogram b.skeleton

def Process.skeleton (p : Process) : Process :=
  { p with items := p.items.map SubprogramItem.skeleton, body := p.body.map Sequential.skeleton }

def ConditionalWaveform.skeleton (w : ConditionalWaveform) : ConditionalWaveform :=
  ⟨w.waveform.quoted, w.condition.quoted⟩

def Assignment.skeleton (a : Assignment) : Assignment :=
  ⟨a.target.quoted, a.conditionals.map ConditionalWaveform.skeleton, a.waveform.quoted,
    a.condition.map Expr.quoted⟩

def Instance.skeleton (i : Instance) : Instance :=
  ⟨i.label, i.unit.quoted, i.portMap.map Association.quoted⟩

def Scheme.skeleton : Scheme → Scheme
  | .forRange i r => .forRange i r.quoted
  | .ifCondition e => .ifCondition e.quoted

mutual

def Concurrent.skeleton : Concurrent → Concurrent
  -- Without ports a block has no port map to show.
  | .block label ports portMap items body =>
      .block label ports (if ports.isEmpty then [] else portMap.map Association.quoted)
        (items.map BlockItem.skeleton) (Concurrent.skeletons body)
  | .process p => .process p.skeleton
  | .assign a => .assign a.skeleton
  | .instantiate i => .instantiate i.skeleton
  | .generate label scheme items body =>
      .generate label scheme.skeleton (items.map BlockItem.skeleton) (Concurrent.skeletons body)

def Concurrent.skeletons : List Concurrent → List Concurrent
  | [] => []
  | s :: ss => s.skeleton :: Concurrent.skeletons ss

end

@[simp] theorem Concurrent.skeletons_eq_map (ss : List Concurrent) :
    Concurrent.skeletons ss = ss.map Concurrent.skeleton := by
  induction ss with
  | nil => rfl
  | cons s ss ih => simp [Concurrent.skeletons, ih]

def LibraryUnit.skeleton : LibraryUnit → LibraryUnit
  | .entity u => .entity u
  | .architecture u =>
      .architecture
        { u with items := u.items.map BlockItem.skeleton, body := u.body.map Concurrent.skeleton }
  | .package u => .package { u with items := u.items.map PackageItem.skeleton }
  | .packageBody u => .packageBody { u with items := u.items.map PackageBodyItem.skeleton }

def Design.skeleton (d : Design) : Design :=
  ⟨d.context.map ContextItem.quoted, d.units.map LibraryUnit.skeleton⟩

end Vhdl93
