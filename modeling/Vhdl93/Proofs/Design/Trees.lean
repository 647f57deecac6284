import Vhdl93.Design.Basic
import Vhdl93.Proofs.Inline.Checks

set_option autoImplicit false

namespace Vhdl93

def Port.passes (c : Checks) (p : Port) : Bool := c.ident p.name && c.ident p.mark

def FunctionParameter.passes (c : Checks) (p : FunctionParameter) :
    Bool := c.ident p.name && c.ident p.mark

def ProcedureParameter.passes (c : Checks) (p : ProcedureParameter) :
    Bool := c.ident p.name && c.ident p.mark

def Spec.passes (c : Checks) : Spec → Bool
  | .function name ps result => c.ident name && ps.all (FunctionParameter.passes c) &&
    c.ident result
  | .procedure name ps => c.ident name && ps.all (ProcedureParameter.passes c)

def ObjectDecl.passes (c : Checks) (d : ObjectDecl) : Bool :=
  c.ident d.name && d.subtype.passes c && d.value.all (Expr.passes c)

def EnumLiteral.passes (c : Checks) : EnumLiteral → Bool
  | .ident i => c.ident i
  | .character x => c.literal (.character x)

def FieldDecl.passes (c : Checks) (f : FieldDecl) : Bool := c.ident f.name && c.ident f.mark

def TypeDef.passes (c : Checks) : TypeDef → Bool
  | .enumeration ls => c.size ls.length && ls.all (EnumLiteral.passes c)
  | .integer r => r.passes c
  | .unconstrainedArray is element => c.size is.length && is.all c.ident && c.ident element
  | .constrainedArray rs element => c.size rs.length && rs.all (Range.passes c) && c.ident element
  | .record fs => c.size fs.length && fs.all (FieldDecl.passes c)

def TypeDecl.passes (c : Checks) (d : TypeDecl) : Bool := c.ident d.name && d.definition.passes c

def SubtypeDecl.passes (c : Checks) (d : SubtypeDecl) : Bool := c.ident d.name && d.subtype.passes c

def PackageItem.passes (c : Checks) : PackageItem → Bool
  | .typeDecl d => d.passes c
  | .subtypeDecl d => d.passes c
  | .constantDecl d => d.passes c
  | .subprogramDecl s => s.passes c

mutual

def Sequential.passes (c : Checks) : Sequential → Bool
  | .conditional e body elsifs otherwise =>
      e.passes c && Sequential.passesAll c body && Branch.passesAll c elsifs &&
        Sequential.passesElse c otherwise
  | .selection e as => e.passes c && c.size as.length && Alternative.passesAll c as
  | .ret e => e.all (Expr.passes c)
  | .forLoop i r body => c.ident i && r.passes c && Sequential.passesAll c body
  | .assign n e => n.passes c && e.passes c
  | .wait e => e.passes c
  | .drive n w => n.passes c && w.passes c
  | .call n as => n.passes c && Association.passesAll c as
  | .null => true

def Branch.passes (c : Checks) : Branch → Bool
  | .mk e body => e.passes c && Sequential.passesAll c body

def Alternative.passes (c : Checks) : Alternative → Bool
  | .mk choices body =>
      c.size choices.length && choices.all (Choice.passes c) && Sequential.passesAll c body

def Sequential.passesElse (c : Checks) : Option (List Sequential) → Bool
  | none => true
  | some body => Sequential.passesAll c body

def Sequential.passesAll (c : Checks) : List Sequential → Bool
  | [] => true
  | s :: ss => s.passes c && Sequential.passesAll c ss

def Branch.passesAll (c : Checks) : List Branch → Bool
  | [] => true
  | b :: bs => b.passes c && Branch.passesAll c bs

def Alternative.passesAll (c : Checks) : List Alternative → Bool
  | [] => true
  | a :: as => a.passes c && Alternative.passesAll c as

end

@[simp] theorem Sequential.passesAll_eq_all (c : Checks) (ss : List Sequential) :
    Sequential.passesAll c ss = ss.all (Sequential.passes c) := by
  induction ss with
  | nil => rfl
  | cons s ss ih => simp [Sequential.passesAll, ih]

@[simp] theorem Branch.passesAll_eq_all (c : Checks) (bs : List Branch) :
    Branch.passesAll c bs = bs.all (Branch.passes c) := by
  induction bs with
  | nil => rfl
  | cons b bs ih => simp [Branch.passesAll, ih]

@[simp] theorem Alternative.passesAll_eq_all (c : Checks) (as : List Alternative) :
    Alternative.passesAll c as = as.all (Alternative.passes c) := by
  induction as with
  | nil => rfl
  | cons a as ih => simp [Alternative.passesAll, ih]

mutual

def SubprogramBody.passes (c : Checks) : SubprogramBody → Bool
  | .mk spec items body =>
      spec.passes c && SubprogramItem.passesAll c items && body.all (Sequential.passes c)

def SubprogramItem.passes (c : Checks) : SubprogramItem → Bool
  | .variableDecl d => d.passes c
  | .constantDecl d => d.passes c
  | .subprogram b => b.passes c

def SubprogramItem.passesAll (c : Checks) : List SubprogramItem → Bool
  | [] => true
  | i :: is => i.passes c && SubprogramItem.passesAll c is

end

@[simp] theorem SubprogramItem.passesAll_eq_all (c : Checks) (is : List SubprogramItem) :
    SubprogramItem.passesAll c is = is.all (SubprogramItem.passes c) := by
  induction is with
  | nil => rfl
  | cons i is ih => simp [SubprogramItem.passesAll, ih]

def PackageBodyItem.passes (c : Checks) : PackageBodyItem → Bool
  | .constantDecl d => d.passes c
  | .subprogram b => b.passes c

def BlockItem.passes (c : Checks) : BlockItem → Bool
  | .signalDecl d => d.passes c
  | .constantDecl d => d.passes c
  | .typeDecl d => d.passes c
  | .subtypeDecl d => d.passes c
  | .subprogram b => b.passes c

def Process.passes (c : Checks) (p : Process) : Bool :=
  c.ident p.label && p.sensitivity.all c.ident && p.items.all (SubprogramItem.passes c) &&
    p.body.all (Sequential.passes c)

def ConditionalWaveform.passes (c : Checks) (w : ConditionalWaveform) : Bool :=
  w.waveform.passes c && w.condition.passes c

def Assignment.passes (c : Checks) (a : Assignment) : Bool :=
  a.target.passes c && a.conditionals.all (ConditionalWaveform.passes c) && a.waveform.passes c &&
    a.condition.all (Expr.passes c)

def InstantiatedUnit.passes (c : Checks) (u : InstantiatedUnit) : Bool :=
  u.entity.passes c && u.architecture.all c.ident

def Instance.passes (c : Checks) (i : Instance) : Bool :=
  c.ident i.label && i.unit.passes c && c.size i.portMap.length && i.portMap.all
    (Association.passes c)

def Scheme.passes (c : Checks) : Scheme → Bool
  | .forRange i r => c.ident i && r.passes c
  | .ifCondition e => e.passes c

mutual

def Concurrent.passes (c : Checks) : Concurrent → Bool
  | .block label ports portMap items body =>
      c.ident label && ports.all (Port.passes c) && portMap.all (Association.passes c) &&
        items.all (BlockItem.passes c) && Concurrent.passesAll c body
  | .process p => p.passes c
  | .assign a => a.passes c
  | .instantiate i => i.passes c
  | .generate label scheme items body =>
      c.ident label && scheme.passes c && items.all (BlockItem.passes c) &&
        Concurrent.passesAll c body

def Concurrent.passesAll (c : Checks) : List Concurrent → Bool
  | [] => true
  | s :: ss => s.passes c && Concurrent.passesAll c ss

end

@[simp] theorem Concurrent.passesAll_eq_all (c : Checks) (ss : List Concurrent) :
    Concurrent.passesAll c ss = ss.all (Concurrent.passes c) := by
  induction ss with
  | nil => rfl
  | cons s ss ih => simp [Concurrent.passesAll, ih]

def ContextItem.passes (c : Checks) : ContextItem → Bool
  | .library i => c.ident i
  | .use n s => n.passes c && s.passes c

def LibraryUnit.passes (c : Checks) : LibraryUnit → Bool
  | .entity u => c.ident u.name && u.ports.all (Port.passes c)
  | .architecture u =>
      c.ident u.name && c.ident u.entity && u.items.all (BlockItem.passes c) && u.body.all
        (Concurrent.passes c)
  | .package u => c.ident u.name && u.items.all (PackageItem.passes c)
  | .packageBody u => c.ident u.name && u.items.all (PackageBodyItem.passes c)

def Design.passes (c : Checks) (d : Design) : Bool :=
  d.context.all (ContextItem.passes c) && d.units.all (LibraryUnit.passes c)

def Branch.body : Branch → List Sequential
  | .mk _ body => body

def Alternative.body : Alternative → List Sequential
  | .mk _ body => body

section Induction

variable {P : Sequential → Prop}
  (conditional : ∀ c body elsifs otherwise, (∀ s ∈ body, P s) → (∀ b ∈ elsifs, ∀ s ∈ b.body, P s) →
    (∀ last ∈ otherwise, ∀ s ∈ last, P s) → P (.conditional c body elsifs otherwise))
  (selection : ∀ e as, (∀ a ∈ as, ∀ s ∈ a.body, P s) → P (.selection e as))
  (ret : ∀ e, P (.ret e))
  (forLoop : ∀ i r body, (∀ s ∈ body, P s) → P (.forLoop i r body))
  (assign : ∀ n e, P (.assign n e))
  (wait : ∀ e, P (.wait e))
  (drive : ∀ n w, P (.drive n w))
  (call : ∀ n as, P (.call n as))
  (null : P .null)

include conditional selection ret forLoop assign wait drive call null

@[elab_as_elim]
theorem Sequential.induction (s : Sequential) : P s :=
  @Sequential.rec P (fun b => ∀ s ∈ b.body, P s) (fun a => ∀ s ∈ a.body, P s)
    (fun ss => ∀ s ∈ ss, P s)
    (fun bs => ∀ b ∈ bs, ∀ s ∈ b.body, P s) (fun last => ∀ ss ∈ last, ∀ s ∈ ss, P s)
    (fun as => ∀ a ∈ as, ∀ s ∈ a.body, P s)
    conditional selection ret forLoop assign wait drive call null
    (fun _ _ body => body) (fun _ _ body => body)
    (by simp) (fun _ _ first later => List.forall_mem_cons.mpr ⟨first, later⟩)
    (by simp) (fun _ _ first later => List.forall_mem_cons.mpr ⟨first, later⟩)
    (by simp) (fun _ body => by simpa using body)
    (by simp) (fun _ _ first later => List.forall_mem_cons.mpr ⟨first, later⟩) s

end Induction

@[elab_as_elim]
theorem SubprogramBody.induction {P : SubprogramBody → Prop}
    (mk : ∀ spec items body, (∀ b, .subprogram b ∈ items → P b) → P (.mk spec items body))
    (b : SubprogramBody) : P b := by
  refine @SubprogramBody.rec P (fun i => ∀ b, i = .subprogram b → P b) (fun is => ∀ b,
    .subprogram b ∈ is → P b)
    mk (by simp) (by simp) ?_ (by simp) ?_ b
  · rintro b holds _ ⟨⟩
    exact holds
  · intro i is first later b member
    rcases List.mem_cons.mp member with same | member
    · exact first b same.symm
    · exact later b member

@[elab_as_elim]
theorem Concurrent.induction {P : Concurrent → Prop}
    (block : ∀ label ports portMap items body, (∀ s ∈ body, P s) →
      P (.block label ports portMap items body)) (process : ∀ p, P (.process p))
    (assign : ∀ a, P (.assign a)) (instantiate : ∀ i, P (.instantiate i))
    (generate : ∀ label scheme items body, (∀ s ∈ body, P s) →
      P (.generate label scheme items body)) (s : Concurrent) : P s :=
  @Concurrent.rec P (fun ss => ∀ s ∈ ss, P s) block process assign instantiate generate
    (by simp) (fun _ _ first later => List.forall_mem_cons.mpr ⟨first, later⟩) s

end Vhdl93
