import Vhdl93.Proofs.Design.Trees
import Vhdl93.Proofs.Inline.Equality

set_option autoImplicit false

namespace Vhdl93

section Declarations

def ObjectDecl.mergeZeros (d : ObjectDecl) : ObjectDecl :=
  { d with subtype := d.subtype.mergeZeros, value := d.value.map Expr.mergeZeros }

def TypeDef.mergeZeros : TypeDef → TypeDef
  | .enumeration ls => .enumeration ls
  | .integer r => .integer r.mergeZeros
  | .unconstrainedArray is element => .unconstrainedArray is element
  | .constrainedArray rs element => .constrainedArray (rs.map Range.mergeZeros) element
  | .record fs => .record fs

def TypeDecl.mergeZeros (d : TypeDecl) : TypeDecl :=
  { d with definition := d.definition.mergeZeros }

def SubtypeDecl.mergeZeros (d : SubtypeDecl) : SubtypeDecl :=
  { d with subtype := d.subtype.mergeZeros }

def PackageItem.mergeZeros : PackageItem → PackageItem
  | .typeDecl d => .typeDecl d.mergeZeros
  | .subtypeDecl d => .subtypeDecl d.mergeZeros
  | .constantDecl d => .constantDecl d.mergeZeros
  | .subprogramDecl s => .subprogramDecl s

theorem ObjectDecl.compared : ComparedBy ObjectDecl.mergeZeros ObjectDecl.passes where
  eqv_iff d ok e := by
    obtain ⟨name, subtype, value⟩ := d
    obtain ⟨name', subtype', value'⟩ := e
    simp only [ObjectDecl.passes, Bool.and_eq_true] at ok
    show ObjectDecl.eqv _ _ = true ↔ _
    simp [ObjectDecl.eqv, ObjectDecl.mergeZeros, SubtypeIndication.compared.eqv_iff subtype ok.1.2,
      Expr.compared.option.eqv_iff value ok.2, and_assoc]
  merge_eq d ok := by
    simp only [ObjectDecl.passes, Bool.and_eq_true] at ok
    rw [ObjectDecl.mergeZeros, SubtypeIndication.compared.merge_eq d.subtype ok.1.2,
      Expr.compared.option.merge_eq d.value ok.2]

theorem TypeDef.compared : ComparedBy TypeDef.mergeZeros TypeDef.passes where
  eqv_iff d ok e := by
    show d.eqv e = true ↔ d.mergeZeros = e.mergeZeros
    cases d with
    | enumeration ls => cases e <;> simp [TypeDef.eqv, TypeDef.mergeZeros]
    | integer r => cases e <;> simp [TypeDef.eqv, TypeDef.mergeZeros, Range.compared.eqv_iff r ok]
    | unconstrainedArray is element => cases e <;> simp [TypeDef.eqv, TypeDef.mergeZeros]
    | constrainedArray rs element =>
      simp only [TypeDef.passes, Bool.and_eq_true] at ok
      cases e <;> simp [TypeDef.eqv, TypeDef.mergeZeros, Range.compared.list.eqv_iff rs ok.1.2]
    | record fs => cases e <;> simp [TypeDef.eqv, TypeDef.mergeZeros]
  merge_eq d ok := by
    cases d with
    | enumeration ls => rfl
    | integer r => rw [TypeDef.mergeZeros, Range.compared.merge_eq r ok]
    | unconstrainedArray is element => rfl
    | constrainedArray rs element =>
      simp only [TypeDef.passes, Bool.and_eq_true] at ok
      rw [TypeDef.mergeZeros, Range.compared.list.merge_eq rs ok.1.2]
    | record fs => rfl

theorem TypeDecl.compared : ComparedBy TypeDecl.mergeZeros TypeDecl.passes where
  eqv_iff d ok e := by
    obtain ⟨name, definition⟩ := d
    obtain ⟨name', definition'⟩ := e
    simp only [TypeDecl.passes, Bool.and_eq_true] at ok
    show TypeDecl.eqv _ _ = true ↔ _
    simp [TypeDecl.eqv, TypeDecl.mergeZeros, TypeDef.compared.eqv_iff definition ok.2]
  merge_eq d ok := by
    simp only [TypeDecl.passes, Bool.and_eq_true] at ok
    rw [TypeDecl.mergeZeros, TypeDef.compared.merge_eq d.definition ok.2]

theorem SubtypeDecl.compared : ComparedBy SubtypeDecl.mergeZeros SubtypeDecl.passes where
  eqv_iff d ok e := by
    obtain ⟨name, subtype⟩ := d
    obtain ⟨name', subtype'⟩ := e
    simp only [SubtypeDecl.passes, Bool.and_eq_true] at ok
    show SubtypeDecl.eqv _ _ = true ↔ _
    simp [SubtypeDecl.eqv, SubtypeDecl.mergeZeros, SubtypeIndication.compared.eqv_iff subtype ok.2]
  merge_eq d ok := by
    simp only [SubtypeDecl.passes, Bool.and_eq_true] at ok
    rw [SubtypeDecl.mergeZeros, SubtypeIndication.compared.merge_eq d.subtype ok.2]

theorem PackageItem.compared : ComparedBy PackageItem.mergeZeros PackageItem.passes where
  eqv_iff i ok j := by
    show i.eqv j = true ↔ i.mergeZeros = j.mergeZeros
    cases i with
    | typeDecl d =>
      cases j <;> simp [PackageItem.eqv, PackageItem.mergeZeros, TypeDecl.compared.eqv_iff d ok]
    | subtypeDecl d =>
      cases j <;> simp [PackageItem.eqv, PackageItem.mergeZeros, SubtypeDecl.compared.eqv_iff d ok]
    | constantDecl d =>
      cases j <;> simp [PackageItem.eqv, PackageItem.mergeZeros, ObjectDecl.compared.eqv_iff d ok]
    | subprogramDecl s => cases j <;> simp [PackageItem.eqv, PackageItem.mergeZeros]
  merge_eq i ok := by
    cases i with
    | typeDecl d => rw [PackageItem.mergeZeros, TypeDecl.compared.merge_eq d ok]
    | subtypeDecl d => rw [PackageItem.mergeZeros, SubtypeDecl.compared.merge_eq d ok]
    | constantDecl d => rw [PackageItem.mergeZeros, ObjectDecl.compared.merge_eq d ok]
    | subprogramDecl s => rfl

end Declarations

section Statements

mutual

def Sequential.mergeZeros : Sequential → Sequential
  | .conditional e body elsifs otherwise =>
      .conditional e.mergeZeros (Sequential.mergeZerosAll body) (Branch.mergeZerosAll elsifs)
        (Sequential.mergeZerosElse otherwise)
  | .selection e as => .selection e.mergeZeros (Alternative.mergeZerosAll as)
  | .ret e => .ret (e.map Expr.mergeZeros)
  | .forLoop i r body => .forLoop i r.mergeZeros (Sequential.mergeZerosAll body)
  | .assign n e => .assign n.mergeZeros e.mergeZeros
  | .wait e => .wait e.mergeZeros
  | .drive n w => .drive n.mergeZeros w.mergeZeros
  | .call n as => .call n.mergeZeros (as.map Association.mergeZeros)
  | .null => .null

def Branch.mergeZeros : Branch → Branch
  | .mk e body => .mk e.mergeZeros (Sequential.mergeZerosAll body)

def Alternative.mergeZeros : Alternative → Alternative
  | .mk choices body => .mk (choices.map Choice.mergeZeros) (Sequential.mergeZerosAll body)

def Sequential.mergeZerosElse : Option (List Sequential) → Option (List Sequential)
  | none => none
  | some body => some (Sequential.mergeZerosAll body)

def Sequential.mergeZerosAll : List Sequential → List Sequential
  | [] => []
  | s :: ss => s.mergeZeros :: Sequential.mergeZerosAll ss

def Branch.mergeZerosAll : List Branch → List Branch
  | [] => []
  | b :: bs => b.mergeZeros :: Branch.mergeZerosAll bs

def Alternative.mergeZerosAll : List Alternative → List Alternative
  | [] => []
  | a :: as => a.mergeZeros :: Alternative.mergeZerosAll as

end

mutual

-- Each list of statements, branches or alternatives has a companion of its own, since a statement
-- holds all three.
theorem Sequential.eqv_iff_mergeZeros : ∀ s : Sequential, s.passes .numeric = true →
    ∀ t, s.eqv t = true ↔ s.mergeZeros = t.mergeZeros
  | .conditional e body elsifs otherwise, ok, t => by
      simp only [Sequential.passes, Bool.and_eq_true] at ok
      cases t <;>
        simp [Sequential.eqv, Sequential.mergeZeros, Expr.compared.eqv_iff e ok.1.1.1,
          Sequential.eqvAll_iff_mergeZeros body ok.1.1.2,
          Branch.eqvAll_iff_mergeZeros elsifs ok.1.2,
          Sequential.eqvOption_iff_mergeZeros otherwise ok.2, and_assoc]
  | .selection e as, ok, t => by
      simp only [Sequential.passes, Bool.and_eq_true] at ok
      cases t <;>
        simp [Sequential.eqv, Sequential.mergeZeros, Expr.compared.eqv_iff e ok.1.1,
          Alternative.eqvAll_iff_mergeZeros as ok.2]
  | .ret e, ok, t => by
      cases t <;> simp [Sequential.eqv, Sequential.mergeZeros, Expr.compared.option.eqv_iff e ok]
  | .forLoop i r body, ok, t => by
      simp only [Sequential.passes, Bool.and_eq_true] at ok
      cases t <;>
        simp [Sequential.eqv, Sequential.mergeZeros, Range.compared.eqv_iff r ok.1.2,
          Sequential.eqvAll_iff_mergeZeros body ok.2, and_assoc]
  | .assign n e, ok, t => by
      simp only [Sequential.passes, Bool.and_eq_true] at ok
      cases t <;>
        simp [Sequential.eqv, Sequential.mergeZeros, Name.compared.eqv_iff n ok.1,
          Expr.compared.eqv_iff e ok.2]
  | .wait e, ok, t => by
      cases t <;> simp [Sequential.eqv, Sequential.mergeZeros, Expr.compared.eqv_iff e ok]
  | .drive n w, ok, t => by
      simp only [Sequential.passes, Bool.and_eq_true] at ok
      cases t <;>
        simp [Sequential.eqv, Sequential.mergeZeros, Name.compared.eqv_iff n ok.1,
          Waveform.compared.eqv_iff w ok.2]
  | .call n as, ok, t => by
      simp only [Sequential.passes, Association.passesAll_eq_all, Bool.and_eq_true] at ok
      cases t <;>
        simp [Sequential.eqv, Sequential.mergeZeros, Name.compared.eqv_iff n ok.1,
          Association.compared.list.eqv_iff as ok.2]
  | .null, _, t => by cases t <;> simp [Sequential.eqv, Sequential.mergeZeros]
termination_by structural x => x

theorem Branch.eqv_iff_mergeZeros : ∀ b : Branch, b.passes .numeric = true →
    ∀ c, b.eqv c = true ↔ b.mergeZeros = c.mergeZeros
  | .mk e body, ok, .mk e' body' => by
      simp only [Branch.passes, Bool.and_eq_true] at ok
      simp [Branch.eqv, Branch.mergeZeros, Expr.compared.eqv_iff e ok.1,
        Sequential.eqvAll_iff_mergeZeros body ok.2]
termination_by structural x => x

theorem Alternative.eqv_iff_mergeZeros : ∀ a : Alternative, a.passes .numeric = true →
    ∀ b, a.eqv b = true ↔ a.mergeZeros = b.mergeZeros
  | .mk choices body, ok, .mk choices' body' => by
      simp only [Alternative.passes, Bool.and_eq_true] at ok
      simp [Alternative.eqv, Alternative.mergeZeros, Choice.compared.list.eqv_iff choices ok.1.2,
        Sequential.eqvAll_iff_mergeZeros body ok.2]
termination_by structural x => x

theorem Sequential.eqvOption_iff_mergeZeros : ∀ o : Option (List Sequential),
    Sequential.passesElse .numeric o = true →
    ∀ p, Sequential.eqvOption o p = true ↔ Sequential.mergeZerosElse o = Sequential.mergeZerosElse p
  | none, _, p => by cases p <;> simp [Sequential.eqvOption, Sequential.mergeZerosElse]
  | some body, ok, p => by
      cases p <;>
        simp [Sequential.eqvOption, Sequential.mergeZerosElse,
          Sequential.eqvAll_iff_mergeZeros body ok]
termination_by structural x => x

theorem Sequential.eqvAll_iff_mergeZeros : ∀ ss : List Sequential,
    Sequential.passesAll .numeric ss = true →
    ∀ ts, Sequential.eqvAll ss ts = true ↔ Sequential.mergeZerosAll ss = Sequential.mergeZerosAll ts
  | [], _, ts => by cases ts <;> simp [Sequential.eqvAll, Sequential.mergeZerosAll]
  | s :: ss, ok, ts => by
      simp only [Sequential.passesAll, Bool.and_eq_true] at ok
      cases ts <;>
        simp [Sequential.eqvAll, Sequential.mergeZerosAll, s.eqv_iff_mergeZeros ok.1,
          Sequential.eqvAll_iff_mergeZeros ss ok.2]
termination_by structural x => x

theorem Branch.eqvAll_iff_mergeZeros : ∀ bs : List Branch, Branch.passesAll .numeric bs = true →
    ∀ cs, Branch.eqvAll bs cs = true ↔ Branch.mergeZerosAll bs = Branch.mergeZerosAll cs
  | [], _, cs => by cases cs <;> simp [Branch.eqvAll, Branch.mergeZerosAll]
  | b :: bs, ok, cs => by
      simp only [Branch.passesAll, Bool.and_eq_true] at ok
      cases cs <;>
        simp [Branch.eqvAll, Branch.mergeZerosAll, b.eqv_iff_mergeZeros ok.1,
          Branch.eqvAll_iff_mergeZeros bs ok.2]
termination_by structural x => x

theorem Alternative.eqvAll_iff_mergeZeros : ∀ as : List Alternative,
    Alternative.passesAll .numeric as = true →
    ∀ bs, Alternative.eqvAll as bs = true ↔
      Alternative.mergeZerosAll as = Alternative.mergeZerosAll bs
  | [], _, bs => by cases bs <;> simp [Alternative.eqvAll, Alternative.mergeZerosAll]
  | a :: as, ok, bs => by
      simp only [Alternative.passesAll, Bool.and_eq_true] at ok
      cases bs <;>
        simp [Alternative.eqvAll, Alternative.mergeZerosAll, a.eqv_iff_mergeZeros ok.1,
          Alternative.eqvAll_iff_mergeZeros as ok.2]
termination_by structural x => x

end

mutual

theorem Sequential.mergeZeros_eq : ∀ s : Sequential, s.passes .unsignedZeros = true →
    s.mergeZeros = s
  | .conditional e body elsifs otherwise, ok => by
      simp only [Sequential.passes, Bool.and_eq_true] at ok
      rw [Sequential.mergeZeros, Expr.compared.merge_eq e ok.1.1.1,
        Sequential.mergeZerosAll_eq body ok.1.1.2,
        Branch.mergeZerosAll_eq elsifs ok.1.2, Sequential.mergeZerosElse_eq otherwise ok.2]
  | .selection e as, ok => by
      simp only [Sequential.passes, Bool.and_eq_true] at ok
      rw [Sequential.mergeZeros, Expr.compared.merge_eq e ok.1.1,
        Alternative.mergeZerosAll_eq as ok.2]
  | .ret e, ok => by rw [Sequential.mergeZeros, Expr.compared.option.merge_eq e ok]
  | .forLoop i r body, ok => by
      simp only [Sequential.passes, Bool.and_eq_true] at ok
      rw [Sequential.mergeZeros, Range.compared.merge_eq r ok.1.2,
        Sequential.mergeZerosAll_eq body ok.2]
  | .assign n e, ok => by
      simp only [Sequential.passes, Bool.and_eq_true] at ok
      rw [Sequential.mergeZeros, Name.compared.merge_eq n ok.1, Expr.compared.merge_eq e ok.2]
  | .wait e, ok => by rw [Sequential.mergeZeros, Expr.compared.merge_eq e ok]
  | .drive n w, ok => by
      simp only [Sequential.passes, Bool.and_eq_true] at ok
      rw [Sequential.mergeZeros, Name.compared.merge_eq n ok.1, Waveform.compared.merge_eq w ok.2]
  | .call n as, ok => by
      simp only [Sequential.passes, Association.passesAll_eq_all, Bool.and_eq_true] at ok
      rw [Sequential.mergeZeros, Name.compared.merge_eq n ok.1,
        Association.compared.list.merge_eq as ok.2]
  | .null, _ => rfl
termination_by structural x => x

theorem Branch.mergeZeros_eq : ∀ b : Branch, b.passes .unsignedZeros = true → b.mergeZeros = b
  | .mk e body, ok => by
      simp only [Branch.passes, Bool.and_eq_true] at ok
      rw [Branch.mergeZeros, Expr.compared.merge_eq e ok.1, Sequential.mergeZerosAll_eq body ok.2]
termination_by structural x => x

theorem Alternative.mergeZeros_eq : ∀ a : Alternative, a.passes .unsignedZeros = true →
    a.mergeZeros = a
  | .mk choices body, ok => by
      simp only [Alternative.passes, Bool.and_eq_true] at ok
      rw [Alternative.mergeZeros, Choice.compared.list.merge_eq choices ok.1.2,
        Sequential.mergeZerosAll_eq body ok.2]
termination_by structural x => x

theorem Sequential.mergeZerosElse_eq : ∀ o : Option (List Sequential),
    Sequential.passesElse .unsignedZeros o = true → Sequential.mergeZerosElse o = o
  | none, _ => rfl
  | some body, ok => by rw [Sequential.mergeZerosElse, Sequential.mergeZerosAll_eq body ok]
termination_by structural x => x

theorem Sequential.mergeZerosAll_eq : ∀ ss : List Sequential,
    Sequential.passesAll .unsignedZeros ss = true →
    Sequential.mergeZerosAll ss = ss
  | [], _ => rfl
  | s :: ss, ok => by
      simp only [Sequential.passesAll, Bool.and_eq_true] at ok
      rw [Sequential.mergeZerosAll, s.mergeZeros_eq ok.1, Sequential.mergeZerosAll_eq ss ok.2]
termination_by structural x => x

theorem Branch.mergeZerosAll_eq : ∀ bs : List Branch, Branch.passesAll .unsignedZeros bs = true →
    Branch.mergeZerosAll bs = bs
  | [], _ => rfl
  | b :: bs, ok => by
      simp only [Branch.passesAll, Bool.and_eq_true] at ok
      rw [Branch.mergeZerosAll, b.mergeZeros_eq ok.1, Branch.mergeZerosAll_eq bs ok.2]
termination_by structural x => x

theorem Alternative.mergeZerosAll_eq : ∀ as : List Alternative,
    Alternative.passesAll .unsignedZeros as = true → Alternative.mergeZerosAll as = as
  | [], _ => rfl
  | a :: as, ok => by
      simp only [Alternative.passesAll, Bool.and_eq_true] at ok
      rw [Alternative.mergeZerosAll, a.mergeZeros_eq ok.1, Alternative.mergeZerosAll_eq as ok.2]
termination_by structural x => x

end

theorem Sequential.compared : ComparedBy Sequential.mergeZeros Sequential.passes :=
  ⟨Sequential.eqv_iff_mergeZeros, Sequential.mergeZeros_eq⟩

end Statements

section Subprograms

mutual

def SubprogramBody.mergeZeros : SubprogramBody → SubprogramBody
  | .mk spec items body =>
      .mk spec (SubprogramItem.mergeZerosAll items) (body.map Sequential.mergeZeros)

def SubprogramItem.mergeZeros : SubprogramItem → SubprogramItem
  | .variableDecl d => .variableDecl d.mergeZeros
  | .constantDecl d => .constantDecl d.mergeZeros
  | .subprogram b => .subprogram b.mergeZeros

def SubprogramItem.mergeZerosAll : List SubprogramItem → List SubprogramItem
  | [] => []
  | i :: is => i.mergeZeros :: SubprogramItem.mergeZerosAll is

end

mutual

theorem SubprogramBody.eqv_iff_mergeZeros : ∀ b : SubprogramBody, b.passes .numeric = true →
    ∀ c, b.eqv c = true ↔ b.mergeZeros = c.mergeZeros
  | .mk spec items body, ok, .mk spec' items' body' => by
      simp only [SubprogramBody.passes, Bool.and_eq_true] at ok
      simp [SubprogramBody.eqv, SubprogramBody.mergeZeros,
        SubprogramItem.eqvAll_iff_mergeZeros items ok.1.2,
        Sequential.compared.list.eqv_iff body ok.2, and_assoc]
termination_by structural x => x

theorem SubprogramItem.eqv_iff_mergeZeros : ∀ i : SubprogramItem, i.passes .numeric = true →
    ∀ j, i.eqv j = true ↔ i.mergeZeros = j.mergeZeros
  | .variableDecl d, ok, j => by
      cases j <;>
        simp [SubprogramItem.eqv, SubprogramItem.mergeZeros, ObjectDecl.compared.eqv_iff d ok]
  | .constantDecl d, ok, j => by
      cases j <;>
        simp [SubprogramItem.eqv, SubprogramItem.mergeZeros, ObjectDecl.compared.eqv_iff d ok]
  | .subprogram b, ok, j => by
      cases j <;> simp [SubprogramItem.eqv, SubprogramItem.mergeZeros, b.eqv_iff_mergeZeros ok]
termination_by structural x => x

theorem SubprogramItem.eqvAll_iff_mergeZeros : ∀ is : List SubprogramItem,
    SubprogramItem.passesAll .numeric is = true →
    ∀ js, SubprogramItem.eqvAll is js = true ↔
      SubprogramItem.mergeZerosAll is = SubprogramItem.mergeZerosAll js
  | [], _, js => by cases js <;> simp [SubprogramItem.eqvAll, SubprogramItem.mergeZerosAll]
  | i :: is, ok, js => by
      simp only [SubprogramItem.passesAll, Bool.and_eq_true] at ok
      cases js <;>
        simp [SubprogramItem.eqvAll, SubprogramItem.mergeZerosAll, i.eqv_iff_mergeZeros ok.1,
          SubprogramItem.eqvAll_iff_mergeZeros is ok.2]
termination_by structural x => x

end

mutual

theorem SubprogramBody.mergeZeros_eq : ∀ b : SubprogramBody, b.passes .unsignedZeros = true →
    b.mergeZeros = b
  | .mk spec items body, ok => by
      simp only [SubprogramBody.passes, Bool.and_eq_true] at ok
      rw [SubprogramBody.mergeZeros, SubprogramItem.mergeZerosAll_eq items ok.1.2,
        Sequential.compared.list.merge_eq body ok.2]
termination_by structural x => x

theorem SubprogramItem.mergeZeros_eq : ∀ i : SubprogramItem, i.passes .unsignedZeros = true →
    i.mergeZeros = i
  | .variableDecl d, ok => by rw [SubprogramItem.mergeZeros, ObjectDecl.compared.merge_eq d ok]
  | .constantDecl d, ok => by rw [SubprogramItem.mergeZeros, ObjectDecl.compared.merge_eq d ok]
  | .subprogram b, ok => by rw [SubprogramItem.mergeZeros, b.mergeZeros_eq ok]
termination_by structural x => x

theorem SubprogramItem.mergeZerosAll_eq : ∀ is : List SubprogramItem,
    SubprogramItem.passesAll .unsignedZeros is = true → SubprogramItem.mergeZerosAll is = is
  | [], _ => rfl
  | i :: is, ok => by
      simp only [SubprogramItem.passesAll, Bool.and_eq_true] at ok
      rw [SubprogramItem.mergeZerosAll, i.mergeZeros_eq ok.1,
        SubprogramItem.mergeZerosAll_eq is ok.2]
termination_by structural x => x

end

theorem SubprogramBody.compared : ComparedBy SubprogramBody.mergeZeros SubprogramBody.passes :=
  ⟨SubprogramBody.eqv_iff_mergeZeros, SubprogramBody.mergeZeros_eq⟩

theorem SubprogramItem.compared : ComparedBy SubprogramItem.mergeZeros SubprogramItem.passes :=
  ⟨SubprogramItem.eqv_iff_mergeZeros, SubprogramItem.mergeZeros_eq⟩

def PackageBodyItem.mergeZeros : PackageBodyItem → PackageBodyItem
  | .constantDecl d => .constantDecl d.mergeZeros
  | .subprogram b => .subprogram b.mergeZeros

def BlockItem.mergeZeros : BlockItem → BlockItem
  | .signalDecl d => .signalDecl d.mergeZeros
  | .constantDecl d => .constantDecl d.mergeZeros
  | .typeDecl d => .typeDecl d.mergeZeros
  | .subtypeDecl d => .subtypeDecl d.mergeZeros
  | .subprogram b => .subprogram b.mergeZeros

theorem PackageBodyItem.compared :
    ComparedBy PackageBodyItem.mergeZeros PackageBodyItem.passes where
  eqv_iff i ok j := by
    show i.eqv j = true ↔ i.mergeZeros = j.mergeZeros
    cases i with
    | constantDecl d =>
      cases j <;>
        simp [PackageBodyItem.eqv, PackageBodyItem.mergeZeros, ObjectDecl.compared.eqv_iff d ok]
    | subprogram b =>
      cases j <;>
        simp [PackageBodyItem.eqv, PackageBodyItem.mergeZeros, SubprogramBody.compared.eqv_iff b ok]
  merge_eq i ok := by
    cases i with
    | constantDecl d => rw [PackageBodyItem.mergeZeros, ObjectDecl.compared.merge_eq d ok]
    | subprogram b => rw [PackageBodyItem.mergeZeros, SubprogramBody.compared.merge_eq b ok]

theorem BlockItem.compared : ComparedBy BlockItem.mergeZeros BlockItem.passes where
  eqv_iff i ok j := by
    show i.eqv j = true ↔ i.mergeZeros = j.mergeZeros
    cases i with
    | signalDecl d =>
      cases j <;> simp [BlockItem.eqv, BlockItem.mergeZeros, ObjectDecl.compared.eqv_iff d ok]
    | constantDecl d =>
      cases j <;> simp [BlockItem.eqv, BlockItem.mergeZeros, ObjectDecl.compared.eqv_iff d ok]
    | typeDecl d =>
      cases j <;> simp [BlockItem.eqv, BlockItem.mergeZeros, TypeDecl.compared.eqv_iff d ok]
    | subtypeDecl d =>
      cases j <;> simp [BlockItem.eqv, BlockItem.mergeZeros, SubtypeDecl.compared.eqv_iff d ok]
    | subprogram b =>
      cases j <;> simp [BlockItem.eqv, BlockItem.mergeZeros, SubprogramBody.compared.eqv_iff b ok]
  merge_eq i ok := by
    cases i with
    | signalDecl d => rw [BlockItem.mergeZeros, ObjectDecl.compared.merge_eq d ok]
    | constantDecl d => rw [BlockItem.mergeZeros, ObjectDecl.compared.merge_eq d ok]
    | typeDecl d => rw [BlockItem.mergeZeros, TypeDecl.compared.merge_eq d ok]
    | subtypeDecl d => rw [BlockItem.mergeZeros, SubtypeDecl.compared.merge_eq d ok]
    | subprogram b => rw [BlockItem.mergeZeros, SubprogramBody.compared.merge_eq b ok]

end Subprograms

section Concurrent

def Process.mergeZeros (p : Process) : Process :=
  { p with
    items := p.items.map SubprogramItem.mergeZeros
    body := p.body.map Sequential.mergeZeros }

def ConditionalWaveform.mergeZeros (w : ConditionalWaveform) : ConditionalWaveform :=
  ⟨w.waveform.mergeZeros, w.condition.mergeZeros⟩

def Assignment.mergeZeros (a : Assignment) : Assignment :=
  ⟨a.target.mergeZeros, a.conditionals.map ConditionalWaveform.mergeZeros, a.waveform.mergeZeros,
    a.condition.map Expr.mergeZeros⟩

def InstantiatedUnit.mergeZeros (u : InstantiatedUnit) : InstantiatedUnit :=
  { u with entity := u.entity.mergeZeros }

def Instance.mergeZeros (i : Instance) : Instance :=
  { i with unit := i.unit.mergeZeros, portMap := i.portMap.map Association.mergeZeros }

def Scheme.mergeZeros : Scheme → Scheme
  | .forRange i r => .forRange i r.mergeZeros
  | .ifCondition e => .ifCondition e.mergeZeros

theorem Process.compared : ComparedBy Process.mergeZeros Process.passes where
  eqv_iff p ok q := by
    obtain ⟨label, sensitivity, items, body⟩ := p
    obtain ⟨label', sensitivity', items', body'⟩ := q
    simp only [Process.passes, Bool.and_eq_true] at ok
    show Process.eqv _ _ = true ↔ _
    simp [Process.eqv, Process.mergeZeros, SubprogramItem.compared.list.eqv_iff items ok.1.2,
      Sequential.compared.list.eqv_iff body ok.2, and_assoc]
  merge_eq p ok := by
    simp only [Process.passes, Bool.and_eq_true] at ok
    rw [Process.mergeZeros, SubprogramItem.compared.list.merge_eq p.items ok.1.2,
      Sequential.compared.list.merge_eq p.body ok.2]

theorem ConditionalWaveform.compared :
    ComparedBy ConditionalWaveform.mergeZeros ConditionalWaveform.passes where
  eqv_iff v ok w := by
    obtain ⟨waveform, condition⟩ := v
    obtain ⟨waveform', condition'⟩ := w
    simp only [ConditionalWaveform.passes, Bool.and_eq_true] at ok
    show ConditionalWaveform.eqv _ _ = true ↔ _
    simp [ConditionalWaveform.eqv, ConditionalWaveform.mergeZeros,
      Waveform.compared.eqv_iff waveform ok.1, Expr.compared.eqv_iff condition ok.2]
  merge_eq v ok := by
    simp only [ConditionalWaveform.passes, Bool.and_eq_true] at ok
    rw [ConditionalWaveform.mergeZeros, Waveform.compared.merge_eq v.waveform ok.1,
      Expr.compared.merge_eq v.condition ok.2]

theorem Assignment.compared : ComparedBy Assignment.mergeZeros Assignment.passes where
  eqv_iff a ok b := by
    obtain ⟨target, conditionals, waveform, condition⟩ := a
    obtain ⟨target', conditionals', waveform', condition'⟩ := b
    simp only [Assignment.passes, Bool.and_eq_true] at ok
    show Assignment.eqv _ _ = true ↔ _
    simp [Assignment.eqv, Assignment.mergeZeros, Name.compared.eqv_iff target ok.1.1.1,
      ConditionalWaveform.compared.list.eqv_iff conditionals ok.1.1.2,
      Waveform.compared.eqv_iff waveform ok.1.2, Expr.compared.option.eqv_iff condition ok.2,
      and_assoc]
  merge_eq a ok := by
    simp only [Assignment.passes, Bool.and_eq_true] at ok
    rw [Assignment.mergeZeros, Name.compared.merge_eq a.target ok.1.1.1,
      ConditionalWaveform.compared.list.merge_eq a.conditionals ok.1.1.2,
      Waveform.compared.merge_eq a.waveform ok.1.2,
      Expr.compared.option.merge_eq a.condition ok.2]

theorem InstantiatedUnit.compared :
    ComparedBy InstantiatedUnit.mergeZeros InstantiatedUnit.passes where
  eqv_iff u ok v := by
    obtain ⟨entity, architecture⟩ := u
    obtain ⟨entity', architecture'⟩ := v
    simp only [InstantiatedUnit.passes, Bool.and_eq_true] at ok
    show InstantiatedUnit.eqv _ _ = true ↔ _
    simp [InstantiatedUnit.eqv, InstantiatedUnit.mergeZeros, Name.compared.eqv_iff entity ok.1]
  merge_eq u ok := by
    simp only [InstantiatedUnit.passes, Bool.and_eq_true] at ok
    rw [InstantiatedUnit.mergeZeros, Name.compared.merge_eq u.entity ok.1]

theorem Instance.compared : ComparedBy Instance.mergeZeros Instance.passes where
  eqv_iff i ok j := by
    obtain ⟨label, unit, portMap⟩ := i
    obtain ⟨label', unit', portMap'⟩ := j
    simp only [Instance.passes, Bool.and_eq_true] at ok
    show Instance.eqv _ _ = true ↔ _
    simp [Instance.eqv, Instance.mergeZeros, InstantiatedUnit.compared.eqv_iff unit ok.1.1.2,
      Association.compared.list.eqv_iff portMap ok.2, and_assoc]
  merge_eq i ok := by
    simp only [Instance.passes, Bool.and_eq_true] at ok
    rw [Instance.mergeZeros, InstantiatedUnit.compared.merge_eq i.unit ok.1.1.2,
      Association.compared.list.merge_eq i.portMap ok.2]

theorem Scheme.compared : ComparedBy Scheme.mergeZeros Scheme.passes where
  eqv_iff s ok t := by
    show s.eqv t = true ↔ s.mergeZeros = t.mergeZeros
    cases s with
    | forRange i r =>
      simp only [Scheme.passes, Bool.and_eq_true] at ok
      cases t <;> simp [Scheme.eqv, Scheme.mergeZeros, Range.compared.eqv_iff r ok.2]
    | ifCondition e => cases t <;> simp [Scheme.eqv, Scheme.mergeZeros, Expr.compared.eqv_iff e ok]
  merge_eq s ok := by
    cases s with
    | forRange i r =>
      simp only [Scheme.passes, Bool.and_eq_true] at ok
      rw [Scheme.mergeZeros, Range.compared.merge_eq r ok.2]
    | ifCondition e => rw [Scheme.mergeZeros, Expr.compared.merge_eq e ok]

mutual

def Concurrent.mergeZeros : Concurrent → Concurrent
  | .block label ports portMap items body =>
      .block label ports (portMap.map Association.mergeZeros) (items.map BlockItem.mergeZeros)
        (Concurrent.mergeZerosAll body)
  | .process p => .process p.mergeZeros
  | .assign a => .assign a.mergeZeros
  | .instantiate i => .instantiate i.mergeZeros
  | .generate label scheme items body =>
      .generate label scheme.mergeZeros (items.map BlockItem.mergeZeros)
        (Concurrent.mergeZerosAll body)

def Concurrent.mergeZerosAll : List Concurrent → List Concurrent
  | [] => []
  | s :: ss => s.mergeZeros :: Concurrent.mergeZerosAll ss

end

mutual

theorem Concurrent.eqv_iff_mergeZeros : ∀ s : Concurrent, s.passes .numeric = true →
    ∀ t, s.eqv t = true ↔ s.mergeZeros = t.mergeZeros
  | .block label ports portMap items body, ok, t => by
      simp only [Concurrent.passes, Bool.and_eq_true] at ok
      cases t <;>
        simp [Concurrent.eqv, Concurrent.mergeZeros,
          Association.compared.list.eqv_iff portMap ok.1.1.2,
          BlockItem.compared.list.eqv_iff items ok.1.2, Concurrent.eqvAll_iff_mergeZeros body ok.2,
          and_assoc]
  | .process p, ok, t => by
      cases t <;> simp [Concurrent.eqv, Concurrent.mergeZeros, Process.compared.eqv_iff p ok]
  | .assign a, ok, t => by
      cases t <;> simp [Concurrent.eqv, Concurrent.mergeZeros, Assignment.compared.eqv_iff a ok]
  | .instantiate i, ok, t => by
      cases t <;> simp [Concurrent.eqv, Concurrent.mergeZeros, Instance.compared.eqv_iff i ok]
  | .generate label scheme items body, ok, t => by
      simp only [Concurrent.passes, Bool.and_eq_true] at ok
      cases t <;>
        simp [Concurrent.eqv, Concurrent.mergeZeros, Scheme.compared.eqv_iff scheme ok.1.1.2,
          BlockItem.compared.list.eqv_iff items ok.1.2, Concurrent.eqvAll_iff_mergeZeros body ok.2,
          and_assoc]
termination_by structural x => x

theorem Concurrent.eqvAll_iff_mergeZeros : ∀ ss : List Concurrent,
    Concurrent.passesAll .numeric ss = true →
    ∀ ts, Concurrent.eqvAll ss ts = true ↔ Concurrent.mergeZerosAll ss = Concurrent.mergeZerosAll ts
  | [], _, ts => by cases ts <;> simp [Concurrent.eqvAll, Concurrent.mergeZerosAll]
  | s :: ss, ok, ts => by
      simp only [Concurrent.passesAll, Bool.and_eq_true] at ok
      cases ts <;>
        simp [Concurrent.eqvAll, Concurrent.mergeZerosAll, s.eqv_iff_mergeZeros ok.1,
          Concurrent.eqvAll_iff_mergeZeros ss ok.2]
termination_by structural x => x

end

mutual

theorem Concurrent.mergeZeros_eq : ∀ s : Concurrent, s.passes .unsignedZeros = true →
    s.mergeZeros = s
  | .block label ports portMap items body, ok => by
      simp only [Concurrent.passes, Bool.and_eq_true] at ok
      rw [Concurrent.mergeZeros, Association.compared.list.merge_eq portMap ok.1.1.2,
        BlockItem.compared.list.merge_eq items ok.1.2, Concurrent.mergeZerosAll_eq body ok.2]
  | .process p, ok => by rw [Concurrent.mergeZeros, Process.compared.merge_eq p ok]
  | .assign a, ok => by rw [Concurrent.mergeZeros, Assignment.compared.merge_eq a ok]
  | .instantiate i, ok => by rw [Concurrent.mergeZeros, Instance.compared.merge_eq i ok]
  | .generate label scheme items body, ok => by
      simp only [Concurrent.passes, Bool.and_eq_true] at ok
      rw [Concurrent.mergeZeros, Scheme.compared.merge_eq scheme ok.1.1.2,
        BlockItem.compared.list.merge_eq items ok.1.2, Concurrent.mergeZerosAll_eq body ok.2]
termination_by structural x => x

theorem Concurrent.mergeZerosAll_eq : ∀ ss : List Concurrent,
    Concurrent.passesAll .unsignedZeros ss = true →
    Concurrent.mergeZerosAll ss = ss
  | [], _ => rfl
  | s :: ss, ok => by
      simp only [Concurrent.passesAll, Bool.and_eq_true] at ok
      rw [Concurrent.mergeZerosAll, s.mergeZeros_eq ok.1, Concurrent.mergeZerosAll_eq ss ok.2]
termination_by structural x => x

end

theorem Concurrent.compared : ComparedBy Concurrent.mergeZeros Concurrent.passes :=
  ⟨Concurrent.eqv_iff_mergeZeros, Concurrent.mergeZeros_eq⟩

end Concurrent

section Units

def ContextItem.mergeZeros : ContextItem → ContextItem
  | .library i => .library i
  | .use n s => .use n.mergeZeros s

def LibraryUnit.mergeZeros : LibraryUnit → LibraryUnit
  | .entity u => .entity u
  | .architecture u =>
      .architecture
        { u with
          items := u.items.map BlockItem.mergeZeros
          body := u.body.map Concurrent.mergeZeros }
  | .package u => .package { u with items := u.items.map PackageItem.mergeZeros }
  | .packageBody u => .packageBody { u with items := u.items.map PackageBodyItem.mergeZeros }

def Design.mergeZeros (d : Design) : Design :=
  ⟨d.context.map ContextItem.mergeZeros, d.units.map LibraryUnit.mergeZeros⟩

theorem ContextItem.compared : ComparedBy ContextItem.mergeZeros ContextItem.passes where
  eqv_iff i ok j := by
    show i.eqv j = true ↔ i.mergeZeros = j.mergeZeros
    cases i with
    | library i => cases j <;> simp [ContextItem.eqv, ContextItem.mergeZeros]
    | use n s =>
      simp only [ContextItem.passes, Bool.and_eq_true] at ok
      cases j <;> simp [ContextItem.eqv, ContextItem.mergeZeros, Name.compared.eqv_iff n ok.1]
  merge_eq i ok := by
    cases i with
    | library i => rfl
    | use n s =>
      simp only [ContextItem.passes, Bool.and_eq_true] at ok
      rw [ContextItem.mergeZeros, Name.compared.merge_eq n ok.1]

theorem LibraryUnit.compared : ComparedBy LibraryUnit.mergeZeros LibraryUnit.passes where
  eqv_iff u ok v := by
    show u.eqv v = true ↔ u.mergeZeros = v.mergeZeros
    cases u with
    | entity u =>
      obtain ⟨name, ports⟩ := u
      rcases v with ⟨_, _⟩ | _ | _ | _ <;> simp [LibraryUnit.eqv, LibraryUnit.mergeZeros]
    | architecture u =>
      obtain ⟨name, entity, items, body⟩ := u
      simp only [LibraryUnit.passes, Bool.and_eq_true] at ok
      rcases v with _ | ⟨_, _, _, _⟩ | _ | _ <;>
        simp [LibraryUnit.eqv, LibraryUnit.mergeZeros, BlockItem.compared.list.eqv_iff items ok.1.2,
          Concurrent.compared.list.eqv_iff body ok.2, and_assoc]
    | package u =>
      obtain ⟨name, items⟩ := u
      simp only [LibraryUnit.passes, Bool.and_eq_true] at ok
      rcases v with _ | _ | ⟨_, _⟩ | _ <;>
        simp [LibraryUnit.eqv, LibraryUnit.mergeZeros, PackageItem.compared.list.eqv_iff items ok.2]
    | packageBody u =>
      obtain ⟨name, items⟩ := u
      simp only [LibraryUnit.passes, Bool.and_eq_true] at ok
      rcases v with _ | _ | _ | ⟨_, _⟩ <;>
        simp [LibraryUnit.eqv, LibraryUnit.mergeZeros,
          PackageBodyItem.compared.list.eqv_iff items ok.2]
  merge_eq u ok := by
    cases u with
    | entity u => rfl
    | architecture u =>
      simp only [LibraryUnit.passes, Bool.and_eq_true] at ok
      rw [LibraryUnit.mergeZeros, BlockItem.compared.list.merge_eq u.items ok.1.2,
        Concurrent.compared.list.merge_eq u.body ok.2]
    | package u =>
      simp only [LibraryUnit.passes, Bool.and_eq_true] at ok
      rw [LibraryUnit.mergeZeros, PackageItem.compared.list.merge_eq u.items ok.2]
    | packageBody u =>
      simp only [LibraryUnit.passes, Bool.and_eq_true] at ok
      rw [LibraryUnit.mergeZeros, PackageBodyItem.compared.list.merge_eq u.items ok.2]

theorem Design.compared : ComparedBy Design.mergeZeros Design.passes where
  eqv_iff d ok e := by
    obtain ⟨context, units⟩ := d
    obtain ⟨context', units'⟩ := e
    simp only [Design.passes, Bool.and_eq_true] at ok
    show Design.eqv _ _ = true ↔ _
    simp [Design.eqv, Design.mergeZeros, ContextItem.compared.list.eqv_iff context ok.1,
      LibraryUnit.compared.list.eqv_iff units ok.2]
  merge_eq d ok := by
    simp only [Design.passes, Bool.and_eq_true] at ok
    rw [Design.mergeZeros, ContextItem.compared.list.merge_eq d.context ok.1,
      LibraryUnit.compared.list.merge_eq d.units ok.2]

end Units

end Vhdl93
