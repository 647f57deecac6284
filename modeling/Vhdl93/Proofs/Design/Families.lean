import Vhdl93.Design.Layout
import Vhdl93.Layout.Session
import Vhdl93.Proofs.Design.Equality

set_option autoImplicit false

namespace Vhdl93

inductive Writing (α : Type) where
  | inline (text : α → String)
  | laid (doc : α → Doc)

def Writing.Alike {α : Type} : Writing α → α → α → Prop
  | .inline text, x, y => text x = text y
  | .laid doc, x, y => ∀ s : Session, s.write (doc x) = s.write (doc y)

theorem Writing.Alike.refl {α : Type} {w : Writing α} (x : α) : w.Alike x x := by
  cases w with
  | inline text => rfl
  | laid doc => exact fun _ => rfl

structure Family where
  Tree : Type
  [beq : BEq Tree]
  mergeZeros : Tree → Tree
  passes : Checks → Tree → Bool
  writing : Writing Tree

namespace Family

attribute [instance] beq

def inlineTrees : List Family :=
  [⟨Ident, fun i => i, Checks.ident, .inline Ident.render⟩,
    ⟨Suffix, fun s => s, Suffix.passes, .inline Suffix.text⟩,
    ⟨Literal, Literal.mergeZeros, Checks.literal, .inline Literal.text⟩,
    ⟨Name, Name.mergeZeros, Name.passes, .inline Name.text⟩,
    ⟨Range, Range.mergeZeros, Range.passes, .inline Range.text⟩,
    ⟨Expr, Expr.mergeZeros, Expr.passes, .inline Expr.text⟩,
    ⟨Choice, Choice.mergeZeros, Choice.passes, .inline Choice.text⟩,
    ⟨Element, Element.mergeZeros, Element.passes, .inline Element.text⟩,
    ⟨Actual, Actual.mergeZeros, Actual.passes, .inline Actual.text⟩,
    ⟨Association, Association.mergeZeros, Association.passes, .inline Association.text⟩,
    ⟨Constraint, Constraint.mergeZeros, Constraint.passes, .inline Constraint.text⟩,
    ⟨SubtypeIndication, SubtypeIndication.mergeZeros, SubtypeIndication.passes,
      .inline SubtypeIndication.text⟩,
    ⟨WaveformElement, WaveformElement.mergeZeros, WaveformElement.passes,
      .inline WaveformElement.text⟩,
    ⟨Waveform, Waveform.mergeZeros, Waveform.passes, .inline Waveform.text⟩,
    ⟨EnumLiteral, fun l => l, EnumLiteral.passes, .inline EnumLiteral.text⟩,
    ⟨FieldDecl, fun f => f, FieldDecl.passes, .inline FieldDecl.text⟩,
    ⟨Port, fun p => p, Port.passes, .inline Port.text⟩,
    ⟨FunctionParameter, fun p => p, FunctionParameter.passes, .inline FunctionParameter.text⟩,
    ⟨ProcedureParameter, fun p => p, ProcedureParameter.passes, .inline ProcedureParameter.text⟩,
    ⟨Spec, fun s => s, Spec.passes, .inline Spec.text⟩,
    ⟨ConditionalWaveform, ConditionalWaveform.mergeZeros, ConditionalWaveform.passes,
      .inline ConditionalWaveform.text⟩,
    ⟨InstantiatedUnit, InstantiatedUnit.mergeZeros, InstantiatedUnit.passes,
      .inline InstantiatedUnit.text⟩,
    ⟨Scheme, Scheme.mergeZeros, Scheme.passes, .inline Scheme.text⟩,
    ⟨ContextItem, ContextItem.mergeZeros, ContextItem.passes, .inline ContextItem.text⟩]

def laidTrees : List Family :=
  [⟨ObjectDecl, ObjectDecl.mergeZeros, ObjectDecl.passes, .laid (ObjectDecl.doc .constant)⟩,
    ⟨ObjectDecl, ObjectDecl.mergeZeros, ObjectDecl.passes, .laid (ObjectDecl.doc .signal)⟩,
    ⟨ObjectDecl, ObjectDecl.mergeZeros, ObjectDecl.passes, .laid (ObjectDecl.doc .variable)⟩,
    ⟨TypeDecl, TypeDecl.mergeZeros, TypeDecl.passes, .laid TypeDecl.doc⟩,
    ⟨SubtypeDecl, SubtypeDecl.mergeZeros, SubtypeDecl.passes, .laid SubtypeDecl.doc⟩,
    ⟨PackageItem, PackageItem.mergeZeros, PackageItem.passes, .laid PackageItem.doc⟩,
    ⟨Sequential, Sequential.mergeZeros, Sequential.passes, .laid Sequential.doc⟩,
    ⟨SubprogramBody, SubprogramBody.mergeZeros, SubprogramBody.passes, .laid SubprogramBody.doc⟩,
    ⟨SubprogramItem, SubprogramItem.mergeZeros, SubprogramItem.passes, .laid SubprogramItem.doc⟩,
    ⟨PackageBodyItem, PackageBodyItem.mergeZeros, PackageBodyItem.passes,
      .laid PackageBodyItem.doc⟩,
    ⟨BlockItem, BlockItem.mergeZeros, BlockItem.passes, .laid BlockItem.doc⟩,
    ⟨Process, Process.mergeZeros, Process.passes, .laid Process.doc⟩,
    ⟨Assignment, Assignment.mergeZeros, Assignment.passes, .laid Assignment.doc⟩,
    ⟨Instance, Instance.mergeZeros, Instance.passes, .laid Instance.doc⟩,
    ⟨Concurrent, Concurrent.mergeZeros, Concurrent.passes, .laid Concurrent.doc⟩,
    ⟨LibraryUnit, LibraryUnit.mergeZeros, LibraryUnit.passes, .laid LibraryUnit.doc⟩,
    ⟨Design, Design.mergeZeros, Design.passes, .laid Design.doc⟩]

def all : List Family := inlineTrees ++ laidTrees

theorem compared_inline : ∀ F ∈ inlineTrees, ComparedBy F.mergeZeros F.passes := by
  simp only [inlineTrees, List.forall_mem_cons]
  exact ⟨.id, .id, Literal.compared, Name.compared, Range.compared, Expr.compared, Choice.compared,
    Element.compared, Actual.compared, Association.compared, Constraint.compared,
    SubtypeIndication.compared, WaveformElement.compared, Waveform.compared, .id, .id, .id, .id,
    .id, .id, ConditionalWaveform.compared, InstantiatedUnit.compared, Scheme.compared,
    ContextItem.compared, List.forall_mem_nil _⟩

theorem compared_laid : ∀ F ∈ laidTrees, ComparedBy F.mergeZeros F.passes := by
  simp only [laidTrees, List.forall_mem_cons]
  exact ⟨ObjectDecl.compared, ObjectDecl.compared, ObjectDecl.compared, TypeDecl.compared,
    SubtypeDecl.compared, PackageItem.compared, Sequential.compared, SubprogramBody.compared,
    SubprogramItem.compared, PackageBodyItem.compared, BlockItem.compared, Process.compared,
    Assignment.compared, Instance.compared, Concurrent.compared, LibraryUnit.compared,
    Design.compared, List.forall_mem_nil _⟩

theorem compared {F : Family} (known : F ∈ all) : ComparedBy F.mergeZeros F.passes := by
  obtain inline | laid := List.mem_append.1 known
  · exact compared_inline F inline
  · exact compared_laid F laid

/-- Without a NaN, equality is an equivalence, and it is identity once each negative zero is made
zero. Without a negative zero, equal trees are written alike. -/
theorem equality_lawful (F : Family) (known : F ∈ all) :
    (∀ x : F.Tree, F.passes .numeric x = true → (x == x) = true) ∧
    (∀ x y : F.Tree, F.passes .numeric x = true → F.passes .numeric y = true →
      (x == y) = true → (y == x) = true) ∧
    (∀ x y z : F.Tree, F.passes .numeric x = true → F.passes .numeric y = true →
      F.passes .numeric z = true → (x == y) = true → (y == z) = true → (x == z) = true) ∧
    (∀ x y : F.Tree, F.passes .numeric x = true → F.passes .numeric y = true →
      ((x == y) = true ↔ F.mergeZeros x = F.mergeZeros y)) ∧
    ∀ x y : F.Tree, F.passes .numeric x = true → F.passes .numeric y = true →
      F.passes .unsignedZeros x = true → F.passes .unsignedZeros y = true → (x == y) = true →
      F.writing.Alike x y := by
  have laws := compared known
  refine ⟨fun x okx => ?_, fun x y okx oky same => ?_, fun x y z okx oky _ first second => ?_,
    fun x y okx _ => laws.eqv_iff x okx y, fun x y okx _ cleanx cleany same => ?_⟩
  · exact (laws.eqv_iff x okx x).2 rfl
  · exact (laws.eqv_iff y oky x).2 ((laws.eqv_iff x okx y).1 same).symm
  · have left := (laws.eqv_iff x okx y).1 first
    have right := (laws.eqv_iff y oky z).1 second
    exact (laws.eqv_iff x okx z).2 (left.trans right)
  · have identical := (laws.eqv_iff x okx y).1 same
    rw [laws.merge_eq x cleanx, laws.merge_eq y cleany] at identical
    rw [identical]
    exact .refl y

theorem equality_lawful_at_zeros :
    let F : Family := ⟨Expr, Expr.mergeZeros, Expr.passes, .inline Expr.text⟩
    let signed : Expr := .allOthers (.literal (.real Binary64.minusZero))
    let unsigned : Expr := .allOthers (.literal (.real Binary64.zero))
    F ∈ all ∧ F.passes .numeric signed = true ∧ F.passes .numeric unsigned = true ∧
      F.passes .unsignedZeros unsigned = true ∧ (signed == signed) = true ∧
      (signed == unsigned) = true ∧ (unsigned == signed) = true ∧ (unsigned == unsigned) = true ∧
      F.writing.Alike unsigned unsigned := by
  intro F signed unsigned
  have known : F ∈ all := List.mem_append_left _ (by simp [F, inlineTrees])
  have number : F.passes .numeric signed = true := rfl
  have number' : F.passes .numeric unsigned = true := rfl
  have clean : F.passes .unsignedZeros unsigned = true := rfl
  obtain ⟨reflexive, symmetric, transitive, identical, alike⟩ := equality_lawful F known
  have same : (signed == unsigned) = true := (identical signed unsigned number number').2 rfl
  have back := symmetric signed unsigned number number' same
  have loop := transitive unsigned signed unsigned number' number number' back same
  exact ⟨known, number, number', clean, reflexive signed number, same, back, loop,
    alike unsigned unsigned number' number' clean clean loop⟩

end Family

end Vhdl93
