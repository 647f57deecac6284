import Vhdl93.Design.Layout
import Vhdl93.Proofs.Inline.Text
import Vhdl93.Proofs.Layout.Outline

set_option autoImplicit false

namespace Vhdl93

open Layout

theorem Name.placed_callDoc (n : Name) (as : List Association) : Placed (n.callDoc as).outline := by
  unfold Name.callDoc
  split
  · exact Doc.placed_text _
  · exact Doc.placed_list n.text ";" _

mutual

theorem Sequential.placed : ∀ s : Sequential, Placed s.doc.outline
  | .conditional c body elsifs otherwise => by
      have statements : Placed (Doc.lines (Sequential.docs body)).outline :=
        Doc.placed_lines (Sequential.placedAll body)
      have branches : Placed (Doc.concat (Branch.docs elsifs)).outline :=
        Doc.placed_concat (Branch.placedAll elsifs)
      have last : Placed (Sequential.elseDoc otherwise).outline := Sequential.placedElse otherwise
      have opened := ((Doc.placed_text ("if " ++ c.text ++ " then")).append statements).append
        branches
      exact ((opened.append last).append Doc.placed_line).append (Doc.placed_text "end if;")
  | .selection e alternatives => Doc.placed_block _ _ (Alternative.placedAll alternatives)
  | .ret none => Doc.placed_text _
  | .ret (some e) => Doc.placed_text _
  | .forLoop i r body => Doc.placed_block _ _ (Sequential.placedAll body)
  | .assign n e => Doc.placed_text _
  | .wait e => Doc.placed_text _
  | .drive n w => Doc.placed_text _
  | .call n as => n.placed_callDoc as
  | .null => Doc.placed_text _

theorem Branch.placed : ∀ b : Branch, Placed b.doc.outline
  | .mk c body => by
      have statements : Placed (Doc.lines (Sequential.docs body)).outline :=
        Doc.placed_lines (Sequential.placedAll body)
      exact .gap (.fragment _ statements)

theorem Alternative.placed : ∀ a : Alternative, Placed a.doc.outline
  | .mk choices body => by
      have statements : Placed (Doc.lines (Sequential.docs body)).outline :=
        Doc.placed_lines (Sequential.placedAll body)
      exact .fragment _ statements

theorem Sequential.placedElse : ∀ body : Option (List Sequential),
    Placed (Sequential.elseDoc body).outline
  | none => Doc.placed_text _
  | some body => by
      have statements : Placed (Doc.lines (Sequential.docs body)).outline :=
        Doc.placed_lines (Sequential.placedAll body)
      exact .gap (.fragment "else" statements)

theorem Sequential.placedAll : ∀ ss : List Sequential, ∀ d ∈ Sequential.docs ss, Placed d.outline
  | [] => by simp [Sequential.docs]
  | s :: ss => by
      have first := s.placed
      have later := Sequential.placedAll ss
      simpa [Sequential.docs, first] using later

theorem Branch.placedAll : ∀ bs : List Branch, ∀ d ∈ Branch.docs bs, Placed d.outline
  | [] => by simp [Branch.docs]
  | b :: bs => by
      have first := b.placed
      have later := Branch.placedAll bs
      simpa [Branch.docs, first] using later

theorem Alternative.placedAll : ∀ as : List Alternative, ∀ d ∈ Alternative.docs as, Placed d.outline
  | [] => by simp [Alternative.docs]
  | a :: as => by
      have first := a.placed
      have later := Alternative.placedAll as
      simpa [Alternative.docs, first] using later

end

theorem TypeDef.placed (head : String) (t : TypeDef) : Placed (t.doc head).outline := by
  cases t with
  | enumeration ls => exact Doc.placed_list head ";" _
  | integer r => exact Doc.placed_text _
  | unconstrainedArray is element => exact Doc.placed_text _
  | constrainedArray rs element => exact Doc.placed_text _
  | record fs => exact Doc.placed_block _ _ (Doc.placed_map fs fun f => Doc.placed_text _)

theorem PackageItem.placed (i : PackageItem) : Placed i.doc.outline := by
  cases i with
  | typeDecl d => exact TypeDef.placed _ _
  | subtypeDecl | constantDecl | subprogramDecl => exact Doc.placed_text _

mutual

theorem SubprogramBody.placed : ∀ b : SubprogramBody, Placed b.doc.outline
  | .mk _ items body =>
      Doc.placed_region _ _ (SubprogramItem.placedAll items) (Doc.placed_map body Sequential.placed)

theorem SubprogramItem.placed : ∀ i : SubprogramItem, Placed i.doc.outline
  | .variableDecl _ => Doc.placed_text _
  | .constantDecl _ => Doc.placed_text _
  | .subprogram b => b.placed

theorem SubprogramItem.placedAll : ∀ is : List SubprogramItem, ∀ d ∈ SubprogramItem.docs is,
    Placed d.outline
  | [] => by simp [SubprogramItem.docs]
  | i :: is => by
      have first := i.placed
      have later := SubprogramItem.placedAll is
      simpa [SubprogramItem.docs, first] using later

end

theorem PackageBodyItem.placed (i : PackageBodyItem) : Placed i.doc.outline := by
  cases i with
  | constantDecl d => exact Doc.placed_text _
  | subprogram b => exact b.placed

theorem BlockItem.placed (i : BlockItem) : Placed i.doc.outline := by
  cases i with
  | signalDecl | constantDecl | subtypeDecl => exact Doc.placed_text _
  | typeDecl d => exact TypeDef.placed _ _
  | subprogram b => exact b.placed

theorem Port.placed_clauseDoc (ps : List Port) : Placed (Port.clauseDoc ps).outline := by
  apply Doc.placed_block
  fun_induction Port.docs ps with
  | case1 => simp
  | case2 p => simpa using Doc.placed_text _
  | case3 p ps _ ih => simpa using ⟨Doc.placed_text _, ih⟩

theorem Association.placed_mapDoc (as : List Association) :
    Placed (Association.mapDoc as).outline :=
  Doc.placed_list "port map " ";" _

theorem Process.placed (p : Process) : Placed p.doc.outline :=
  Doc.placed_region _ _ (Doc.placed_map p.items SubprogramItem.placed)
    (Doc.placed_map p.body Sequential.placed)

theorem Assignment.placed (a : Assignment) : Placed a.doc.outline := by
  unfold Assignment.doc
  split
  · exact Doc.placed_text _
  · next first rest _ =>
    have parts : Placed (Doc.concat ((rest ++ [a.lastText]).map Assignment.elseDoc)).outline :=
      Doc.placed_concat (Doc.placed_map _ fun part => .gap (Doc.placed_text _))
    exact ((Doc.placed_text _).append parts).append (Doc.placed_text ";")

theorem Instance.placed (i : Instance) : Placed i.doc.outline :=
  .fragment _ (.gap (Association.placed_mapDoc i.portMap))

theorem BlockItem.placed_generateDoc (items : List BlockItem) :
    Placed (BlockItem.generateDoc items).outline := by
  unfold BlockItem.generateDoc
  split
  · exact Doc.placed_text _
  · have declared : Placed (Doc.lines (items.map BlockItem.doc)).outline :=
      Doc.placed_lines (Doc.placed_map items BlockItem.placed)
    exact (declared.append Doc.placed_line).append (Doc.placed_text "begin")

mutual

theorem Concurrent.placed : ∀ s : Concurrent, Placed s.doc.outline
  | .block label ports portMap items body => by
      have opening : ∀ d ∈ Port.blockDocs ports portMap ++ items.map BlockItem.doc,
          Placed d.outline := by
        intro d member
        rcases List.mem_append.mp member with clause | item
        · unfold Port.blockDocs at clause
          split at clause
          · cases clause
          · simp only [List.mem_cons, List.not_mem_nil, or_false] at clause
            rcases clause with rfl | rfl
            · exact Port.placed_clauseDoc ports
            · exact Association.placed_mapDoc portMap
        · exact Doc.placed_map items BlockItem.placed d item
      exact Doc.placed_region _ _ opening (Concurrent.placedAll body)
  | .process p => p.placed
  | .assign a => a.placed
  | .instantiate i => i.placed
  | .generate label scheme items body => by
      have statements : Placed (Doc.lines (Concurrent.docs body)).outline :=
        Doc.placed_lines (Concurrent.placedAll body)
      have opened := ((Doc.placed_text (label.render ++ " : " ++ scheme.text ++ " generate")).append
        (BlockItem.placed_generateDoc items)).append statements
      exact (opened.append Doc.placed_line).append (Doc.placed_text "end generate;")

theorem Concurrent.placedAll : ∀ ss : List Concurrent, ∀ d ∈ Concurrent.docs ss, Placed d.outline
  | [] => by simp [Concurrent.docs]
  | s :: ss => by
      have first := s.placed
      have later := Concurrent.placedAll ss
      simpa [Concurrent.docs, first] using later

end

theorem LibraryUnit.placed (u : LibraryUnit) : Placed u.doc.outline := by
  cases u with
  | entity u =>
    apply Doc.placed_block
    split
    · simp
    · simpa using Port.placed_clauseDoc u.ports
  | architecture u =>
    exact Doc.placed_region _ _ (Doc.placed_map u.items BlockItem.placed)
      (Doc.placed_map u.body Concurrent.placed)
  | package u => exact Doc.placed_block _ _ (Doc.placed_map u.items PackageItem.placed)
  | packageBody u => exact Doc.placed_block _ _ (Doc.placed_map u.items PackageBodyItem.placed)

theorem ContextItem.placed_clauseDoc (items : List ContextItem) :
    Placed (ContextItem.clauseDoc items).outline :=
  Doc.placed_joined (Doc.placed_map items fun item => Doc.placed_text item.text)

theorem LibraryUnit.placed_docIn (context : List ContextItem) (u : LibraryUnit) :
    Placed (u.docIn context).outline := by
  unfold LibraryUnit.docIn
  split
  · exact u.placed
  · exact ((ContextItem.placed_clauseDoc context).append Doc.placed_line).append u.placed

theorem Design.placed (d : Design) : Placed d.doc.outline := by
  unfold Design.doc
  split
  · exact ContextItem.placed_clauseDoc d.context
  · next first rest _ =>
    have later : Placed (Doc.concat (rest.map fun u => .text "\n" ++ .line ++
        u.docIn d.context)).outline :=
      Doc.placed_concat (Doc.placed_map rest fun u => .fragment "\n"
        (.gap (u.placed_docIn d.context)))
    exact (first.placed_docIn d.context).append later

theorem Name.flat_callDoc (n : Name) (as : List Association) :
    (n.callDoc as).flat = (Expr.call n as).text ++ ";" := by
  cases as with
  | nil => simp [Name.callDoc, Doc.flat, Expr.text, Expr.pieces, Pieces.arguments, Name.text]
  | cons a as =>
    have closing : ");" = ")" ++ ";" := rfl
    have arguments : Association.text = Pieces.text ∘ Association.pieces := rfl
    simp [Name.callDoc, Expr.text, Expr.pieces, Pieces.arguments, Name.text, closing, arguments,
      String.append_assoc]

def Instance.header (i : Instance) : String := i.label.render ++ " : " ++ i.unit.text

theorem Instance.fills_header (i : Instance) {portMap : String}
    (fills : Fills (Association.mapDoc i.portMap).outline portMap) :
    Fills i.doc.outline (i.header ++ " " ++ portMap) := by
  rw [String.append_assoc]
  exact .fragment _ (.gap (by simp [IsWhite]) (by simp) fills)

/-- Two configurations give a design the same fragments and the same words. A call is written as its
text with a semicolon, and an instance as its header, a blank and its port map, up to white space
too, from whatever session each is written. -/
theorem Layout.configurations_respace :
    (∀ (d : Design) (c c' : Config), Respaced d.doc.outline (d.render c) (d.render c') ∧
        words [] (d.render c).toList = words [] (d.render c').toList) ∧
      (∀ (s : Session) (n : Name) (as : List Association), ∃ t, s.write (n.callDoc as) = .ok t ∧
        Respaced (n.callDoc as).outline (t.addedSince s) ((Expr.call n as).text ++ ";")) ∧
      ∀ (s s' : Session) (i : Instance), ∃ t t', s.write i.doc = .ok t ∧
        s'.write (Association.mapDoc i.portMap) = .ok t' ∧
        Respaced i.doc.outline (t.addedSince s) (i.header ++ " " ++ t'.addedSince s') := by
  refine ⟨?_, ?_, ?_⟩
  · intro d c c'
    have respaced : Respaced d.doc.outline (d.render c) (d.render c') :=
      ⟨d.placed, d.doc.fills_render c 0 0, d.doc.fills_render c' 0 0⟩
    exact ⟨respaced, respaced.same_words⟩
  · intro s n as
    refine ⟨_, s.write_eq _, n.placed_callDoc as, ?_, ?_⟩
    · rw [Session.addedSince_push]
      exact Doc.fills_render _ _ _ _
    · rw [← n.flat_callDoc as]
      exact Doc.fills_flat _
  · intro s s' i
    refine ⟨_, _, s.write_eq _, s'.write_eq _, i.placed, ?_, ?_⟩
    · rw [Session.addedSince_push]
      exact Doc.fills_render _ _ _ _
    · rw [Session.addedSince_push]
      exact i.fills_header (Doc.fills_render _ _ _ _)

end Vhdl93
