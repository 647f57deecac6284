import Vhdl93.Proofs.Layout.Writing

set_option autoImplicit false

/-!
Places in a design. A place is a design with one construct left open, at the depth at which the
construct is nested. Whatever stands there, the text before it and the text behind it are the same,
and it starts in the column of its depth.
-/

namespace Vhdl93

namespace Doc

def ColumnFree (d : Doc) : Prop :=
  ∀ (config : Config) (depth column column' : Nat),
    d.render config depth column = d.render config depth column'

theorem columnFree_text (s : String) : (text s).ColumnFree := fun _ _ _ _ => rfl

theorem columnFree_line : line.ColumnFree := fun _ _ _ _ => rfl

theorem ColumnFree.nest {d : Doc} (free : d.ColumnFree) : d.nest.ColumnFree :=
  fun config depth => free config (depth + 1)

theorem ColumnFree.append {a b : Doc} (left : a.ColumnFree) (right : b.ColumnFree) :
    (a ++ b).ColumnFree := by
  intro config depth column column'
  rw [render_append, render_append, left config depth column column']
  congr 1
  exact right config depth _ _

theorem ColumnFree.line_append {a : Doc} (free : a.ColumnFree) (d : Doc) :
    (a ++ .line ++ d).ColumnFree := by
  intro config depth column column'
  simp [free config depth column column']

theorem columnFree_lines (ds : List Doc) : (lines ds).ColumnFree := by
  intro config depth column column'
  rw [render_lines, render_lines]

theorem columnFree_concat {ds : List Doc} (each : ∀ d ∈ ds, d.ColumnFree) :
    (concat ds).ColumnFree := by
  induction ds with
  | nil => exact columnFree_text ""
  | cons d ds ih =>
    have first := each d List.mem_cons_self
    exact first.append (ih fun e member => each e (List.mem_cons_of_mem d member))

theorem columnFree_headed (head : String) (ds : List Doc) :
    (text head ++ nest (lines ds)).ColumnFree :=
  (columnFree_text head).append (columnFree_lines ds).nest

theorem columnFree_block (head : String) (body : List Doc) (closing : String) :
    (block head body closing).ColumnFree :=
  (columnFree_headed head body).line_append _

/-- The argument of `f` starts a line that is `levels` deeper, and nothing else depends on it. -/
def Shows (levels : Nat) (f : Doc → Doc) : Prop :=
  ∀ (config : Config) (depth column : Nat), ∃ before after,
    Text.advance column before = config.indentSize * (depth + levels) ∧
      ∀ d, (f d).render config depth column =
        before ++ d.render config (depth + levels) (config.indentSize * (depth + levels)) ++ after

variable {levels : Nat} {f : Doc → Doc}

theorem shows_lines (ds es : List Doc) : Shows 0 fun d => lines (ds ++ d :: es) := by
  intro config depth column
  let row (d : Doc) : String := Text.breakWith (config.indentSize * depth) ++
    d.render config depth (config.indentSize * depth)
  refine ⟨String.join (ds.map row) ++ Text.breakWith (config.indentSize * depth),
    String.join (es.map row), by simp, ?_⟩
  intro d
  simp [render_lines, row, String.append_assoc]

theorem Shows.nest (shown : Shows levels f) : Shows (levels + 1) fun d => .nest (f d) := by
  intro config depth column
  obtain ⟨before, after, start, rendered⟩ := shown config (depth + 1) column
  have deeper : depth + (levels + 1) = depth + 1 + levels := by omega
  rw [deeper]
  exact ⟨before, after, start, rendered⟩

theorem Shows.after (shown : Shows levels f) (a : Doc) : Shows levels fun d => a ++ f d := by
  intro config depth column
  obtain ⟨before, after, start, rendered⟩ :=
    shown config depth (Text.advance column (a.render config depth column))
  refine ⟨a.render config depth column ++ before, after, by simpa using start, ?_⟩
  intro d
  rw [render_append, rendered]
  simp only [String.append_assoc]

theorem Shows.before (shown : Shows levels f) {b : Doc} (free : b.ColumnFree) :
    Shows levels fun d => f d ++ b := by
  intro config depth column
  obtain ⟨before, after, start, rendered⟩ := shown config depth column
  refine ⟨before, after ++ b.render config depth 0, start, ?_⟩
  intro d
  rw [render_append, rendered, free config depth _ 0]
  simp only [String.append_assoc]

theorem shows_line (a : Doc) : Shows 0 fun d => a ++ .line ++ d := by
  intro config depth column
  refine ⟨a.render config depth column ++ Text.breakWith (config.indentSize * depth), "",
    by simp, ?_⟩
  intro d
  simp

theorem Shows.concat (shown : Shows levels f) (ds : List Doc) {es : List Doc}
    (free : ∀ e ∈ es, e.ColumnFree) : Shows levels fun d => concat (ds ++ f d :: es) := by
  induction ds with
  | nil => exact shown.before (columnFree_concat free)
  | cons d ds ih => exact ih.after d

theorem Shows.closed (shown : Shows levels f) (closing : String) :
    Shows levels fun d => f d ++ .line ++ .text closing :=
  (shown.before columnFree_line).before (columnFree_text closing)

theorem shows_headed (head : String) (ds es : List Doc) :
    Shows 1 fun d => .text head ++ .nest (lines (ds ++ d :: es)) :=
  (shows_lines ds es).nest.after _

theorem shows_block (head : String) (ds es : List Doc) (closing : String) :
    Shows 1 fun d => block head (ds ++ d :: es) closing :=
  (shows_headed head ds es).closed closing

theorem shows_region_items (head : String) (ds es body : List Doc) (closing : String) :
    Shows 1 fun d => region head (ds ++ d :: es) body closing :=
  ((shows_headed head ds es).before columnFree_line).before (columnFree_block _ body closing)

theorem shows_region_body (head : String) (items ds es : List Doc) (closing : String) :
    Shows 1 fun d => region head items (ds ++ d :: es) closing :=
  (shows_block "begin" ds es closing).after _

end Doc

namespace Layout

/-- A design with a construct left open, and the depth at which the construct is nested: a unit
stands at zero, what a construct holds stands one level deeper than the construct, and what is only
another view of a construct stands where the construct does. -/
inductive Place : (κ : Kind) → Nat → (κ.Tree → Design) → Prop where
  | unit (context : List ContextItem) (us vs : List LibraryUnit) :
      Place .unit 0 fun u => ⟨context, us ++ u :: vs⟩
  | entityPorts {k f} (outer : Place .unit k f) (name : Ident) :
      Place .ports (k + 1) fun ps => f (.entity ⟨name, ps.val⟩)
  | architectureItem {k f} (outer : Place .unit k f)
      (name entity : Ident) (is js : List BlockItem) (body : List Concurrent) :
      Place .blockItem (k + 1) fun i => f (.architecture ⟨name, entity, is ++ i :: js, body⟩)
  | architectureBody {k f} (outer : Place .unit k f)
      (name entity : Ident) (items : List BlockItem) (ss ts : List Concurrent) :
      Place .concurrent (k + 1) fun s => f (.architecture ⟨name, entity, items, ss ++ s :: ts⟩)
  | packageItem {k f} (outer : Place .unit k f) (name : Ident)
      (is js : List PackageItem) :
      Place .packageItem (k + 1) fun i => f (.package ⟨name, is ++ i :: js⟩)
  | packageBodyItem {k f} (outer : Place .unit k f) (name : Ident)
      (is js : List PackageBodyItem) :
      Place .packageBodyItem (k + 1) fun i => f (.packageBody ⟨name, is ++ i :: js⟩)
  | blockPorts {k f} (outer : Place .concurrent k f) (label : Ident)
      (portMap : List Association) (items : List BlockItem) (body : List Concurrent) :
      Place .ports (k + 1) fun ps => f (.block label ps.val portMap items body)
  | blockMap {k f} (outer : Place .concurrent k f) (label : Ident)
      {ports : List Port} (some : ports ≠ []) (items : List BlockItem) (body : List Concurrent) :
      Place .portMap (k + 1) fun as => f (.block label ports as items body)
  | blockItem {k f} (outer : Place .concurrent k f) (label : Ident)
      (ports : List Port) (portMap : List Association) (is js : List BlockItem)
      (body : List Concurrent) :
      Place .blockItem (k + 1) fun i => f (.block label ports portMap (is ++ i :: js) body)
  | blockBody {k f} (outer : Place .concurrent k f) (label : Ident)
      (ports : List Port) (portMap : List Association) (items : List BlockItem)
      (ss ts : List Concurrent) :
      Place .concurrent (k + 1) fun s => f (.block label ports portMap items (ss ++ s :: ts))
  | processItem {k f} (outer : Place .concurrent k f) (label : Ident)
      (sensitivity : List Ident) (is js : List SubprogramItem) (body : List Sequential) :
      Place .subprogramItem (k + 1) fun i => f (.process ⟨label, sensitivity, is ++ i :: js, body⟩)
  | processBody {k f} (outer : Place .concurrent k f) (label : Ident)
      (sensitivity : List Ident) (items : List SubprogramItem) (ss ts : List Sequential) :
      Place .sequential (k + 1) fun s => f (.process ⟨label, sensitivity, items, ss ++ s :: ts⟩)
  | generateItem {k f} (outer : Place .concurrent k f) (label : Ident)
      (scheme : Scheme) (is js : List BlockItem) (body : List Concurrent) :
      Place .blockItem (k + 1) fun i => f (.generate label scheme (is ++ i :: js) body)
  | generateBody {k f} (outer : Place .concurrent k f) (label : Ident)
      (scheme : Scheme) (items : List BlockItem) (ss ts : List Concurrent) :
      Place .concurrent (k + 1) fun s => f (.generate label scheme items (ss ++ s :: ts))
  | blockType {k f} (outer : Place .blockItem k f) :
      Place .typeDecl k fun d => f (.typeDecl d)
  | packageType {k f} (outer : Place .packageItem k f) :
      Place .typeDecl k fun d => f (.typeDecl d)
  | blockSubprogram {k f} (outer : Place .blockItem k f) :
      Place .subprogram k fun b => f (.subprogram b)
  | packageSubprogram {k f} (outer : Place .packageBodyItem k f) :
      Place .subprogram k fun b => f (.subprogram b)
  | innerSubprogram {k f} (outer : Place .subprogramItem k f) :
      Place .subprogram k fun b => f (.subprogram b)
  | subprogramItem {k f} (outer : Place .subprogram k f)
      (spec : Spec) (is js : List SubprogramItem) (body : List Sequential) :
      Place .subprogramItem (k + 1) fun i => f (.mk spec (is ++ i :: js) body)
  | subprogramBody {k f} (outer : Place .subprogram k f)
      (spec : Spec) (items : List SubprogramItem) (ss ts : List Sequential) :
      Place .sequential (k + 1) fun s => f (.mk spec items (ss ++ s :: ts))
  | thenBranch {k f} (outer : Place .sequential k f) (condition : Expr)
      (ss ts : List Sequential) (elsifs : List Branch) (otherwise : Option (List Sequential)) :
      Place .sequential (k + 1) fun s => f (.conditional condition (ss ++ s :: ts) elsifs otherwise)
  | elsifBranch {k f} (outer : Place .sequential k f)
      (condition inner : Expr) (body ss ts : List Sequential) (bs cs : List Branch)
      (otherwise : Option (List Sequential)) :
      Place .sequential (k + 1) fun s =>
        f (.conditional condition body (bs ++ .mk inner (ss ++ s :: ts) :: cs) otherwise)
  | elseBranch {k f} (outer : Place .sequential k f) (condition : Expr)
      (body ss ts : List Sequential) (elsifs : List Branch) :
      Place .sequential (k + 1) fun s => f (.conditional condition body elsifs (some (ss ++ s :: ts)))
  | loopBody {k f} (outer : Place .sequential k f) (index : Ident)
      (range : Range) (ss ts : List Sequential) :
      Place .sequential (k + 1) fun s => f (.forLoop index range (ss ++ s :: ts))
  | alternative {k f} (outer : Place .sequential k f)
      (selector : Expr) (as bs : List Alternative) :
      Place .alternative (k + 1) fun a => f (.selection selector (as ++ a :: bs))
  | alternativeBody {k f} (outer : Place .alternative k f)
      (choices : List Choice) (ss ts : List Sequential) :
      Place .sequential (k + 1) fun s => f (.mk choices (ss ++ s :: ts))

/-- What is put in for the argument of `f` is rendered between two fixed texts, from the column of
its depth on. -/
def Opens (κ : Kind) (k : Nat) (f : κ.Tree → Design) : Prop :=
  ∀ config : Config, ∃ before after,
    Text.column before = config.indentSize * k ∧
      ∀ x, (f x).render config = before ++ κ.text config k x ++ after

variable {κ : Kind} {k levels : Nat} {f : κ.Tree → Design}

theorem Opens.same (opened : Opens κ k f) (κ' : Kind) (g : κ'.Tree → κ.Tree)
    (view : ∀ x, κ.doc (g x) = κ'.doc x) : Opens κ' k fun x => f (g x) := by
  intro config
  obtain ⟨before, after, start, rendered⟩ := opened config
  refine ⟨before, after, start, ?_⟩
  intro x
  rw [rendered, Kind.text, view]
  rfl

theorem Opens.inside (opened : Opens κ k f) (κ' : Kind) (g : κ'.Tree → κ.Tree) {shape : Doc → Doc}
    (shown : Doc.Shows levels shape) (view : ∀ x, κ.doc (g x) = shape (κ'.doc x)) :
    Opens κ' (k + levels) fun x => f (g x) := by
  intro config
  obtain ⟨before, after, start, rendered⟩ := opened config
  obtain ⟨inner, outer, indented, inside⟩ := shown config k (config.indentSize * k)
  refine ⟨before ++ inner, outer ++ after, by simp [start, indented], ?_⟩
  intro x
  rw [rendered, Kind.text, view, inside]
  simp only [Kind.text, String.append_assoc]

variable {head closing : String} {items body : List Doc}

theorem Opens.block_row (opened : Opens κ k f) (κ' : Kind) (g : κ'.Tree → κ.Tree)
    (xs ys : List κ'.Tree)
    (view : ∀ x, κ.doc (g x) = .block head ((xs ++ x :: ys).map κ'.doc) closing) :
    Opens κ' (k + 1) fun x => f (g x) := by
  apply opened.inside κ' g (Doc.shows_block head (xs.map κ'.doc) (ys.map κ'.doc) closing)
  intro x
  rw [view, List.map_append, List.map_cons]

theorem Opens.item_row (opened : Opens κ k f) (κ' : Kind) (g : κ'.Tree → κ.Tree)
    (front : List Doc) (xs ys : List κ'.Tree)
    (view : ∀ x, κ.doc (g x) = .region head (front ++ (xs ++ x :: ys).map κ'.doc) body closing) :
    Opens κ' (k + 1) fun x => f (g x) := by
  apply opened.inside κ' g
    (Doc.shows_region_items head (front ++ xs.map κ'.doc) (ys.map κ'.doc) body closing)
  intro x
  rw [view, List.map_append, List.map_cons, List.append_assoc]

theorem Opens.body_row (opened : Opens κ k f) (κ' : Kind) (g : κ'.Tree → κ.Tree)
    (xs ys : List κ'.Tree)
    (view : ∀ x, κ.doc (g x) = .region head items ((xs ++ x :: ys).map κ'.doc) closing) :
    Opens κ' (k + 1) fun x => f (g x) := by
  apply opened.inside κ' g
    (Doc.shows_region_body head items (xs.map κ'.doc) (ys.map κ'.doc) closing)
  intro x
  rw [view, List.map_append, List.map_cons]

def inContext (context : List ContextItem) (d : Doc) : Doc :=
  if context.isEmpty then d else ContextItem.clauseDoc context ++ .line ++ d

theorem render_inContext (context : List ContextItem) (config : Config) :
    ∃ before, Text.column before = 0 ∧
      ∀ d, (inContext context d).render config 0 0 = before ++ d.render config 0 0 := by
  unfold inContext
  split
  · exact ⟨"", rfl, fun d => by simp⟩
  · exact ⟨(ContextItem.clauseDoc context).render config 0 0 ++ Text.breakWith 0, by simp,
      fun d => by simp⟩

theorem shows_inContext (context : List ContextItem) :
    Doc.Shows 0 fun d => .text "\n" ++ .line ++ inContext context d := by
  unfold inContext
  split
  · exact Doc.shows_line _
  · exact (Doc.shows_line _).after _

theorem opens_unit (context : List ContextItem) (us vs : List LibraryUnit) :
    Opens .unit 0 fun u => ⟨context, us ++ u :: vs⟩ := by
  intro config
  have free : ∀ d ∈ vs.map fun u => .text "\n" ++ .line ++ u.docIn context, d.ColumnFree := by
    intro d member
    obtain ⟨u, -, rfl⟩ := List.mem_map.mp member
    exact (Doc.columnFree_text "\n").line_append _
  cases us with
  | nil =>
    obtain ⟨before, start, rendered⟩ := render_inContext context config
    refine ⟨before, (Doc.concat (vs.map fun u => .text "\n" ++ .line ++ u.docIn context)).render
      config 0 0, by simpa using start, ?_⟩
    intro u
    have unfolded : (Design.mk context ([] ++ u :: vs)).doc = inContext context u.doc ++
      Doc.concat (vs.map fun u => .text "\n" ++ .line ++ u.docIn context) := rfl
    rw [Design.render, unfolded, Doc.render_append, rendered,
      Doc.columnFree_concat free config 0 _ 0]
    rfl
  | cons first us =>
    have later := ((shows_inContext context).concat
      (us.map fun u => .text "\n" ++ .line ++ u.docIn context) free).after (first.docIn context)
    obtain ⟨before, after, start, rendered⟩ := later config 0 0
    refine ⟨before, after, start, ?_⟩
    intro u
    have unfolded : (Design.mk context (first :: us ++ u :: vs)).doc =
        first.docIn context ++ Doc.concat ((us ++ u :: vs).map fun u =>
          .text "\n" ++ .line ++ u.docIn context) := rfl
    rw [Design.render, unfolded, List.map_append, List.map_cons]
    exact rendered u.doc

theorem doc_architecture (name entity : Ident) (items : List BlockItem) (body : List Concurrent) :
    LibraryUnit.doc (.architecture ⟨name, entity, items, body⟩) =
      .region ("architecture " ++ name.render ++ " of " ++ entity.render ++ " is")
        (items.map BlockItem.doc) (body.map Concurrent.doc) "end architecture;" := rfl

theorem doc_package (name : Ident) (items : List PackageItem) :
    LibraryUnit.doc (.package ⟨name, items⟩) =
      .block ("package " ++ name.render ++ " is") (items.map PackageItem.doc) "end package;" := rfl

theorem doc_packageBody (name : Ident) (items : List PackageBodyItem) :
    LibraryUnit.doc (.packageBody ⟨name, items⟩) =
      .block ("package body " ++ name.render ++ " is") (items.map PackageBodyItem.doc)
        "end package body;" := rfl

theorem doc_process (label : Ident) (sensitivity : List Ident) (items : List SubprogramItem)
    (body : List Sequential) :
    Concurrent.doc (.process ⟨label, sensitivity, items, body⟩) =
      .region (label.render ++ " : process" ++ if sensitivity.isEmpty then "" else
        " (" ++ ", ".intercalate (sensitivity.map Ident.render) ++ ")")
        (items.map SubprogramItem.doc) (body.map Sequential.doc) "end process;" := rfl

theorem doc_block (label : Ident) (ports : List Port) (portMap : List Association)
    (items : List BlockItem) (body : List Concurrent) :
    Concurrent.doc (.block label ports portMap items body) =
      .region (label.render ++ " : block")
        (Port.blockDocs ports portMap ++ items.map BlockItem.doc) (body.map Concurrent.doc)
        "end block;" := by
  simp [Concurrent.doc]

theorem doc_generate (label : Ident) (scheme : Scheme) (items : List BlockItem)
    (body : List Concurrent) :
    Concurrent.doc (.generate label scheme items body) =
      .text (label.render ++ " : " ++ scheme.text ++ " generate") ++ BlockItem.generateDoc items ++
        .nest (.lines (body.map Concurrent.doc)) ++ .line ++ .text "end generate;" := by
  simp [Concurrent.doc]

theorem doc_subprogram (spec : Spec) (items : List SubprogramItem) (body : List Sequential) :
    SubprogramBody.doc (.mk spec items body) =
      .region (spec.text ++ " is") (items.map SubprogramItem.doc) (body.map Sequential.doc)
        spec.closing := by
  simp [SubprogramBody.doc]

theorem doc_conditional (condition : Expr) (body : List Sequential) (elsifs : List Branch)
    (otherwise : Option (List Sequential)) :
    Sequential.doc (.conditional condition body elsifs otherwise) =
      .text ("if " ++ condition.text ++ " then") ++ .nest (.lines (body.map Sequential.doc)) ++
        .concat (elsifs.map Branch.doc) ++ Sequential.elseDoc otherwise ++ .line ++
        .text "end if;" := by
  simp [Sequential.doc]

theorem doc_loop (index : Ident) (range : Range) (body : List Sequential) :
    Sequential.doc (.forLoop index range body) =
      .block ("for " ++ index.render ++ " in " ++ range.text ++ " loop")
        (body.map Sequential.doc) "end loop;" := by
  simp [Sequential.doc]

theorem doc_selection (selector : Expr) (alternatives : List Alternative) :
    Sequential.doc (.selection selector alternatives) =
      .block ("case " ++ selector.text ++ " is") (alternatives.map Alternative.doc)
        "end case;" := by
  simp [Sequential.doc]

theorem doc_branch (condition : Expr) (body : List Sequential) :
    Branch.doc (.mk condition body) =
      .line ++ .text ("elsif " ++ condition.text ++ " then") ++
        .nest (.lines (body.map Sequential.doc)) := by
  simp [Branch.doc]

theorem columnFree_branches (bs : List Branch) : ∀ d ∈ bs.map Branch.doc, d.ColumnFree := by
  intro d member
  obtain ⟨⟨condition, body⟩, -, rfl⟩ := List.mem_map.mp member
  rw [doc_branch]
  exact (Doc.columnFree_line.append (Doc.columnFree_text _)).append (Doc.columnFree_lines _).nest

theorem columnFree_else (otherwise : Option (List Sequential)) :
    (Sequential.elseDoc otherwise).ColumnFree := by
  cases otherwise with
  | none => exact Doc.columnFree_text ""
  | some body =>
    exact (Doc.columnFree_line.append (Doc.columnFree_text _)).append (Doc.columnFree_lines _).nest

theorem Place.opens {f : κ.Tree → Design} (place : Place κ k f) : Opens κ k f := by
  induction place with
  | unit context us vs => exact opens_unit context us vs
  | entityPorts outer name ih =>
    apply ih.inside .ports (fun ps => .entity ⟨name, ps.val⟩) (Doc.shows_block
      ("entity " ++ name.render ++ " is") [] [] "end entity;")
    intro ps
    simp [Kind.doc, LibraryUnit.doc, Entity.doc, ps.property]
  | architectureItem outer name entity is js body ih =>
    exact ih.item_row .blockItem (fun i => .architecture ⟨name, entity, is ++ i :: js, body⟩)
      [] is js fun i => doc_architecture name entity _ body
  | architectureBody outer name entity items ss ts ih =>
    exact ih.body_row .concurrent (fun s => .architecture ⟨name, entity, items, ss ++ s :: ts⟩)
      ss ts fun s => doc_architecture name entity items _
  | packageItem outer name is js ih =>
    exact ih.block_row .packageItem (fun i => .package ⟨name, is ++ i :: js⟩) is js
      fun i => doc_package name _
  | packageBodyItem outer name is js ih =>
    exact ih.block_row .packageBodyItem (fun i => .packageBody ⟨name, is ++ i :: js⟩) is js
      fun i => doc_packageBody name _
  | blockPorts outer label portMap items body ih =>
    apply ih.inside .ports (fun ps => .block label ps.val portMap items body)
      (Doc.shows_region_items (label.render ++ " : block") []
        (Association.mapDoc portMap :: items.map BlockItem.doc) (body.map Concurrent.doc)
        "end block;")
    intro ps
    simp [Kind.doc, doc_block, Port.blockDocs, ps.property]
  | @blockMap k f outer label ports some items body ih =>
    apply ih.inside .portMap (fun as => .block label ports as items body)
      (Doc.shows_region_items (label.render ++ " : block") [Port.clauseDoc ports]
        (items.map BlockItem.doc) (body.map Concurrent.doc) "end block;")
    intro as
    simp [Kind.doc, doc_block, Port.blockDocs, some]
  | blockItem outer label ports portMap is js body ih =>
    exact ih.item_row .blockItem (fun i => .block label ports portMap (is ++ i :: js) body)
      (Port.blockDocs ports portMap) is js fun i => doc_block label ports portMap _ body
  | blockBody outer label ports portMap items ss ts ih =>
    exact ih.body_row .concurrent (fun s => .block label ports portMap items (ss ++ s :: ts))
      ss ts fun s => doc_block label ports portMap items _
  | processItem outer label sensitivity is js body ih =>
    exact ih.item_row .subprogramItem (fun i => .process ⟨label, sensitivity, is ++ i :: js, body⟩)
      [] is js fun i => doc_process label sensitivity _ body
  | processBody outer label sensitivity items ss ts ih =>
    exact ih.body_row .sequential (fun s => .process ⟨label, sensitivity, items, ss ++ s :: ts⟩)
      ss ts fun s => doc_process label sensitivity items _
  | generateItem outer label scheme is js body ih =>
    have front := ((Doc.shows_lines (is.map BlockItem.doc) (js.map BlockItem.doc)).nest.closed
      "begin").after (.text (label.render ++ " : " ++ scheme.text ++ " generate"))
    have shown := front.before (Doc.columnFree_lines (body.map Concurrent.doc)).nest
    apply ih.inside .blockItem (fun i => .generate label scheme (is ++ i :: js) body)
      (shown.closed "end generate;")
    intro i
    simp [Kind.doc, doc_generate, BlockItem.generateDoc]
  | generateBody outer label scheme items ss ts ih =>
    have shown := (Doc.shows_lines (ss.map Concurrent.doc) (ts.map Concurrent.doc)).nest.after
      (.text (label.render ++ " : " ++ scheme.text ++ " generate") ++ BlockItem.generateDoc items)
    apply ih.inside .concurrent (fun s => .generate label scheme items (ss ++ s :: ts))
      (shown.closed "end generate;")
    intro s
    simp [Kind.doc, doc_generate]
  | blockType outer ih => exact ih.same .typeDecl .typeDecl fun d => rfl
  | packageType outer ih => exact ih.same .typeDecl .typeDecl fun d => rfl
  | blockSubprogram outer ih => exact ih.same .subprogram .subprogram fun b => rfl
  | packageSubprogram outer ih => exact ih.same .subprogram .subprogram fun b => rfl
  | innerSubprogram outer ih => exact ih.same .subprogram .subprogram fun b => rfl
  | subprogramItem outer spec is js body ih =>
    exact ih.item_row .subprogramItem (fun i => .mk spec (is ++ i :: js) body) [] is js
      fun i => doc_subprogram spec _ body
  | subprogramBody outer spec items ss ts ih =>
    exact ih.body_row .sequential (fun s => .mk spec items (ss ++ s :: ts)) ss ts
      fun s => doc_subprogram spec items _
  | thenBranch outer condition ss ts elsifs otherwise ih =>
    have shown := ((Doc.shows_headed ("if " ++ condition.text ++ " then") (ss.map Sequential.doc)
      (ts.map Sequential.doc)).before (Doc.columnFree_concat (columnFree_branches elsifs))).before
        (columnFree_else otherwise)
    apply ih.inside .sequential
      (fun s => .conditional condition (ss ++ s :: ts) elsifs otherwise) (shown.closed "end if;")
    intro s
    simp [Kind.doc, doc_conditional]
  | elsifBranch outer condition inner body ss ts bs cs otherwise ih =>
    have row := (Doc.shows_lines (ss.map Sequential.doc) (ts.map Sequential.doc)).nest.after
      (.line ++ .text ("elsif " ++ inner.text ++ " then"))
    have shown := ((row.concat (bs.map Branch.doc) (columnFree_branches cs)).after
      (.text ("if " ++ condition.text ++ " then") ++
        .nest (.lines (body.map Sequential.doc)))).before (columnFree_else otherwise)
    apply ih.inside .sequential (fun s =>
      .conditional condition body (bs ++ .mk inner (ss ++ s :: ts) :: cs) otherwise)
      (shown.closed "end if;")
    intro s
    simp [Kind.doc, doc_conditional, doc_branch]
  | elseBranch outer condition body ss ts elsifs ih =>
    have row := (Doc.shows_lines (ss.map Sequential.doc) (ts.map Sequential.doc)).nest.after
      (.line ++ .text "else")
    have shown := row.after (.text ("if " ++ condition.text ++ " then") ++
      .nest (.lines (body.map Sequential.doc)) ++ .concat (elsifs.map Branch.doc))
    apply ih.inside .sequential
      (fun s => .conditional condition body elsifs (some (ss ++ s :: ts))) (shown.closed "end if;")
    intro s
    simp [Kind.doc, doc_conditional, Sequential.elseDoc]
  | loopBody outer index range ss ts ih =>
    exact ih.block_row .sequential (fun s => .forLoop index range (ss ++ s :: ts)) ss ts
      fun s => doc_loop index range _
  | alternative outer selector as bs ih =>
    exact ih.block_row .alternative (fun a => .selection selector (as ++ a :: bs)) as bs
      fun a => doc_selection selector _
  | alternativeBody outer choices ss ts ih =>
    apply ih.inside .sequential (fun s => .mk choices (ss ++ s :: ts))
      (Doc.shows_headed ("when " ++ " | ".intercalate (choices.map Choice.text) ++ " =>")
        (ss.map Sequential.doc) (ts.map Sequential.doc))
    intro s
    simp [Kind.doc, Alternative.doc]

end Layout

end Vhdl93
