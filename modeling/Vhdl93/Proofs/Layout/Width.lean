import Vhdl93.Proofs.Layout.Place

set_option autoImplicit false

namespace Vhdl93

namespace Layout

/-- The text is the one-line layout exactly if this ends within the line width, else the broken
layout. -/
structure Fitted (config : Config) (column : Nat) (inline broken text : String) : Prop where
  inline_iff : text = inline ↔ column + inline.length ≤ config.lineWidth
  broken_of_wide : config.lineWidth < column + inline.length → text = broken

/-- A list at a depth. If it breaks, each item starts a line one level deeper and the closing text a
line of its own. -/
def Listed (config : Config) (depth : Nat) (opening : String) (items : List String)
    (closing text : String) : Prop :=
  let deeper := Text.breakWith (config.indentSize * (depth + 1))
  Fitted config (config.indentSize * depth) (opening ++ ", ".intercalate items ++ closing)
    (opening ++ deeper ++ ("," ++ deeper).intercalate items ++
      Text.breakWith (config.indentSize * depth) ++ closing) text

variable (config : Config) (depth : Nat) (text : String)

def CallFollows : Sequential → Prop
  | .call n (a :: as) =>
      Listed config depth (n.text ++ "(") ((a :: as).map Association.text) ");" text
  | _ => True

def TypeFollows (d : TypeDecl) : Prop :=
  match d.definition with
  | .enumeration (l :: ls) =>
      Listed config depth ("type " ++ d.name.render ++ " is " ++ "(")
        ((l :: ls).map EnumLiteral.text) ");" text
  | _ => True

def MapFollows : List Association → Prop
  | [] => text = "port map ();"
  | a :: as => Listed config depth "port map (" ((a :: as).map Association.text) ");" text

def AssignmentFollows (a : Assignment) : Prop :=
  let parts := a.conditionals.map ConditionalWaveform.text ++ [a.lastText]
  let deeper := Text.breakWith (config.indentSize * (depth + 1))
  a.conditionals ≠ [] →
    Fitted config (config.indentSize * depth)
      (a.target.text ++ " <= " ++ " else ".intercalate parts ++ ";")
      (a.target.text ++ " <= " ++ (deeper ++ "else ").intercalate parts ++ ";") text

def InstanceFollows (i : Instance) : Prop :=
  let header := i.label.render ++ " : " ++ i.unit.text
  let deeper := Text.breakWith (config.indentSize * (depth + 1))
  ∃ portMap, MapFollows config (depth + 1) portMap i.portMap ∧
    Fitted config (config.indentSize * depth)
      (header ++ " port map (" ++ ", ".intercalate (i.portMap.map Association.text) ++ ");")
      (header ++ deeper ++ portMap) text

def ConcurrentFollows : Concurrent → Prop
  | .assign a => AssignmentFollows config depth text a
  | .instantiate i => InstanceFollows config depth text i
  | _ => True

def Kind.Follows : (κ : Kind) → κ.Tree → Prop
  | sequential => CallFollows config depth text
  | typeDecl => TypeFollows config depth text
  | portMap => MapFollows config depth text
  | concurrent => ConcurrentFollows config depth text
  | _ => fun _ => True

end Layout

open Layout

theorem Text.length_breakWith (n : Nat) : (breakWith n).length = n + 1 := by
  rw [← String.length_toList]
  simp [breakWith]

theorem Text.breakWith_ne_blank (n : Nat) (s u v : String) :
    s ++ breakWith n ++ u ≠ s ++ " " ++ v := by
  intro same
  have chars := congrArg String.toList same
  simp [breakWith] at chars

theorem length_intercalate_le {s t : String} (longer : s.length ≤ t.length) (items : List String) :
    (s.intercalate items).length ≤ (t.intercalate items).length := by
  induction items with
  | nil => simp
  | cons first rest ih =>
    cases rest with
    | nil => simp
    | cons second rest =>
      simp only [String.intercalate_cons_cons, String.length_append]
      omega

theorem append_join_eq_intercalate (s first : String) (rest : List String) :
    first ++ String.join (rest.map (s ++ ·)) = s.intercalate (first :: rest) := by
  induction rest generalizing first with
  | nil => simp
  | cons second rest ih =>
    rw [String.intercalate_cons_cons, ← ih second]
    simp [String.append_assoc]

namespace Doc

variable {config : Config} {depth column : Nat} {inline broken : String}

theorem fitted_group {d : Doc} (flat : d.flat = inline)
    (rendered : d.render config depth column = broken) (apart : broken ≠ inline) :
    Fitted config column inline broken ((group d).render config depth column) := by
  by_cases fits : column + inline.length ≤ config.lineWidth
  · have chosen : (group d).render config depth column = inline := by simp [render, flat, fits]
    exact ⟨by simp [chosen, fits], by omega⟩
  · have chosen : (group d).render config depth column = broken := by
      simp [render, flat, fits, rendered]
    exact ⟨by simp [chosen, apart, fits], fun _ => chosen⟩

theorem render_nextItems (items : List String) :
    (concat (items.map nextItem)).render config depth column =
      String.join (items.map ("," ++ Text.breakWith (config.indentSize * depth) ++ ·)) := by
  induction items generalizing column with
  | nil => rfl
  | cons item items ih =>
    rw [List.map_cons, concat, render_append, ih]
    simp [nextItem, render]

theorem list_ne_broken (opening closing : String) (items : List String) (m n : Nat) :
    opening ++ Text.breakWith m ++ ("," ++ Text.breakWith m).intercalate items ++
        Text.breakWith n ++ closing ≠ opening ++ ", ".intercalate items ++ closing := by
  intro same
  -- The broken list is longer: it has a break more at each end, and no separator is shorter.
  have lengths := congrArg String.length same
  have blank : (", " : String).length = 2 := by decide
  have comma : ("," : String).length = 1 := by decide
  have separators : (", ".intercalate items).length ≤
      (("," ++ Text.breakWith m).intercalate items).length := by
    apply length_intercalate_le
    rw [String.length_append, Text.length_breakWith]
    omega
  simp only [String.length_append, Text.length_breakWith] at lengths
  omega

theorem listed_list (config : Config) (depth : Nat) (opening : String) {items : List String}
    (some : items ≠ []) (closing : String) :
    Listed config depth opening items closing
      ((list opening items closing).render config depth (config.indentSize * depth)) := by
  cases items with
  | nil => exact absurd rfl some
  | cons first rest =>
    have inline := flat_list opening (first :: rest) closing
    refine fitted_group inline ?_ (list_ne_broken opening closing (first :: rest) _ _)
    rw [← append_join_eq_intercalate]
    simp [render, render_nextItems, String.append_assoc]

theorem flat_elseDocs (first : String) (rest : List String) :
    first ++ (concat (rest.map Assignment.elseDoc)).flat = " else ".intercalate (first :: rest) := by
  have each : (concat (rest.map Assignment.elseDoc)).flat =
      String.join (rest.map (" else " ++ ·)) := by
    induction rest with
    | nil => rfl
    | cons part rest ih =>
      rw [List.map_cons, concat, flat_append, ih]
      simp [Assignment.elseDoc, flat, ← String.append_assoc]
  rw [each, append_join_eq_intercalate]

theorem render_elseDocs (parts : List String) :
    (concat (parts.map Assignment.elseDoc)).render config depth column =
      String.join (parts.map (Text.breakWith (config.indentSize * depth) ++ "else " ++ ·)) := by
  induction parts generalizing column with
  | nil => rfl
  | cons part parts ih =>
    rw [List.map_cons, concat, render_append, ih]
    simp [Assignment.elseDoc, render, ← String.append_assoc]

end Doc

namespace Layout

variable (config : Config) (depth : Nat)

theorem call_follows (s : Sequential) :
    CallFollows config depth (Kind.sequential.text config depth s) s := by
  unfold CallFollows
  split
  · next n a as => exact Doc.listed_list config depth (n.text ++ "(") (by simp) ");"
  · trivial

theorem type_follows (d : TypeDecl) :
    TypeFollows config depth (Kind.typeDecl.text config depth d) d := by
  obtain ⟨name, definition⟩ := d
  unfold TypeFollows
  split
  · next l ls enumerated =>
    obtain rfl : definition = .enumeration (l :: ls) := enumerated
    exact Doc.listed_list config depth _ (by simp) ");"
  · trivial

theorem map_follows (as : List Association) :
    MapFollows config depth (Kind.portMap.text config depth as) as := by
  cases as with
  | nil => rfl
  | cons a as => exact Doc.listed_list config depth "port map (" (by simp) ");"

theorem doc_assignment {a : Assignment} {first : String} {rest : List String}
    (guarded : a.conditionals.map ConditionalWaveform.text = first :: rest) :
    a.doc = .group (.text (a.target.text ++ " <= " ++ first) ++
      .nest (.concat ((rest ++ [a.lastText]).map Assignment.elseDoc)) ++ .text ";") := by
  simp [Assignment.doc, guarded]

theorem assignment_ne_broken (target : String) (n : Nat) (first second : String)
    (more : List String) :
    target ++ (Text.breakWith n ++ "else ").intercalate (first :: second :: more) ++ ";" ≠
      target ++ " else ".intercalate (first :: second :: more) ++ ";" := by
  have word : (" else " : String) = " " ++ "else " := rfl
  have apart := Text.breakWith_ne_blank n (target ++ first)
    ("else " ++ (Text.breakWith n ++ "else ").intercalate (second :: more) ++ ";")
    ("else " ++ " else ".intercalate (second :: more) ++ ";")
  simpa only [String.intercalate_cons_cons, word, String.append_assoc] using apart

theorem assignment_follows (a : Assignment) :
    AssignmentFollows config depth
      (a.doc.render config depth (config.indentSize * depth)) a := by
  intro some
  obtain ⟨first, rest, guarded⟩ : ∃ first rest,
      a.conditionals.map ConditionalWaveform.text = first :: rest :=
    List.exists_cons_of_ne_nil (by simpa using some)
  obtain ⟨second, more, later⟩ : ∃ second more, rest ++ [a.lastText] = second :: more :=
    List.exists_cons_of_ne_nil (by simp)
  rw [doc_assignment guarded, guarded, List.cons_append, later]
  refine Doc.fitted_group ?_ ?_ (assignment_ne_broken _ _ first second more)
  · rw [← Doc.flat_elseDocs]
    simp only [Doc.flat_append, Doc.flat, String.append_assoc]
  · rw [← append_join_eq_intercalate]
    simp only [Doc.render_append, Doc.render, Doc.render_elseDocs, String.append_assoc]

theorem instance_follows (i : Instance) :
    InstanceFollows config depth
      (i.doc.render config depth (config.indentSize * depth)) i := by
  refine ⟨Kind.portMap.text config (depth + 1) i.portMap, map_follows config (depth + 1) i.portMap,
    ?_⟩
  have words : (" port map (" : String) = " " ++ "port map (" := rfl
  refine Doc.fitted_group ?_ ?_ ?_
  · rw [words]
    simp only [Doc.flat_append, Doc.flat, Association.mapDoc, Doc.flat_list, String.append_assoc]
  · simp [Doc.render, Kind.text, Kind.doc, String.append_assoc]
  · have apart := Text.breakWith_ne_blank (config.indentSize * (depth + 1))
      (i.label.render ++ " : " ++ i.unit.text) (Kind.portMap.text config (depth + 1) i.portMap)
      ("port map (" ++ ", ".intercalate (i.portMap.map Association.text) ++ ");")
    simpa only [words, String.append_assoc] using apart

theorem concurrent_follows (s : Concurrent) :
    ConcurrentFollows config depth (Kind.concurrent.text config depth s) s := by
  cases s with
  | assign a => exact assignment_follows config depth a
  | instantiate i => exact instance_follows config depth i
  | block | process | generate => trivial

theorem Kind.follows (κ : Kind) (x : κ.Tree) :
    κ.Follows config depth (κ.text config depth x) x := by
  cases κ with
  | sequential => exact call_follows config depth x
  | typeDecl => exact type_follows config depth x
  | portMap => exact map_follows config depth x
  | concurrent => exact concurrent_follows config depth x
  | fragment | list | design | context | unit | portClause | ports | object | subtypeDecl
  | blockItem | packageItem | packageBodyItem | subprogramItem | subprogram | alternative
  | many => trivial

-- So the indentation of what can be written at all does not overflow.
theorem indentation_le_length {κ : Kind} {k : Nat} {f : κ.Tree → Design} (place : Place κ k f)
    (config : Config) (x : κ.Tree) : config.indentSize * k ≤ ((f x).render config).length := by
  obtain ⟨before, after, start, rendered⟩ := place.opens config
  calc config.indentSize * k = Text.column before := start.symm
    _ ≤ before.length := Text.column_le_length before
    _ ≤ ((f x).render config).length := by
        rw [rendered x, String.length_append, String.length_append]
        omega

/-- What stands at a place of a design starts in the column of its depth, whatever it is and
whatever is around it, and it has one line or more by its own width at that column. -/
theorem break_of_place {κ : Kind} {k : Nat} {f : κ.Tree → Design} (place : Place κ k f)
    (config : Config) :
    ∃ before after, Text.column before = config.indentSize * k ∧
      ∀ x, (f x).render config = before ++ κ.text config k x ++ after ∧
        κ.Follows config k (κ.text config k x) x := by
  obtain ⟨before, after, start, rendered⟩ := place.opens config
  exact ⟨before, after, start, fun x => ⟨rendered x, κ.follows config k x⟩⟩

/-- A call of 24 characters at depth three stays on one line that is 30 wide. -/
theorem break_of_nested_call :
    let name := fun s => Name.simple (.basic s)
    let argument := fun s => Association.positional (.name (name s))
    let call := Sequential.call (name "put") (["first", "second", "sum"].map argument)
    let process := Concurrent.process ⟨.basic "main", [], [],
      [.conditional (.name (name "ready")) [call] [] none]⟩
    let design : Design := ⟨[], [.architecture ⟨.basic "rtl", .basic "top", [], [process]⟩]⟩
    ∃ before after, Text.column before = 6 ∧
      design.render ⟨30, 2⟩ = before ++ "put(first, second, sum);" ++ after := by
  intro name argument call process design
  have unit : Place .unit 0 fun u => ⟨[], [] ++ u :: []⟩ := .unit [] [] []
  have statement := unit.architectureBody (.basic "rtl") (.basic "top") [] [] []
  have body := statement.processBody (.basic "main") [] [] [] []
  have place := body.thenBranch (.name (name "ready")) [] [] [] none
  obtain ⟨before, after, start, shown⟩ := break_of_place place ⟨30, 2⟩
  obtain ⟨rendered, follows⟩ := shown call
  have inline := follows.inline_iff.mpr (by decide)
  refine ⟨before, after, start, ?_⟩
  rw [inline] at rendered
  exact rendered

end Layout

end Vhdl93
