import Vhdl93.Sequential.Basic
import Vhdl93.Layout.Doc

set_option autoImplicit false

namespace Vhdl93

def Name.callDoc (procedure : Name) (arguments : List Association) : Doc :=
  if arguments.isEmpty then .text (procedure.text ++ ";")
  else .list (procedure.text ++ "(") (arguments.map Association.text) ");"

mutual

def Sequential.doc : Sequential → Doc
  | .conditional c body elsifs otherwise =>
      .text ("if " ++ c.text ++ " then") ++ .nest (.lines (Sequential.docs body)) ++
        .concat (Branch.docs elsifs) ++ Sequential.elseDoc otherwise ++ .line ++ .text "end if;"
  | .selection e alternatives =>
      .block ("case " ++ e.text ++ " is") (Alternative.docs alternatives) "end case;"
  | .ret none => .text "return;"
  | .ret (some e) => .text ("return " ++ e.text ++ ";")
  | .forLoop i r body =>
      .block ("for " ++ i.render ++ " in " ++ r.text ++ " loop") (Sequential.docs body) "end loop;"
  | .assign n e => .text (n.text ++ " := " ++ e.text ++ ";")
  | .wait e => .text ("wait for " ++ e.text ++ ";")
  | .drive n w => .text (n.text ++ " <= " ++ w.text ++ ";")
  | .call n arguments => n.callDoc arguments
  | .null => .text "null;"

def Branch.doc : Branch → Doc
  | .mk c body =>
      .line ++ .text ("elsif " ++ c.text ++ " then") ++ .nest (.lines (Sequential.docs body))

def Alternative.doc : Alternative → Doc
  | .mk choices body =>
      .text ("when " ++ " | ".intercalate (choices.map Choice.text) ++ " =>") ++
        .nest (.lines (Sequential.docs body))

def Sequential.elseDoc : Option (List Sequential) → Doc
  | none => .empty
  | some body => .line ++ .text "else" ++ .nest (.lines (Sequential.docs body))

def Sequential.docs : List Sequential → List Doc
  | [] => []
  | s :: ss => s.doc :: Sequential.docs ss

def Branch.docs : List Branch → List Doc
  | [] => []
  | b :: bs => b.doc :: Branch.docs bs

def Alternative.docs : List Alternative → List Doc
  | [] => []
  | a :: as => a.doc :: Alternative.docs as

end

@[simp] theorem Sequential.docs_eq_map (ss : List Sequential) :
    Sequential.docs ss = ss.map Sequential.doc := by
  induction ss with
  | nil => rfl
  | cons s ss ih => simp [Sequential.docs, ih]

@[simp] theorem Branch.docs_eq_map (bs : List Branch) : Branch.docs bs = bs.map Branch.doc := by
  induction bs with
  | nil => rfl
  | cons b bs ih => simp [Branch.docs, ih]

@[simp] theorem Alternative.docs_eq_map (as : List Alternative) :
    Alternative.docs as = as.map Alternative.doc := by
  induction as with
  | nil => rfl
  | cons a as ih => simp [Alternative.docs, ih]

end Vhdl93
