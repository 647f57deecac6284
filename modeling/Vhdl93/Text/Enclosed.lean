set_option autoImplicit false

namespace Vhdl93.Text

def doubled (mark : Char) (cs : List Char) : List Char :=
  cs.flatMap fun c => if c = mark then [c, c] else [c]

@[simp] theorem doubled_nil (mark : Char) : doubled mark [] = [] := rfl

theorem doubled_cons (mark c : Char) (cs : List Char) :
    doubled mark (c :: cs) = (if c = mark then [c, c] else [c]) ++ doubled mark cs := rfl

def enclosed (mark : Char) (text : String) : String :=
  String.ofList (mark :: doubled mark text.toList ++ [mark])

@[simp] theorem toList_enclosed (mark : Char) (text : String) :
    (enclosed mark text).toList = mark :: doubled mark text.toList ++ [mark] := by
  simp [enclosed]

end Vhdl93.Text
