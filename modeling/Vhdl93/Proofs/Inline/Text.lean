import Vhdl93.Expr.Pieces

set_option autoImplicit false

namespace Vhdl93.Pieces

@[simp] theorem text_nil : text [] = "" := rfl

@[simp] theorem text_cons (p : Piece) (ps : Pieces) : text (p :: ps) = p.text ++ text ps := by
  simp [text]

@[simp] theorem text_append (ps qs : Pieces) : text (ps ++ qs) = text ps ++ text qs := by
  simp [text]

@[simp] theorem text_parenthesized (ps : Pieces) :
    ps.parenthesized.text = "(" ++ ps.text ++ ")" := by
  simp [parenthesized, Piece.symbol, Piece.text, Token.text, Symbol.text, String.append_assoc]

@[simp] theorem text_commaSeparated (items : List Pieces) :
    (commaSeparated items).text = ", ".intercalate (items.map text) := by
  induction items with
  | nil => rfl
  | cons item items ih =>
    cases items with
    | nil => simp [commaSeparated]
    | cons next items =>
      have comma : Piece.text (.symbol .comma) ++ Piece.text .blank = ", " := rfl
      simp only [commaSeparated, text_append, text_cons, ih, List.map_cons,
        String.intercalate_cons_cons]
      simp [← comma, String.append_assoc]

end Vhdl93.Pieces
