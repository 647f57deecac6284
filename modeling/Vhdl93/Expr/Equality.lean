import Vhdl93.Expr.Basic

set_option autoImplicit false

namespace Vhdl93

mutual

def Name.eqv : Name → Name → Bool
  | .simple i, .simple j => i = j
  | .selected b s, .selected c t => b.eqv c && s = t
  | .indexed b es, .indexed c fs => b.eqv c && Expr.eqvAll es fs
  | .slice b r, .slice c s => b.eqv c && r.eqv s
  | .attribute b i e, .attribute c j f => b.eqv c && i = j && Expr.eqvOption e f
  | _, _ => false

def Range.eqv : Range → Range → Bool
  | .bounds d l r, .bounds d' l' r' => d = d' && l.eqv l' && r.eqv r'
  | .attribute b i e, .attribute c j f => b.eqv c && i = j && Expr.eqvOption e f
  | _, _ => false

def Expr.eqv : Expr → Expr → Bool
  | .binary op l r, .binary op' l' r' => op = op' && l.eqv l' && r.eqv r'
  | .unary op e, .unary op' e' => op = op' && e.eqv e'
  | .literal x, .literal y => x == y
  | .name n, .name m => n.eqv m
  | .call n as, .call m bs => n.eqv m && Association.eqvAll as bs
  | .aggregate es, .aggregate fs => Element.eqvAll es fs
  | _, _ => false

def Choice.eqv : Choice → Choice → Bool
  | .expr e, .expr f => e.eqv f
  | .others, .others => true
  | _, _ => false

def Element.eqv : Element → Element → Bool
  | .positional e, .positional f => e.eqv f
  | .named c e, .named d f => c.eqv d && e.eqv f
  | _, _ => false

def Actual.eqv : Actual → Actual → Bool
  | .name n, .name m => n.eqv m
  | .expr e, .expr f => e.eqv f
  | .unconnected, .unconnected => true
  | _, _ => false

def Association.eqv : Association → Association → Bool
  | .positional a, .positional b => a.eqv b
  | .named i a, .named j b => i = j && a.eqv b
  | _, _ => false

def Expr.eqvOption : Option Expr → Option Expr → Bool
  | none, none => true
  | some e, some f => e.eqv f
  | _, _ => false

def Expr.eqvAll : List Expr → List Expr → Bool
  | [], [] => true
  | e :: es, f :: fs => e.eqv f && Expr.eqvAll es fs
  | _, _ => false

def Element.eqvAll : List Element → List Element → Bool
  | [], [] => true
  | e :: es, f :: fs => e.eqv f && Element.eqvAll es fs
  | _, _ => false

def Association.eqvAll : List Association → List Association → Bool
  | [], [] => true
  | a :: as, b :: bs => a.eqv b && Association.eqvAll as bs
  | _, _ => false

end

instance : BEq Name := ⟨Name.eqv⟩
instance : BEq Range := ⟨Range.eqv⟩
instance : BEq Expr := ⟨Expr.eqv⟩
instance : BEq Choice := ⟨Choice.eqv⟩
instance : BEq Element := ⟨Element.eqv⟩
instance : BEq Actual := ⟨Actual.eqv⟩
instance : BEq Association := ⟨Association.eqv⟩

end Vhdl93
