import Vhdl93.Waveform

set_option autoImplicit false

namespace Vhdl93

mutual

inductive Sequential where
  | conditional (condition : Expr) (body : List Sequential) (elsifs : List Branch)
      (otherwise : Option (List Sequential))
  | selection (selector : Expr) (alternatives : List Alternative)
  | ret (value : Option Expr)
  | forLoop (index : Ident) (range : Range) (body : List Sequential)
  | assign (target : Name) (value : Expr)
  | wait (duration : Expr)
  | drive (target : Name) (waveform : Waveform)
  | call (procedure : Name) (arguments : List Association)
  | null

inductive Branch where
  | mk (condition : Expr) (body : List Sequential)

inductive Alternative where
  | mk (choices : List Choice) (body : List Sequential)

end

mutual

def Sequential.eqv : Sequential → Sequential → Bool
  | .conditional c b es o, .conditional c' b' es' o' =>
      c == c' && Sequential.eqvAll b b' && Branch.eqvAll es es' && Sequential.eqvOption o o'
  | .selection e as, .selection e' as' => e == e' && Alternative.eqvAll as as'
  | .ret e, .ret e' => e == e'
  | .forLoop i r b, .forLoop i' r' b' => i = i' && r == r' && Sequential.eqvAll b b'
  | .assign n e, .assign n' e' => n == n' && e == e'
  | .wait e, .wait e' => e == e'
  | .drive n w, .drive n' w' => n == n' && w == w'
  | .call n as, .call n' as' => n == n' && as == as'
  | .null, .null => true
  | _, _ => false

def Branch.eqv : Branch → Branch → Bool
  | .mk c b, .mk c' b' => c == c' && Sequential.eqvAll b b'

def Alternative.eqv : Alternative → Alternative → Bool
  | .mk cs b, .mk cs' b' => cs == cs' && Sequential.eqvAll b b'

def Sequential.eqvAll : List Sequential → List Sequential → Bool
  | [], [] => true
  | s :: ss, t :: ts => s.eqv t && Sequential.eqvAll ss ts
  | _, _ => false

def Branch.eqvAll : List Branch → List Branch → Bool
  | [], [] => true
  | b :: bs, c :: cs => b.eqv c && Branch.eqvAll bs cs
  | _, _ => false

def Alternative.eqvAll : List Alternative → List Alternative → Bool
  | [], [] => true
  | a :: as, b :: bs => a.eqv b && Alternative.eqvAll as bs
  | _, _ => false

def Sequential.eqvOption : Option (List Sequential) → Option (List Sequential) → Bool
  | none, none => true
  | some ss, some ts => Sequential.eqvAll ss ts
  | _, _ => false

end

instance : BEq Sequential := ⟨Sequential.eqv⟩

end Vhdl93
