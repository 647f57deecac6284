import Vhdl93.Layout.Session

set_option autoImplicit false

namespace Vhdl93

inductive Step where
  | push (text : String)
  | newline
  | indent
  | dedent
  | fits (text : String)
  | write (doc : Doc)

inductive Reply where
  | added (text : String)
  | fits (answer : Bool)
  | fault (fault : Fault)
  deriving DecidableEq

namespace Session

def addedSince (s before : Session) : String :=
  String.ofList (s.buffer.toList.drop before.buffer.length)

@[simp] theorem addedSince_push (s : Session) (text : String) :
    (s.push text).addedSince s = text := by
  simp [addedSince, push, String.length]

def attempt (s : Session) : Except Fault Session → Session × Reply
  | .ok t => (t, .added (t.addedSince s))
  | .error fault => (s, .fault fault)

def step (s : Session) : Step → Session × Reply
  | .push text => s.attempt (.ok (s.push text))
  | .newline => s.attempt (.ok s.newline)
  | .indent => s.attempt (.ok s.indent)
  | .dedent => s.attempt s.dedent
  | .fits text => (s, .fits (s.fits text))
  | .write doc => s.attempt (s.write doc)

def run (s : Session) : List Step → Session × List Reply
  | [] => (s, [])
  | first :: rest =>
      let (t, reply) := s.step first
      let (u, replies) := t.run rest
      (u, reply :: replies)

theorem step_write (s : Session) (doc : Doc) :
    s.step (.write doc) =
      (s.push (doc.render s.config s.depth s.column),
        .added (doc.render s.config s.depth s.column)) := by
  simp [step, write_eq, attempt]

end Session

end Vhdl93
