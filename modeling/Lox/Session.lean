import Lox.Evaluation
import Lox.Grammar.Statement
import Lox.Scoping
import Lox.Source.Scan

/-!
# Sessions

A session runs one source text after another on one machine. A text with a
static fault is rejected before any of it runs, with all faults of the stages
reached; a runtime fault stops the text it arises in.

Every function that runs a program takes a bound on the depth of the
computation and yields nothing if the bound is too small.
-/

set_option autoImplicit false

namespace Lox

inductive Status where
  | ok
  | staticError
  | runtimeError
deriving DecidableEq, Repr

def Status.exitCode : Status → Nat
  | ok => 0
  | staticError => 65
  | runtimeError => 70

structure Report where
  status : Status
  diagnostics : List Diagnostic
deriving DecidableEq, Repr

/-- What the front end makes of a source text: lexical faults, and either a
tree or the faults of parsing. -/
structure Front (α : Type) where
  lexical : List Diagnostic
  result : Except (List Diagnostic) α
  nextId : Nat

namespace Front

variable {α : Type}

def ofSource (reader : Nat → List Token → Grammar.Reading α) (nextId : Nat) (source : String) :
    Front α :=
  let ss := scan source
  let r := reader nextId (Scanned.tokens ss)
  ⟨Scanned.faults ss, r.result, r.nextId⟩

def program : Nat → String → Front (List Stmt) := ofSource Grammar.readProgram

def expression : Nat → String → Front Expr := ofSource Grammar.readExpression

/-- All faults, the lexical ones first. -/
def faults (f : Front α) : List Diagnostic :=
  match f.result with
  | .ok _ => f.lexical
  | .error ds => f.lexical ++ ds

/-- The tree of a text without any fault. -/
def tree? (f : Front α) : Option α :=
  match f.lexical, f.result with
  | [], .ok a => some a
  | _, _ => none

end Front

structure Session where
  machine : Machine
  nextId : Nat

namespace Session

def start (now : Nat) : Session := ⟨.start now, 0⟩

/-- Run a computation on the machine: its value or the fault that stopped it. -/
def perform {α : Type} (s : Session) (r : Run α) : Option (Except Diagnostic α × Session) :=
  match r s.machine with
  | .ok a m => some (.ok a, { s with machine := m })
  | .error (.fault d) m => some (.error d, { s with machine := m })
  | .error .exhausted _ => none

/-- Execute a program without static scoping. The output is flushed in any
case, and a fault in that counts before any other. -/
def interpret (bound : Nat) (s : Session) (program : List Stmt) :
    Option (Except Diagnostic Unit × Session) := do
  let (result, s) ← s.perform (Evaluation.program bound program)
  return (if s.machine.sink.flushFails then .error (.sink .flush) else result, s)

def evaluate (bound : Nat) (s : Session) (e : Expr) : Option (Except Diagnostic Value × Session) :=
  s.perform (Evaluation.evaluate bound Machine.global e)

def execute (bound : Nat) (s : Session) (stmt : Stmt) :
    Option (Except Diagnostic Flow × Session) :=
  s.perform (Evaluation.execute bound Machine.global stmt)

/-- Scope a program statically. What is known of references is kept even if
there are faults. -/
def resolve (s : Session) (program : List Stmt) : List Diagnostic × Session :=
  let found := Scoping.program program
  (Scoping.faults found, { s with machine := s.machine.note (Scoping.lookups found) })

/-- Run a source text. -/
def run (bound : Nat) (s : Session) (source : String) : Option (Report × Session) :=
  let front := Front.program s.nextId source
  let s := { s with nextId := front.nextId }
  match front.tree? with
  | none => some (⟨.staticError, front.faults⟩, s)
  | some program =>
    let (faults, s) := s.resolve program
    if faults.isEmpty then do
      let (result, s) ← s.interpret bound program
      match result with
      | .ok () => return (⟨.ok, []⟩, s)
      | .error d => return (⟨.runtimeError, [d]⟩, s)
    else
      some (⟨.staticError, faults⟩, s)

/-- The lines printed since they were last taken, and the session without them. -/
def takeLines (s : Session) : List String × Session :=
  let sink := { s.machine.sink with lines := #[] }
  (s.machine.sink.lines.toList, { s with machine := { s.machine with sink } })

/-- Let the output take so many more lines. -/
def setRoom (s : Session) (room : Option Nat) : Session :=
  { s with machine := { s.machine with sink := { s.machine.sink with room } } }

def setFlushFails (s : Session) (flushFails : Bool) : Session :=
  { s with machine := { s.machine with sink := { s.machine.sink with flushFails } } }

def defineGiven (s : Session) (name : String) (arity : Nat) (code : Host) : Session :=
  { s with machine := s.machine.defineGiven name arity code }

end Session

end Lox
