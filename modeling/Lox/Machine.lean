import Lox.Number.Numeral
import Lox.Operation
import Lox.Scopes

/-!
# The state of a running program

A machine holds all scopes, the fields of all instances, the depths known of
references, the functions of the host and what was printed. Scopes and
instances are never removed, and scope zero is the global one.
-/

set_option autoImplicit false

namespace Lox

/-- Takes the arguments; fails with a message. -/
abbrev Host := List Value → Except String Value

/-- Where printed lines go. With `room` given only so many more are taken. -/
structure Sink where
  lines : Array String := #[]
  room : Option Nat := none
  flushFails : Bool := false

/-- For the references declared in some scope, how many scopes up it is. -/
structure Depths where
  cells : Array (Option Nat) := #[]

namespace Depths

def get? (d : Depths) (id : Nat) : Option Nat := (d.cells[id]?).join

def put (d : Depths) (id depth : Nat) : Depths :=
  ⟨(d.cells ++ Array.replicate (id + 1 - d.cells.size) none).setIfInBounds id (some depth)⟩

theorem get?_put_self (d : Depths) (id depth : Nat) : (d.put id depth).get? id = some depth := by
  have h : id < d.cells.size + (id + 1 - d.cells.size) := by omega
  simp [put, get?, h]

theorem get?_put_of_ne (d : Depths) {id other : Nat} (depth : Nat) (h : other ≠ id) :
    (d.put id depth).get? other = d.get? other := by
  simp only [put, get?, Array.getElem?_setIfInBounds_ne h.symm, Array.getElem?_append,
    Array.getElem?_replicate]
  split
  · rfl
  · rename_i hs
    rw [Array.getElem?_eq_none (by omega)]
    split <;> rfl

end Depths

structure Machine where
  scopes : Scopes Value
  instances : Array (Names Value)
  serial : Nat
  depths : Depths
  hosts : Array Host
  sink : Sink
  clock : Nat

/-- Why a computation stops early: by a fault of the program, or because the
bound on its depth was reached. -/
inductive Stop where
  | fault (d : Diagnostic)
  | exhausted
deriving DecidableEq, Repr

abbrev Run := EStateM Stop Machine

namespace Machine

def global : Nat := 0

/-- Define a function of the host under its name in the global scope. -/
def defineHost (m : Machine) (f : HostFunction) : Machine :=
  { m with scopes := m.scopes.define global f.name (.host m.serial f), serial := m.serial + 1 }

/-- Define a function for which the host gives the code. -/
def defineGiven (m : Machine) (name : String) (arity : Nat) (code : Host) : Machine :=
  let m' := m.defineHost ⟨name, arity, .given m.hosts.size⟩
  { m' with hosts := m'.hosts.push code }

/-- A machine that has run nothing; `now` is the time in microseconds. -/
def start (now : Nat) : Machine :=
  let m : Machine :=
    { scopes := Scopes.empty.push none, instances := #[], serial := 0, depths := {}, hosts := #[],
      sink := {}, clock := now }
  m.defineHost ⟨"clock", 0, .clock⟩

/-- Remember what is statically known of references. Those without a depth are
global, which needs no entry. -/
def note (m : Machine) (found : List (Reference × Option Nat)) : Machine :=
  { m with depths := found.foldl (fun d (ref, depth) => (depth.map (d.put ref.id)).getD d) m.depths }

/-- The scope in which an assignment through a reference changes the value: as
many scopes up from `scope` as is known, or else the global one if it has the
name. -/
def target? (m : Machine) (scope : Nat) (ref : Reference) : Option Nat :=
  match m.depths.get? ref.id with
  | some d => m.scopes.ancestor? d scope
  | none => m.scopes.holder? ref.name.lexeme global

end Machine

namespace Run

def fail {α : Type} (t : Token) (cause : RuntimeCause) : Run α :=
  throw (.fault (.runtime t.line cause))

/-- Blame a failed operation on token `t`. -/
def blaming {α : Type} (t : Token) : Except RuntimeCause α → Run α
  | .ok a => return a
  | .error cause => fail t cause

def found {α : Type} (name : Token) : Option α → Run α
  | some a => return a
  | none => fail name (.undefinedVariable name.lexeme)

/-- An identity that no function and no class has yet. -/
def newId : Run Nat :=
  fun m => .ok m.serial { m with serial := m.serial + 1 }

def newScope (enclosing : Nat) : Run Nat :=
  fun m => .ok m.scopes.next { m with scopes := m.scopes.push (some enclosing) }

def define (scope : Nat) (name : String) (v : Value) : Run Unit :=
  fun m => .ok () { m with scopes := m.scopes.define scope name v }

def getAt (scope distance : Nat) (name : Token) : Run Value := fun m =>
  match m.scopes.getAt? scope distance name.lexeme with
  | some v => .ok v m
  | none => fail name (.undefinedVariable name.lexeme) m

/-- The value of a reference: in the scope its depth tells, or else global. -/
def read (scope : Nat) (ref : Reference) : Run Value := fun m =>
  match m.depths.get? ref.id with
  | some d => getAt scope d ref.name m
  | none => found ref.name (m.scopes.get? Machine.global ref.name.lexeme) m

def write (scope : Nat) (ref : Reference) (v : Value) : Run Unit := fun m =>
  match m.target? scope ref with
  | some i => define i ref.name.lexeme v m
  | none => fail ref.name (.undefinedVariable ref.name.lexeme) m

def newInstance (c : Class) : Run Value :=
  fun m => .ok (.instance m.instances.size c) { m with instances := m.instances.push [] }

def setField (id : Nat) (name : String) (v : Value) : Run Unit :=
  fun m => .ok () { m with instances := m.instances.modify id (Names.put name v) }

def newFunction (code : Closure) : Run Value := do
  return .function (← newId) code

/-- A method as a function of its own, with `this` in a scope around it. -/
def bindMethod (method : Closure) (self : Value) : Run Closure := do
  let scope ← newScope method.scope
  define scope "this" self
  return { method with scope }

/-- A property of an instance: a field of its own, or else a method bound to it. -/
def property (id : Nat) (c : Class) (name : Token) : Run Value := do
  match (← get).instances[id]?.bind (·.get? name.lexeme) with
  | some v => return v
  | none =>
    match c.findMethod? name.lexeme with
    | some method => newFunction (← bindMethod method (.instance id c))
    | none => fail name (.undefinedProperty name.lexeme)

/-- Print one line. A line that finds no room leaves nothing behind. -/
def printLine (s : String) : Run Unit := fun m =>
  match m.sink.room with
  | none => .ok () { m with sink := { m.sink with lines := m.sink.lines.push s } }
  | some 0 => .error (.fault (.sink .full)) m
  | some (n + 1) =>
    .ok () { m with sink := { m.sink with lines := m.sink.lines.push s, room := some n } }

/-- The time in seconds. It passes by a microsecond at each reading. -/
def readClock : Run Value :=
  fun m => .ok (.number (Number.ofDecimal false m.clock (-6))) { m with clock := m.clock + 1 }

def callHost (f : HostFunction) (args : List Value) (paren : Token) : Run Value :=
  match f.code with
  | .clock => readClock
  | .given i => fun m =>
    match (m.hosts[i]?.getD fun _ => .ok .nil) args with
    | .ok v => .ok v m
    | .error message => fail paren (.host message) m

end Run

end Lox
