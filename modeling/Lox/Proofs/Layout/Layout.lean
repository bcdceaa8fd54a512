import Lox.Proofs.Session.History

/-!
# Layouts of scopes

The parser expresses a `for` loop by blocks and `while`, and so the scopes that it opens
depend on which of its clauses are there. A layout says instead which blocks open a scope
and around which loops one is opened; only a block that declares nothing may do without.
Scoping, evaluation and runs are given here for any layout.
-/

set_option autoImplicit false

namespace Lox

open Scoping Evaluation

structure Layout where
  opensBlock : List Stmt → Bool
  opensLoop : Expr → Stmt → Bool
  declares (ss : List Stmt) : opensBlock ss = false → ∀ s ∈ ss, s.plain = true

namespace Layout

/-- The scopes inside of what may open one. -/
def within (opens : Bool) (fs : Frames) : Frames := if opens then [] :: fs else fs

/-- The scope inside of what may open one. -/
def enclosed (opens : Bool) (scope : Nat) : Run Nat :=
  if opens then Run.newScope scope else return scope

variable (l : Layout)

mutual

/-- What scoping finds in a statement. -/
def stmt (ctx : Context) (fs : Frames) : Stmt → List Finding
  | .expression e => expr ctx fs e
  | .print e => expr ctx fs e
  | .var name initializer =>
    declarationFaults fs name ++ Scoping.optional ctx (declare fs name.lexeme) initializer
  | .block body => stmts ctx (within (l.opensBlock body) fs) body
  | .if condition yes no => expr ctx fs condition ++ stmt ctx fs yes ++ branch ctx fs no
  | .while condition body =>
    let inner := within (l.opensLoop condition body) fs
    expr ctx inner condition ++ stmt ctx inner body
  | .function f =>
    declarationFaults fs f.name ++ function ctx (binding fs f.name.lexeme) .function f
  | .return keyword value => returnFaults ctx keyword value ++ Scoping.optional ctx fs value
  | .class name superclass fns =>
    let named := binding fs name.lexeme
    let family := if superclass.isSome then .subclass else .class
    declarationFaults fs name ++ superclassFindings named name superclass ++
      methods { ctx with family } (methodFrames named superclass) fns

def stmts (ctx : Context) (fs : Frames) : List Stmt → List Finding
  | [] => []
  | s :: ss => stmt ctx fs s ++ stmts ctx (after fs s) ss

/-- A branch that may be missing. -/
def branch (ctx : Context) (fs : Frames) : Option Stmt → List Finding
  | none => []
  | some s => stmt ctx fs s

def function (ctx : Context) (fs : Frames) (body : Body) : Function → List Finding
  | .mk _ params ss =>
    let inside := parameters ([] :: fs) params
    inside.2 ++ stmts { ctx with body } inside.1 ss

def methods (ctx : Context) (fs : Frames) : List Function → List Finding
  | [] => []
  | f :: others => function ctx fs (methodBody f) f ++ methods ctx fs others

end

/-- Everything that scoping finds in a program. -/
def found (program : List Stmt) : List Finding := l.stmts {} [] program

mutual

def evaluate : Nat → Nat → Expr → Run Value
  | 0, _, _ => throw .exhausted
  | n + 1, scope, e =>
    match e with
    | .literal v => return .ofLiteral v
    | .grouping e => evaluate n scope e
    | .unary op e => do
      let v ← evaluate n scope e
      Run.blaming op (Operation.unary op.kind v)
    | .binary l op r => do
      let a ← evaluate n scope l
      let b ← evaluate n scope r
      Run.blaming op (Operation.binary op.kind a b)
    | .logical l op r => do
      let a ← evaluate n scope l
      if Operation.decides op.kind a then return a else evaluate n scope r
    | .var ref => Run.read scope ref
    | .assign ref e => do
      let v ← evaluate n scope e
      Run.write scope ref v
      return v
    | .call callee paren args => do
      let f ← evaluate n scope callee
      let vs ← arguments (evaluate n scope) args
      checkArity f vs paren
      invoke (execute n) f vs paren
    | .get e name => do
      let .instance id c ← evaluate n scope e | Run.fail name .noProperties
      Run.property id c name
    | .set e name value => do
      let .instance id _ ← evaluate n scope e | Run.fail name .noFields
      let v ← evaluate n scope value
      Run.setField id name.lexeme v
      return v
    | .this ref => Run.read scope ref
    | .super ref method => superMethod scope ref method

def execute : Nat → Nat → Stmt → Run Flow
  | 0, _, _ => throw .exhausted
  | n + 1, scope, s =>
    match s with
    | .expression e => do
      let _ ← evaluate n scope e
      return .normal
    | .print e => do
      let v ← evaluate n scope e
      Run.printLine v.text
      return .normal
    | .var name initializer => do
      let v ← match initializer with
        | some e => evaluate n scope e
        | none => pure .nil
      Run.define scope name.lexeme v
      return .normal
    | .block body => do
      let inner ← enclosed (l.opensBlock body) scope
      sequence (execute n inner) body
    | .if condition yes no => do
      let v ← evaluate n scope condition
      if v.truthy then execute n scope yes
      else match no with
        | some s => execute n scope s
        | none => return .normal
    | .while condition body => do
      let inner ← enclosed (l.opensLoop condition body) scope
      loop n inner condition body
    | .function f => do
      Run.define scope f.name.lexeme (← Run.newFunction ⟨f, scope, false⟩)
      return .normal
    | .return _ value => do
      match value with
      | some e => return .returned (← evaluate n scope e)
      | none => return .returned .nil
    | .class name superclass methods => do
      declareClass scope name superclass methods
      return .normal

def loop : Nat → Nat → Expr → Stmt → Run Flow
  | 0, _, _, _ => throw .exhausted
  | n + 1, scope, condition, body => do
    let v ← evaluate n scope condition
    if v.truthy then
      match ← execute n scope body with
      | .normal => loop n scope condition body
      | .returned v => return .returned v
    else
      return .normal

end

def program (n : Nat) : List Stmt → Run Unit
  | [] => return ()
  | s :: ss => do
    let _ ← l.execute n Machine.global s
    program n ss

/-- Run a source text in this layout. -/
def run (bound : Nat) (s : Session) (source : String) : Option (Report × Session) :=
  let front := Front.program s.nextId source
  match front.tree? with
  | none => some (⟨.staticError, front.faults⟩, { s with nextId := front.nextId })
  | some program =>
    let found := l.found program
    let s' : Session := ⟨s.machine.note (lookups found), front.nextId⟩
    if (faults found).isEmpty then (s'.perform (l.program bound program)).map Session.concluded
    else some (⟨.staticError, faults found⟩, s')

end Layout

end Lox
