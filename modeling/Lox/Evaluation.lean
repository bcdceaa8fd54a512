import Lox.Machine

/-!
# Evaluation

Expressions evaluate to values and statements execute to a flow: on to the
next statement, or out of the function with a value. The scope at hand is an
argument, so that no way out of a block can leave it changed. The first
argument bounds the depth of the computation; a computation that reaches the
bound is told apart from one that fails.
-/

set_option autoImplicit false

namespace Lox

/-- How a statement ends. -/
inductive Flow where
  | normal
  | returned (v : Value)

namespace Evaluation

open Run

def arguments (eval : Expr → Run Value) : List Expr → Run (List Value)
  | [] => return []
  | e :: es => do
    let v ← eval e
    return v :: (← arguments eval es)

/-- Statements in order, up to the first that leaves the function. -/
def sequence (exec : Stmt → Run Flow) : List Stmt → Run Flow
  | [] => return .normal
  | s :: ss => do
    match ← exec s with
    | .normal => sequence exec ss
    | .returned v => return .returned v

def defineAll (scope : Nat) : List Token → List Value → Run Unit
  | p :: ps, v :: vs => do
    define scope p.lexeme v
    defineAll scope ps vs
  | _, _ => return ()

/-- Call a closure; `exec` executes a statement in a scope. An initializer
yields the instance it is bound to, whatever it returns. -/
def enter (exec : Nat → Stmt → Run Flow) (f : Closure) (args : List Value) : Run Value := do
  let scope ← newScope f.scope
  defineAll scope f.declaration.params args
  let flow ← sequence (exec scope) f.declaration.body
  if f.isInitializer then
    getAt f.scope 0 (.ofName "this" f.declaration.name.line)
  else
    match flow with
    | .normal => return .nil
    | .returned v => return v

/-- A new instance, which the initializer of its class then fills. -/
def construct (exec : Nat → Stmt → Run Flow) (c : Class) (args : List Value) : Run Value := do
  let self ← newInstance c
  if let some init := c.initializer? then
    let _ ← enter exec (← bindMethod init self) args
  return self

/-- Call any value with arguments whose number has been checked. -/
def invoke (exec : Nat → Stmt → Run Flow) (f : Value) (args : List Value) (paren : Token) :
    Run Value :=
  match f with
  | .function _ code => enter exec code args
  | .host _ code => callHost code args paren
  | .class c => construct exec c args
  | _ => fail paren .notCallable

def checkArity (f : Value) (args : List Value) (paren : Token) : Run Unit :=
  match f.arity? with
  | none => fail paren .notCallable
  | some n => if args.length = n then return () else fail paren (.arity n args.length)

/-- A method of the superclass, bound to the instance at hand, which is in the
scope just inside the one that holds the superclass. -/
def superMethod (scope : Nat) (ref : Reference) (method : Token) : Run Value := do
  let some depth := (← get).depths.get? ref.id | fail ref.name .superOutsideClass
  let .class c ← getAt scope depth ref.name | fail ref.name .superclassNotClass
  let .instance id own ← getAt scope (depth - 1) (.ofName "this" ref.name.line)
    | fail ref.name .superOutsideClass
  match c.findMethod? method.lexeme with
  | some m => newFunction (← bindMethod m (.instance id own))
  | none => fail method (.undefinedProperty method.lexeme)

def superclassOf (scope : Nat) : Option Reference → Run (Option Class)
  | none => return none
  | some ref => do
    let .class c ← read scope ref | fail ref.name .superclassNotClass
    return some c

/-- The scope of the methods: with a superclass, one of its own that holds it. -/
def methodScope (scope : Nat) : Option Class → Run Nat
  | none => return scope
  | some c => do
    let inner ← newScope scope
    define inner "super" (.class c)
    return inner

/-- The last method written under a name counts. -/
def methodTable (scope : Nat) (methods : List Function) : Names Closure :=
  methods.foldl (fun ns f => Names.put f.name.lexeme ⟨f, scope, f.isInitializer⟩ ns) []

/-- The name of a class is bound before its methods are made, so that they can
refer to it. -/
def declareClass (scope : Nat) (name : Token) (superclass : Option Reference)
    (methods : List Function) : Run Unit := do
  let parent ← superclassOf scope superclass
  define scope name.lexeme .nil
  let inner ← methodScope scope parent
  let id ← newId
  define scope name.lexeme (.class (.derive ⟨id, name.lexeme, methodTable inner methods⟩ parent))

mutual

def evaluate : Nat → Nat → Expr → Run Value
  | 0, _, _ => throw .exhausted
  | n + 1, scope, e =>
    match e with
    | .literal v => return .ofLiteral v
    | .grouping e => evaluate n scope e
    | .unary op e => do
      let v ← evaluate n scope e
      blaming op (Operation.unary op.kind v)
    | .binary l op r => do
      let a ← evaluate n scope l
      let b ← evaluate n scope r
      blaming op (Operation.binary op.kind a b)
    | .logical l op r => do
      let a ← evaluate n scope l
      if Operation.decides op.kind a then return a else evaluate n scope r
    | .var ref => read scope ref
    | .assign ref e => do
      let v ← evaluate n scope e
      write scope ref v
      return v
    | .call callee paren args => do
      let f ← evaluate n scope callee
      let vs ← arguments (evaluate n scope) args
      checkArity f vs paren
      invoke (execute n) f vs paren
    | .get e name => do
      let .instance id c ← evaluate n scope e | fail name .noProperties
      property id c name
    | .set e name value => do
      let .instance id _ ← evaluate n scope e | fail name .noFields
      let v ← evaluate n scope value
      setField id name.lexeme v
      return v
    | .this ref => read scope ref
    | .super ref method => superMethod scope ref method

def execute : Nat → Nat → Stmt → Run Flow
  | 0, _, _ => throw .exhausted
  | n + 1, scope, s =>
    match s with
    | .expression e => do
      let _ ← evaluate n scope e
      return .normal
    | .print e => do
      let v ← evaluate n scope e
      printLine v.text
      return .normal
    | .var name initializer => do
      let v ← match initializer with
        | some e => evaluate n scope e
        | none => pure .nil
      define scope name.lexeme v
      return .normal
    | .block body => do
      let inner ← newScope scope
      sequence (execute n inner) body
    | .if condition yes no => do
      let v ← evaluate n scope condition
      if v.truthy then execute n scope yes
      else match no with
        | some s => execute n scope s
        | none => return .normal
    | .while condition body => loop n scope condition body
    | .function f => do
      define scope f.name.lexeme (← newFunction ⟨f, scope, false⟩)
      return .normal
    | .return _ value => do
      match value with
      | some e => return .returned (← evaluate n scope e)
      | none => return .returned .nil
    | .class name superclass methods => do
      declareClass scope name superclass methods
      return .normal

/-- A `while` loop. -/
def loop : Nat → Nat → Expr → Stmt → Run Flow
  | 0, _, _, _ => throw .exhausted
  | n + 1, scope, condition, body => do
    let v ← evaluate n scope condition
    if v.truthy then
      match ← execute n scope body with
      | .normal => loop n scope condition body
      | .returned v => return .returned v
    else
      return .normal

end

/-- The statements of a program at top level, where a `return` ends nothing
but its own statement. -/
def program (n : Nat) : List Stmt → Run Unit
  | [] => return ()
  | s :: ss => do
    let _ ← execute n Machine.global s
    program n ss

end Evaluation

end Lox
