import Lox.Diagnostic
import Lox.Tree

/-!
# Static scoping

For every reference the scoping of a program says how many scopes lie between
it and the scope that declares its name, or that none does and the name is
global. Along the way it finds the faults that need no run to be seen. What is
found is a list in the order of the walk; the walk changes no state but the
names of the innermost scope.
-/

set_option autoImplicit false

namespace Lox.Scoping

/-- The names of one scope. A name is declared before its initializer and
defined, which `true` stands for, behind it; the latest entry counts. -/
abbrev Frame := List (String × Bool)

/-- The scopes around a place in a program, innermost first. Outside of all of
them names are global and not tracked. -/
abbrev Frames := List Frame

/-- The kind of function a statement stands in. -/
inductive Body where
  | none
  | function
  | method
  | initializer
deriving DecidableEq, Repr

/-- The kind of class a statement stands in. -/
inductive Family where
  | none
  | «class»
  | subclass
deriving DecidableEq, Repr

structure Context where
  body : Body := .none
  family : Family := .none
deriving DecidableEq, Repr

inductive Finding where
  | fault (d : Diagnostic)
  | lookup (ref : Reference) (depth : Option Nat)
deriving DecidableEq, Repr

def fault (cause : ScopingCause) (t : Token) : Finding :=
  .fault (.scoping t.line (Place.ofToken t) cause)

def Frame.binds (f : Frame) (name : String) : Bool := (f.lookup name).isSome

/-- The number of scopes to go up to the nearest one with this name. -/
def depth? (fs : Frames) (name : String) : Option Nat := fs.findIdx? (·.binds name)

def find (fs : Frames) (ref : Reference) : Finding := .lookup ref (depth? fs ref.name.lexeme)

def define (fs : Frames) (name : String) : Frames :=
  match fs with
  | [] => []
  | f :: fs => ((name, true) :: f) :: fs

def declare (fs : Frames) (name : String) : Frames :=
  match fs with
  | [] => []
  | f :: fs => (if f.binds name then f else (name, false) :: f) :: fs

/-- Whether the innermost scope has this name already. -/
def redeclares (fs : Frames) (name : String) : Bool := fs.head?.any (·.binds name)

def declarationFaults (fs : Frames) (t : Token) : List Finding :=
  if redeclares fs t.lexeme then [fault .alreadyDeclared t] else []

/-- Whether this name is declared but not defined in the innermost scope. -/
def inOwnInitializer (fs : Frames) (name : String) : Bool :=
  fs.head?.any (·.lookup name == some false)

def read (fs : Frames) (ref : Reference) : List Finding :=
  (if inOwnInitializer fs ref.name.lexeme then [fault .ownInitializer ref.name] else []) ++
    [find fs ref]

def thisFindings (ctx : Context) (fs : Frames) (ref : Reference) : List Finding :=
  match ctx.family with
  | .none => [fault .thisOutsideClass ref.name]
  | .class | .subclass => [find fs ref]

def superFindings (ctx : Context) (fs : Frames) (ref : Reference) : List Finding :=
  (match ctx.family with
    | .none => [fault .superOutsideClass ref.name]
    | .class => [fault .superWithoutSuperclass ref.name]
    | .subclass => []) ++
    [find fs ref]

mutual

def expr (ctx : Context) (fs : Frames) : Expr → List Finding
  | .literal _ => []
  | .grouping e => expr ctx fs e
  | .unary _ e => expr ctx fs e
  | .binary l _ r => expr ctx fs l ++ expr ctx fs r
  | .logical l _ r => expr ctx fs l ++ expr ctx fs r
  | .var ref => read fs ref
  | .assign ref e => expr ctx fs e ++ [find fs ref]
  | .call callee _ args => expr ctx fs callee ++ exprs ctx fs args
  | .get e _ => expr ctx fs e
  | .set e _ v => expr ctx fs v ++ expr ctx fs e
  | .this ref => thisFindings ctx fs ref
  | .super ref _ => superFindings ctx fs ref

def exprs (ctx : Context) (fs : Frames) : List Expr → List Finding
  | [] => []
  | e :: es => expr ctx fs e ++ exprs ctx fs es

end

/-- An expression that may be missing. -/
def optional (ctx : Context) (fs : Frames) : Option Expr → List Finding
  | none => []
  | some e => expr ctx fs e

/-- The scope of a function with its parameters, and the faults in them. -/
def parameters (fs : Frames) : List Token → Frames × List Finding
  | [] => (fs, [])
  | p :: ps =>
    let (fs', found) := parameters (define (declare fs p.lexeme) p.lexeme) ps
    (fs', declarationFaults fs p ++ found)

def returnFaults (ctx : Context) (keyword : Token) (value : Option Expr) : List Finding :=
  (if ctx.body = .none then [fault .returnOutsideFunction keyword] else []) ++
    (if ctx.body = .initializer ∧ value.isSome then [fault .returnFromInitializer keyword] else [])

def superclassFindings (fs : Frames) (name : Token) : Option Reference → List Finding
  | none => []
  | some ref =>
    (if ref.name.lexeme = name.lexeme then [fault .inheritsFromItself ref.name] else []) ++
      read fs ref

/-- The scopes around the methods of a class: one for `super` if it has a
superclass, and inside it one for `this`. -/
def methodFrames (fs : Frames) (superclass : Option Reference) : Frames :=
  [("this", true)] :: (if superclass.isSome then [("super", true)] :: fs else fs)

def methodBody (f : Function) : Body := if f.isInitializer then .initializer else .method

mutual

/-- The scopes behind a statement and what was found in it. -/
def stmt (ctx : Context) (fs : Frames) : Stmt → Frames × List Finding
  | .expression e => (fs, expr ctx fs e)
  | .print e => (fs, expr ctx fs e)
  | .var name initializer =>
    let declared := declare fs name.lexeme
    (define declared name.lexeme, declarationFaults fs name ++ optional ctx declared initializer)
  | .block body => (fs, (stmts ctx ([] :: fs) body).2)
  | .if condition yes no =>
    let inYes := stmt ctx fs yes
    let inNo := optionalStmt ctx inYes.1 no
    (inNo.1, expr ctx fs condition ++ inYes.2 ++ inNo.2)
  | .while condition body =>
    let inBody := stmt ctx fs body
    (inBody.1, expr ctx fs condition ++ inBody.2)
  | .function f =>
    let named := define (declare fs f.name.lexeme) f.name.lexeme
    (named, declarationFaults fs f.name ++ function ctx named .function f)
  | .return keyword value => (fs, returnFaults ctx keyword value ++ optional ctx fs value)
  | .class name superclass methods =>
    let named := define (declare fs name.lexeme) name.lexeme
    let family := if superclass.isSome then .subclass else .class
    (named, declarationFaults fs name ++ superclassFindings named name superclass ++
      methodsFindings { ctx with family } (methodFrames named superclass) methods)

def stmts (ctx : Context) (fs : Frames) : List Stmt → Frames × List Finding
  | [] => (fs, [])
  | s :: ss =>
    let first := stmt ctx fs s
    let others := stmts ctx first.1 ss
    (others.1, first.2 ++ others.2)

def optionalStmt (ctx : Context) (fs : Frames) : Option Stmt → Frames × List Finding
  | none => (fs, [])
  | some s => stmt ctx fs s

/-- A function has one scope for its parameters and its body together. -/
def function (ctx : Context) (fs : Frames) (body : Body) : Function → List Finding
  | .mk _ params ss =>
    let inside := parameters ([] :: fs) params
    inside.2 ++ (stmts { ctx with body } inside.1 ss).2

def methodsFindings (ctx : Context) (fs : Frames) : List Function → List Finding
  | [] => []
  | f :: others =>
    function ctx fs (methodBody f) f ++ methodsFindings ctx fs others

end

/-- Everything found in a program, in the order of the walk. -/
def program (ss : List Stmt) : List Finding := (stmts {} [] ss).2

namespace Finding

def fault? : Finding → Option Diagnostic
  | fault d => some d
  | lookup .. => none

def lookup? : Finding → Option (Reference × Option Nat)
  | fault _ => none
  | lookup ref depth => some (ref, depth)

end Finding

def faults (found : List Finding) : List Diagnostic := found.filterMap Finding.fault?

def lookups (found : List Finding) : List (Reference × Option Nat) :=
  found.filterMap Finding.lookup?

end Lox.Scoping
