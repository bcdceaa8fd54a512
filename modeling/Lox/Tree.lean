import Lox.Token

/-!
# Expression and statement trees

A tree keeps the tokens that diagnostics and printed forms need. Each place
that refers to a binding is a `Reference` with an identity of its own, so that
what is known statically of one occurrence is never taken for another's.
-/

set_option autoImplicit false

namespace Lox

inductive Literal where
  | nil
  | bool (b : Bool)
  | number (x : Float)
  | string (s : String)
deriving DecidableEq, Repr

/-- An occurrence of a name: a variable, an assigned variable, `this`, `super`
or the superclass of a class. -/
structure Reference where
  id : Nat
  name : Token
deriving DecidableEq, Repr

inductive Expr where
  | literal (value : Literal)
  | grouping (inner : Expr)
  | unary (operator : Token) (right : Expr)
  | binary (left : Expr) (operator : Token) (right : Expr)
  | logical (left : Expr) (operator : Token) (right : Expr)
  | var (ref : Reference)
  | assign (ref : Reference) (value : Expr)
  | call (callee : Expr) (paren : Token) (arguments : List Expr)
  | get (object : Expr) (name : Token)
  | set (object : Expr) (name : Token) (value : Expr)
  | this (ref : Reference)
  | super (ref : Reference) (method : Token)
deriving Repr

mutual

inductive Stmt where
  | expression (value : Expr)
  | print (value : Expr)
  | var (name : Token) (initializer : Option Expr)
  | block (body : List Stmt)
  | «if» (condition : Expr) (yes : Stmt) (no : Option Stmt)
  | «while» (condition : Expr) (body : Stmt)
  | function (declaration : Function)
  | «return» (keyword : Token) (value : Option Expr)
  | «class» (name : Token) (superclass : Option Reference) (methods : List Function)

/-- The declaration of a function or a method. -/
inductive Function where
  | mk (name : Token) (params : List Token) (body : List Stmt)

end

namespace Function

def name : Function → Token
  | mk name _ _ => name

def params : Function → List Token
  | mk _ params _ => params

def body : Function → List Stmt
  | mk _ _ body => body

/-- A method of this name constructs the instances of its class. -/
def initializerName : String := "init"

def isInitializer (f : Function) : Bool := f.name.lexeme == initializerName

end Function

end Lox
