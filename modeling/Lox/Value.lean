import Lox.Diagnostic
import Lox.Names
import Lox.Text.Quoted
import Lox.Tree

/-!
# Values

Everything of a value that cannot change is in the value. Functions, classes
and instances have an identity by which they are compared; what can change,
the names of a scope and the fields of an instance, is reached by number.
-/

set_option autoImplicit false

namespace Lox

/-- A declaration together with the scope it was executed in. -/
structure Closure where
  declaration : Function
  scope : Nat
  isInitializer : Bool

namespace Closure

def name (f : Closure) : String := f.declaration.name.lexeme

def arity (f : Closure) : Nat := f.declaration.params.length

def text (f : Closure) : String := "<fn " ++ f.name ++ ">"

end Closure

/-- What a function of the host does: tell the time, or what it was given for. -/
inductive HostCode where
  | clock
  | given (index : Nat)
deriving DecidableEq, Repr

structure HostFunction where
  name : String
  arity : Nat
  code : HostCode
deriving DecidableEq, Repr

/-- Unlike a printed value this tells functions of the host apart. -/
def HostFunction.text (f : HostFunction) : String := "<native fn " ++ f.name ++ ">"

/-- What one class declaration contributes to a class. -/
structure ClassBody where
  id : Nat
  name : String
  methods : Names Closure

/-- A class and, nearest first, all classes it inherits from. -/
structure Class where
  body : ClassBody
  ancestors : List ClassBody

namespace Class

def name (c : Class) : String := c.body.name

/-- Unlike a printed value this tells a class from a text. -/
def text (c : Class) : String := "<class " ++ c.name ++ ">"

def superclass? (c : Class) : Option Class :=
  match c.ancestors with
  | [] => none
  | b :: bs => some ⟨b, bs⟩

/-- The class of a declaration with the superclass given. -/
def derive (body : ClassBody) : Option Class → Class
  | none => ⟨body, []⟩
  | some c => ⟨body, c.body :: c.ancestors⟩

/-- The method of this name in the nearest class that has one. -/
def findMethod? (c : Class) (name : String) : Option Closure :=
  (c.body :: c.ancestors).findSome? (·.methods.get? name)

def initializer? (c : Class) : Option Closure := c.findMethod? Function.initializerName

/-- The number of arguments that make an instance. -/
def arity (c : Class) : Nat := (c.initializer?.map Closure.arity).getD 0

end Class

inductive Value where
  | nil
  | bool (b : Bool)
  | number (x : Float)
  | string (s : String)
  | function (id : Nat) (code : Closure)
  | host (id : Nat) (code : HostFunction)
  | class (c : Class)
  | instance (id : Nat) (c : Class)

namespace Value

/-- All values but `nil` and `false` count as true. -/
def truthy : Value → Bool
  | nil => false
  | bool b => b
  | _ => true

def typeName : Value → String
  | nil => "nil"
  | bool _ => "boolean"
  | number _ => "number"
  | string _ => "string"
  | function .. | host .. => "function"
  | «class» _ => "class"
  | «instance» .. => "instance"

/-- Equality as the language has it. An undefined number differs from itself. -/
def equals : Value → Value → Bool
  | nil, nil => true
  | bool a, bool b => a == b
  | number a, number b => a == b
  | string a, string b => a == b
  | function a _, function b _ => a == b
  | host a _, host b _ => a == b
  | «class» a, «class» b => a.body.id == b.body.id
  | «instance» a _, «instance» b _ => a == b
  | _, _ => false

/-- What `print` shows. -/
def text : Value → String
  | nil => "nil"
  | bool b => if b then "true" else "false"
  | number x => Number.shownText x
  | string s => s
  | function _ f => f.text
  | host .. => "<native fn>"
  | «class» c => c.name
  | «instance» _ c => c.name ++ " instance"

/-- As `text`, but with strings quoted. -/
def quotedText : Value → String
  | string s => Text.quoted s
  | v => v.text

def ofLiteral : Literal → Value
  | .nil => nil
  | .bool b => bool b
  | .number x => number x
  | .string s => string s

/-- The number of arguments a call takes, if the value can be called. -/
def arity? : Value → Option Nat
  | function _ f => some f.arity
  | host _ f => some f.arity
  | «class» c => some c.arity
  | _ => none

end Value

end Lox
