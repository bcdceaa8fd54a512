import Lox.Token

/-!
# Diagnostics

Everything that can be wrong with a program is a cause with a line. Causes
found before a program runs also say where in the token stream they stand.
The wording of each cause is fixed here and nowhere else.
-/

set_option autoImplicit false

namespace Lox

/-- Where in the token stream a program is at fault. -/
inductive Place where
  | atEnd
  | lexeme (text : String)
deriving DecidableEq, Repr

namespace Place

def ofToken (t : Token) : Place := if t.kind = .finish then atEnd else lexeme t.lexeme

def text : Place → String
  | atEnd => " at end"
  | lexeme s => " at '" ++ s ++ "'"

end Place

inductive LexicalCause where
  | unexpectedCharacter (c : Char)
  | unterminatedString
deriving DecidableEq, Repr

/-- A function stands on its own or in a class. -/
inductive Routine where
  | function
  | method
deriving DecidableEq, Repr

/-- The points of the grammar at which one kind of token has to come next. -/
inductive Expectation where
  | className
  | superclassName
  | openClass
  | closeClass
  | routineName (r : Routine)
  | openParameters (r : Routine)
  | parameterName
  | closeParameters
  | openBody (r : Routine)
  | variableName
  | endOfVariable
  | openFor
  | endOfCondition
  | closeFor
  | openIf
  | closeIf
  | openWhile
  | closeWhile
  | endOfPrint
  | endOfReturn
  | endOfExpression
  | closeBlock
  | propertyName
  | closeArguments
  | dotAfterSuper
  | superMethodName
  | closeGroup
deriving DecidableEq, Repr

inductive ParseCause where
  | missing (e : Expectation)
  | noExpression
  | leftover
  | tooManyParameters
  | tooManyArguments
  | invalidTarget
deriving DecidableEq, Repr

inductive ScopingCause where
  | alreadyDeclared
  | ownInitializer
  | returnOutsideFunction
  | returnFromInitializer
  | inheritsFromItself
  | thisOutsideClass
  | superOutsideClass
  | superWithoutSuperclass
deriving DecidableEq, Repr

inductive RuntimeCause where
  | undefinedVariable (name : String)
  | undefinedProperty (name : String)
  | operandNotNumber
  | operandsNotNumbers
  | operandsNotAddable
  | divisionByZero
  | invalidUnary
  | invalidBinary
  | notCallable
  | arity (expected given : Nat)
  | noProperties
  | noFields
  | superclassNotClass
  | superOutsideClass
  | host (message : String)
deriving DecidableEq, Repr

/-- The ways in which the output can refuse what is printed. -/
inductive SinkFault where
  | full
  | flush
deriving DecidableEq, Repr

inductive Diagnostic where
  | lexical (line : Nat) (cause : LexicalCause)
  | parse (line : Nat) (place : Place) (cause : ParseCause)
  | scoping (line : Nat) (place : Place) (cause : ScopingCause)
  | runtime (line : Nat) (cause : RuntimeCause)
  | sink (fault : SinkFault)
deriving DecidableEq, Repr

/-- The most parameters a function and arguments a call may have. -/
def maxArity : Nat := 8

def LexicalCause.message : LexicalCause → String
  | unexpectedCharacter c => "Unexpected character: " ++ c.toString
  | unterminatedString => "Unterminated string."

def Routine.name : Routine → String
  | function => "function"
  | method => "method"

namespace Expectation

/-- The kind of token that has to come. -/
def kind : Expectation → Kind
  | className | superclassName | routineName _ | parameterName | variableName | propertyName
  | superMethodName => .identifier
  | openClass | openBody _ => .mark .leftBrace
  | closeClass | closeBlock => .mark .rightBrace
  | openParameters _ | openFor | openIf | openWhile => .mark .leftParen
  | closeParameters | closeFor | closeIf | closeWhile | closeArguments | closeGroup =>
    .mark .rightParen
  | endOfVariable | endOfCondition | endOfPrint | endOfReturn | endOfExpression =>
    .mark .semicolon
  | dotAfterSuper => .mark .dot

def message : Expectation → String
  | className => "Expect class name."
  | superclassName => "Expect superclass name."
  | openClass => "Expect '\x7b' before class body."
  | closeClass => "Expect '\x7d' after class body."
  | routineName r => "Expect " ++ r.name ++ " name."
  | openParameters r => "Expect '(' after " ++ r.name ++ " name."
  | parameterName => "Expect parameter name."
  | closeParameters => "Expect ')' after parameters."
  | openBody r => "Expect '\x7b' before " ++ r.name ++ " body."
  | variableName => "Expect variable name."
  | endOfVariable => "Expect ';' after variable declaration."
  | openFor => "Expect '(' after 'for'."
  | endOfCondition => "Expect ';' after loop condition."
  | closeFor => "Expect ')' after for clauses."
  | openIf => "Expect '(' after 'if'."
  | closeIf => "Expect ')' after if condition."
  | openWhile => "Expect '(' after 'while'."
  | closeWhile => "Expect ')' after condition."
  | endOfPrint => "Expect ';' after value."
  | endOfReturn => "Expect ';' after return value."
  | endOfExpression => "Expect ';' after expression."
  | closeBlock => "Expect '\x7d' after block."
  | propertyName => "Expect property name after '.'."
  | closeArguments => "Expect ')' after arguments."
  | dotAfterSuper => "Expect '.' after 'super'."
  | superMethodName => "Expect superclass method name."
  | closeGroup => "Expect ')' after expression."

end Expectation

def ParseCause.message : ParseCause → String
  | missing e => e.message
  | noExpression => "Expect expression."
  | leftover => "Expect end of expression."
  | tooManyParameters => "Can't have more than " ++ Nat.repr maxArity ++ " parameters."
  | tooManyArguments => "Can't have more than " ++ Nat.repr maxArity ++ " arguments."
  | invalidTarget => "Invalid assignment target."

def ScopingCause.message : ScopingCause → String
  | alreadyDeclared => "Already a variable with this name in this scope."
  | ownInitializer => "Can't read local variable in its own initializer."
  | returnOutsideFunction => "Can't return from top-level code."
  | returnFromInitializer => "Can't return a value from an initializer."
  | inheritsFromItself => "A class can't inherit from itself."
  | thisOutsideClass => "Can't use 'this' outside of a class."
  | superOutsideClass => "Can't use 'super' outside of a class."
  | superWithoutSuperclass => "Can't use 'super' in a class with no superclass."

def RuntimeCause.message : RuntimeCause → String
  | undefinedVariable name => "Undefined variable '" ++ name ++ "'."
  | undefinedProperty name => "Undefined property '" ++ name ++ "'."
  | operandNotNumber => "Operand must be a number."
  | operandsNotNumbers => "Operands must be numbers."
  | operandsNotAddable => "Operands must be two numbers or two strings."
  | divisionByZero => "Attempt to divide by zero."
  | invalidUnary => "Invalid unary operator."
  | invalidBinary => "Invalid binary operator."
  | notCallable => "Can only call functions and classes."
  | arity expected given =>
    "Expected " ++ Nat.repr expected ++ " arguments but got " ++ Nat.repr given ++ "."
  | noProperties => "Only instances have properties."
  | noFields => "Only instances have fields."
  | superclassNotClass => "Superclass must be a class."
  | superOutsideClass => "Can't use 'super' outside of a class."
  | host message => message

def SinkFault.message : SinkFault → String
  | full => "sink full"
  | flush => "flush failed"

namespace Diagnostic

def message : Diagnostic → String
  | lexical _ cause => cause.message
  | parse _ _ cause => cause.message
  | scoping _ _ cause => cause.message
  | runtime _ cause => cause.message
  | sink fault => fault.message

def line? : Diagnostic → Option Nat
  | lexical line _ => some line
  | parse line _ _ => some line
  | scoping line _ _ => some line
  | runtime line _ => some line
  | sink _ => none

/-- Whether the fault is found before anything runs. -/
def isStatic : Diagnostic → Bool
  | lexical .. | parse .. | scoping .. => true
  | runtime .. | sink _ => false

private def located (line : Nat) (place message : String) : String :=
  "[line " ++ Nat.repr line ++ "] Error" ++ place ++ ": " ++ message

/-- The text a reader sees: a static fault names its line first and a runtime
fault last. -/
def text : Diagnostic → String
  | lexical line cause => located line "" cause.message
  | parse line place cause => located line place.text cause.message
  | scoping line place cause => located line place.text cause.message
  | runtime line cause => cause.message ++ "\n[line " ++ Nat.repr line ++ "]"
  | sink fault => fault.message

end Diagnostic

end Lox
