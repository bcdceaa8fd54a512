import Lox.Grammar.Cursor

/-!
# Expressions

One step for each level of precedence, each built from the level that binds
tighter. A level repeats or nests only behind a token it has consumed, so
the number of tokens left bounds both; with no token left an expression fails
for want of one.
-/

set_option autoImplicit false

namespace Lox.Grammar

/-- Occurrence `t` of a name under a fresh identity. -/
def reference (t : Token) : Step Reference := do
  return ⟨← fresh, t⟩

def superAccess (keyword : Token) : Step Expr := do
  let _ ← expect .dotAfterSuper
  let method ← expect .superMethodName
  return .super (← reference keyword) method

def group (inner : Step Expr) : Step Expr := do
  let e ← inner
  let _ ← expect .closeGroup
  return .grouping e

/-- What token `t` begins, once it is consumed; `inner` reads an expression. -/
def primaryOf (inner : Step Expr) (t : Token) : Option (Step Expr) :=
  match t.kind with
  | .word .false => some (return .literal (.bool false))
  | .word .true => some (return .literal (.bool true))
  | .word .nil => some (return .literal .nil)
  | .number x => some (return .literal (.number x))
  | .string s => some (return .literal (.string s))
  | .word .super => some (superAccess t)
  | .word .this => some (do return .this (← reference t))
  | .identifier => some (do return .var (← reference t))
  | .mark .leftParen => some (group inner)
  | _ => none

def primary (inner : Step Expr) : Step Expr := fun c =>
  match c.rest with
  | [] => fail .noExpression c
  | t :: ts =>
    match primaryOf inner t with
    | some p => p { c with rest := ts }
    | none => fail .noExpression c

/-- Report the argument or parameter after `count` others if it is one too many. -/
def limit (cause : ParseCause) (count : Nat) : Step Unit :=
  if maxArity ≤ count then reportHere cause else return ()

/-- One or more arguments, after `count` others; `n` bounds the tokens left. -/
def argumentsFrom (inner : Step Expr) : Nat → Nat → Step (List Expr)
  | 0, count => do
    limit .tooManyArguments count
    return [← inner]
  | n + 1, count => do
    limit .tooManyArguments count
    let e ← inner
    if ← accept (.mark .comma) then
      return e :: (← argumentsFrom inner n (count + 1))
    else
      return [e]

/-- The arguments of a call and the parenthesis that closes them. -/
def callArguments (inner : Step Expr) (n : Nat) : Step (List Expr × Token) := do
  let args ← if ← nextIs (.mark .rightParen) then pure [] else argumentsFrom inner n 0
  return (args, ← expect .closeArguments)

/-- Calls and property accesses behind `e`. -/
def suffixes (inner : Step Expr) : Nat → Expr → Step Expr
  | 0, e => return e
  | n + 1, e => do
    if ← accept (.mark .leftParen) then
      let (args, paren) ← callArguments inner n
      suffixes inner n (.call e paren args)
    else if ← accept (.mark .dot) then
      let name ← expect .propertyName
      suffixes inner n (.get e name)
    else
      return e

def call (inner : Step Expr) (n : Nat) : Step Expr := do
  suffixes inner n (← primary inner)

/-- The operators before an operand, outermost first. -/
def unaryOperators : Nat → Step (List Token)
  | 0 => return []
  | n + 1 => do
    match ← acceptIf fun k => k == .mark .bang || k == .mark .minus with
    | some op => return op :: (← unaryOperators n)
    | none => return []

def unary (inner : Step Expr) (n : Nat) : Step Expr := do
  let ops ← unaryOperators n
  let e ← call inner n
  return ops.foldr Expr.unary e

/-- Further operands behind `e`, grouped to the left. -/
def leftChain (operator : Kind → Bool) (join : Expr → Token → Expr → Expr) (operand : Step Expr) :
    Nat → Expr → Step Expr
  | 0, e => return e
  | n + 1, e => do
    match ← acceptIf operator with
    | some op =>
      let r ← operand
      leftChain operator join operand n (join e op r)
    | none => return e

def level (operator : Kind → Bool) (join : Expr → Token → Expr → Expr) (operand : Step Expr)
    (n : Nat) : Step Expr := do
  leftChain operator join operand n (← operand)

def isFactorOperator (k : Kind) : Bool := k == .mark .slash || k == .mark .star

def isTermOperator (k : Kind) : Bool := k == .mark .minus || k == .mark .plus

def isComparisonOperator (k : Kind) : Bool :=
  k == .mark .greater || k == .mark .greaterEqual || k == .mark .less || k == .mark .lessEqual

def isEqualityOperator (k : Kind) : Bool := k == .mark .bangEqual || k == .mark .equalEqual

def factor (inner : Step Expr) (n : Nat) : Step Expr :=
  level isFactorOperator .binary (unary inner n) n

def term (inner : Step Expr) (n : Nat) : Step Expr :=
  level isTermOperator .binary (factor inner n) n

def comparison (inner : Step Expr) (n : Nat) : Step Expr :=
  level isComparisonOperator .binary (term inner n) n

def equality (inner : Step Expr) (n : Nat) : Step Expr :=
  level isEqualityOperator .binary (comparison inner n) n

def logicAnd (inner : Step Expr) (n : Nat) : Step Expr :=
  level (· == .word .and) .logical (equality inner n) n

def logicOr (inner : Step Expr) (n : Nat) : Step Expr :=
  level (· == .word .or) .logical (logicAnd inner n) n

/-- The assignment of `value` to `target` with the mark `equals` between them.
An invalid target is reported and stands for the whole. -/
def assignTo (target : Expr) (equals : Token) (value : Expr) : Step Expr :=
  match target with
  | .var ref => do return .assign (← reference ref.name) value
  | .get object name => return .set object name value
  | other => do
    report (fault .invalidTarget equals)
    return other

def assignment (inner : Step Expr) (n : Nat) : Step Expr := do
  let target ← logicOr inner n
  match ← accept? (.mark .equal) with
  | some equals => assignTo target equals (← inner)
  | none => return target

/-- An expression from at most `n` tokens. -/
def expression : Nat → Step Expr
  | 0 => fail .noExpression
  | n + 1 => assignment (expression n) (n + 1)

end Lox.Grammar
