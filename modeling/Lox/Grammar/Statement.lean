import Lox.Grammar.Expression

/-!
# Declarations and statements

A declaration that cannot be read is reported, and reading goes on behind the
next semicolon or before the next word that begins a statement. Statements
nest only behind a token they have consumed, so the number of tokens left
bounds the nesting.
-/

set_option autoImplicit false

namespace Lox.Grammar

/-- The words at which reading can go on after a fault. -/
def startsStatement : Kind → Bool
  | .word .class | .word .fun | .word .var | .word .for | .word .if | .word .while
  | .word .print | .word .return => true
  | _ => false

/-- The tokens to go on with, `previous` being the last one dropped. -/
def boundary (previous : Token) : List Token → List Token
  | [] => []
  | t :: ts =>
    if previous.kind == .mark .semicolon || startsStatement t.kind then t :: ts else boundary t ts

/-- Drop the next token and all up to a boundary behind it. -/
def synchronize : Step Unit := fun c =>
  match c.rest with
  | [] => .ok () c
  | t :: ts => .ok () { c with rest := boundary t ts }

def recovering {α : Type} (p : Step α) : Step (Option α) :=
  tryCatch (some <$> p) fun d => do
    report d
    synchronize
    return none

def endsBlock : Step Bool := do
  return (← nextIs (.mark .rightBrace)) || (← atEnd)

/-- Statements up to and including the closing brace. -/
def closedBy (body : Step (List Stmt)) : Step (List Stmt) := do
  let ss ← body
  let _ ← expect .closeBlock
  return ss

/-- One or more parameters, after `count` others; `n` bounds the tokens left. -/
def parametersFrom : Nat → Nat → Step (List Token)
  | 0, count => do
    limit .tooManyParameters count
    return [← expect .parameterName]
  | n + 1, count => do
    limit .tooManyParameters count
    let p ← expect .parameterName
    if ← accept (.mark .comma) then
      return p :: (← parametersFrom n (count + 1))
    else
      return [p]

def routine (r : Routine) (body : Step (List Stmt)) (n : Nat) : Step Function := do
  let name ← expect (.routineName r)
  let _ ← expect (.openParameters r)
  let params ← if ← nextIs (.mark .rightParen) then pure [] else parametersFrom n 0
  let _ ← expect .closeParameters
  let _ ← expect (.openBody r)
  return .mk name params (← closedBy body)

def methods (body : Step (List Stmt)) : Nat → Step (List Function)
  | 0 => return []
  | n + 1 => do
    if ← endsBlock then
      return []
    else
      let f ← routine .method body n
      return f :: (← methods body n)

def superclass : Step (Option Reference) := do
  if ← accept (.mark .less) then
    return some (← reference (← expect .superclassName))
  else
    return none

def classDeclaration (body : Step (List Stmt)) (n : Nat) : Step Stmt := do
  let name ← expect .className
  let parent ← superclass
  let _ ← expect .openClass
  let ms ← methods body n
  let _ ← expect .closeClass
  return .class name parent ms

/-- An expression unless the token `k` comes next. -/
def unlessNext (k : Kind) (expr : Step Expr) : Step (Option Expr) := do
  if ← nextIs k then return none else return some (← expr)

def varDeclaration (expr : Step Expr) : Step Stmt := do
  let name ← expect .variableName
  let initializer ← if ← accept (.mark .equal) then some <$> expr else pure none
  let _ ← expect .endOfVariable
  return .var name initializer

def expressionStatement (expr : Step Expr) : Step Stmt := do
  let e ← expr
  let _ ← expect .endOfExpression
  return .expression e

def printStatement (expr : Step Expr) : Step Stmt := do
  let e ← expr
  let _ ← expect .endOfPrint
  return .print e

def returnStatement (keyword : Token) (expr : Step Expr) : Step Stmt := do
  let value ← unlessNext (.mark .semicolon) expr
  let _ ← expect .endOfReturn
  return .return keyword value

def ifStatement (expr : Step Expr) (inner : Step Stmt) : Step Stmt := do
  let _ ← expect .openIf
  let condition ← expr
  let _ ← expect .closeIf
  let yes ← inner
  let no ← if ← accept (.word .else) then some <$> inner else pure none
  return .if condition yes no

def whileStatement (expr : Step Expr) (inner : Step Stmt) : Step Stmt := do
  let _ ← expect .openWhile
  let condition ← expr
  let _ ← expect .closeWhile
  return .while condition (← inner)

def forInitializer (expr : Step Expr) : Step (Option Stmt) := do
  if ← accept (.mark .semicolon) then return none
  else if ← accept (.word .var) then some <$> varDeclaration expr
  else some <$> expressionStatement expr

/-- A `for` loop in terms of blocks and `while`. -/
def forLoop (initializer : Option Stmt) (condition increment : Option Expr) (body : Stmt) : Stmt :=
  let body := match increment with
    | some e => .block [body, .expression e]
    | none => body
  let loop := .while (condition.getD (.literal (.bool true))) body
  match initializer with
  | some s => .block [s, loop]
  | none => loop

def forStatement (expr : Step Expr) (inner : Step Stmt) : Step Stmt := do
  let _ ← expect .openFor
  let initializer ← forInitializer expr
  let condition ← unlessNext (.mark .semicolon) expr
  let _ ← expect .endOfCondition
  let increment ← unlessNext (.mark .rightParen) expr
  let _ ← expect .closeFor
  return forLoop initializer condition increment (← inner)

/-- A statement; `inner` reads a nested one and `body` the inside of a block. -/
def statementWith (expr : Step Expr) (inner : Step Stmt) (body : Step (List Stmt)) :
    Step Stmt := do
  if ← accept (.word .for) then forStatement expr inner
  else if ← accept (.word .if) then ifStatement expr inner
  else if ← accept (.word .print) then printStatement expr
  else if let some keyword ← accept? (.word .return) then returnStatement keyword expr
  else if ← accept (.word .while) then whileStatement expr inner
  else if ← accept (.mark .leftBrace) then return .block (← closedBy body)
  else expressionStatement expr

/-- A declaration, or nothing when a fault had to be passed over. -/
def declarationWith (n : Nat) (inner : Step Stmt) (body : Step (List Stmt)) :
    Step (Option Stmt) :=
  recovering do
    if ← accept (.word .class) then classDeclaration body n
    else if ← accept (.word .fun) then Stmt.function <$> routine .function body n
    else if ← accept (.word .var) then varDeclaration (expression n)
    else statementWith (expression n) inner body

mutual

/-- A statement from at most `n` tokens. -/
def statement : Nat → Step Stmt
  | 0 => fail .noExpression
  | n + 1 => statementWith (expression (n + 1)) (statement n) (declarations n)

/-- The declarations up to the end of a block, from at most `n` tokens. -/
def declarations : Nat → Step (List Stmt)
  | 0 => return []
  | n + 1 => do
    if ← endsBlock then
      return []
    else
      let s ← declarationWith (n + 1) (statement n) (declarations n)
      return s.toList ++ (← declarations n)

end

/-- The declarations up to the end of the input; a closing brace ends nothing here. -/
def topLevel : Nat → Step (List Stmt)
  | 0 => return []
  | n + 1 => do
    if ← atEnd then
      return []
    else
      let s ← declarationWith (n + 1) (statement n) (declarations n)
      return s.toList ++ (← topLevel n)

def wholeExpression (n : Nat) : Step Expr := do
  let e ← expression n
  if ← atEnd then return e else fail .leftover

/-- What a reading comes to: its result if nothing was reported, otherwise all
diagnostics, of which the one that stopped it is the last. -/
structure Reading (α : Type) where
  result : Except (List Diagnostic) α
  nextId : Nat

def Reading.ofStep {α : Type} (p : Nat → Step α) (nextId : Nat) (ts : List Token) : Reading α :=
  let c := Cursor.ofTokens nextId ts
  match p c.rest.length c with
  | .ok a c' =>
    ⟨if c'.reports.isEmpty then .ok a else .error c'.reports.toList, c'.nextId⟩
  | .error d c' => ⟨.error (c'.reports.push d).toList, c'.nextId⟩

/-- Read a whole program; references take identities from `nextId` on. -/
def readProgram : (nextId : Nat) → List Token → Reading (List Stmt) := Reading.ofStep topLevel

/-- Read a single expression up to the end of the input. -/
def readExpression : (nextId : Nat) → List Token → Reading Expr := Reading.ofStep wholeExpression

end Lox.Grammar
