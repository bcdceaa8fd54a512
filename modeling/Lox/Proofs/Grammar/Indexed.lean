import Lox.Proofs.Grammar.Ebnf

/-!
# Reading by position

The reader as it moves over a list of tokens: it keeps the position of the next token, looks at
the token there and at the one before, and the list may go on behind the end of the input. To
ask for a token where there is none is an outcome of its own, and so is to move beyond a fence,
or a depth or a number of rounds beyond the bound. Each loop is given by one of its rounds.
-/

set_option autoImplicit false

namespace Lox.Grammar.Indexed

/-- The tokens with the position of the next one, and the last position to which reading may
move. -/
structure State where
  tokens : List Token
  fence : Nat
  current : Nat
  nextId : Nat
  reports : Array Diagnostic

/-- Why reading stops: by a fault, because a token was asked for that is not in the list, because
of a move beyond the fence, or because the bound was reached. -/
inductive Halt where
  | fault (d : Diagnostic)
  | outside
  | beyond
  | exhausted

abbrev Walk := EStateM Halt State

variable {α β σ : Type}

section Positions

def peek : Walk Token := fun s =>
  match s.tokens[s.current]? with
  | some t => .ok t s
  | none => .error .outside s

/-- The token before the next one. -/
def previous : Walk Token := fun s =>
  match s.current with
  | 0 => .error .outside s
  | i + 1 =>
    match s.tokens[i]? with
    | some t => .ok t s
    | none => .error .outside s

def isAtEnd : Walk Bool := do
  return (← peek).kind == .finish

def move : Walk Unit := fun s =>
  if s.current < s.fence then .ok () { s with current := s.current + 1 } else .error .beyond s

/-- Go on by one token, but not beyond the end. -/
def advance : Walk Token := do
  if ← isAtEnd then
    previous
  else
    move
    previous

def check (k : Kind) : Walk Bool := do
  if ← isAtEnd then
    return false
  else
    return (← peek).kind == k

def checkAny : List Kind → Walk Bool
  | [] => return false
  | k :: ks => do
    if ← check k then return true else checkAny ks

def matching (k : Kind) : Walk Bool := do
  if ← check k then
    let _ ← advance
    return true
  else
    return false

def failing (cause : ParseCause) : Walk α := do
  throw (.fault (fault cause (← peek)))

def report (d : Diagnostic) : Walk Unit :=
  modify fun s => { s with reports := s.reports.push d }

def reportHere (cause : ParseCause) : Walk Unit := do
  report (fault cause (← peek))

def consume (e : Expectation) : Walk Token := do
  if ← check e.kind then advance else failing (.missing e)

/-- An occurrence of a name under an identity that no other one has. -/
def reference (t : Token) : Walk Reference :=
  fun s => .ok ⟨s.nextId, t⟩ { s with nextId := s.nextId + 1 }

/-- Rounds of a loop, up to one that leaves it. -/
def rounds (round : σ → Walk (σ ⊕ β)) : Nat → σ → Walk β
  | 0, _ => throw .exhausted
  | n + 1, a => do
    match ← round a with
    | .inl a => rounds round n a
    | .inr b => return b

end Positions

section Expressions

def superAccess : Walk Expr := do
  let keyword ← previous
  let _ ← consume .dotAfterSuper
  let method ← consume .superMethodName
  return .super (← reference keyword) method

def group (inner : Walk Expr) : Walk Expr := do
  let e ← inner
  let _ ← consume .closeGroup
  return .grouping e

def primary (inner : Walk Expr) : Walk Expr := do
  if ← matching (.word .false) then return .literal (.bool false)
  else if ← matching (.word .true) then return .literal (.bool true)
  else if ← matching (.word .nil) then return .literal .nil
  else
    match (← peek).kind with
    | .number x => do
      let _ ← advance
      return .literal (.number x)
    | .string s => do
      let _ ← advance
      return .literal (.string s)
    | _ =>
      if ← matching (.word .super) then superAccess
      else if ← matching (.word .this) then return .this (← reference (← previous))
      else if ← matching .identifier then return .var (← reference (← previous))
      else if ← matching (.mark .leftParen) then group inner
      else failing .noExpression

/-- Report an item that is one too many behind `count` others. -/
def limit (cause : ParseCause) (count : Nat) : Walk Unit :=
  if maxArity ≤ count then reportHere cause else return ()

def argumentRound (inner : Walk Expr) (args : List Expr) : Walk (List Expr ⊕ List Expr) := do
  limit .tooManyArguments args.length
  let e ← inner
  if ← matching (.mark .comma) then
    return .inl (args ++ [e])
  else
    return .inr (args ++ [e])

def arguments (inner : Walk Expr) (n : Nat) : Walk (List Expr) := do
  if ← check (.mark .rightParen) then return [] else rounds (argumentRound inner) n []

def finishCall (inner : Walk Expr) (n : Nat) (callee : Expr) : Walk Expr := do
  let args ← arguments inner n
  let paren ← consume .closeArguments
  return .call callee paren args

def suffixRound (inner : Walk Expr) (n : Nat) (e : Expr) : Walk (Expr ⊕ Expr) := do
  if ← matching (.mark .leftParen) then
    return .inl (← finishCall inner n e)
  else if ← matching (.mark .dot) then
    return .inl (.get e (← consume .propertyName))
  else
    return .inr e

def call (inner : Walk Expr) (n : Nat) : Walk Expr := do
  rounds (suffixRound inner n) n (← primary inner)

def unary (inner : Walk Expr) (m : Nat) : Nat → Walk Expr
  | 0 => throw .exhausted
  | n + 1 => do
    if ← (do if ← matching (.mark .bang) then return true else matching (.mark .minus)) then
      let operator ← previous
      return .unary operator (← unary inner m n)
    else
      call inner m

def logicalRound (k : Kind) (operand : Walk Expr) (e : Expr) : Walk (Expr ⊕ Expr) := do
  if ← matching k then
    let operator ← previous
    return .inl (.logical e operator (← operand))
  else
    return .inr e

def binaryRound (operators : List Kind) (operand : Walk Expr) (e : Expr) : Walk (Expr ⊕ Expr) := do
  if ← checkAny operators then
    let operator ← advance
    return .inl (.binary e operator (← operand))
  else
    return .inr e

def chainRound : Chain → Walk Expr → Expr → Walk (Expr ⊕ Expr)
  | .or => logicalRound (.word .or)
  | .and => logicalRound (.word .and)
  | c => binaryRound c.operators

def chain (c : Chain) (operand : Walk Expr) (n : Nat) : Walk Expr := do
  rounds (chainRound c operand) n (← operand)

def logicOr (inner : Walk Expr) (n : Nat) : Walk Expr :=
  chain .or (chain .and (chain .equality (chain .comparison (chain .term
    (chain .factor (unary inner n n) n) n) n) n) n) n

/-- The assignment of a value; a target that cannot be assigned to is reported and stands. -/
def assignTo (target : Expr) (equals : Token) (value : Expr) : Walk Expr :=
  match target with
  | .var ref => do return .assign (← reference ref.name) value
  | .get object name => return .set object name value
  | other => do
    report (fault .invalidTarget equals)
    return other

def assignment (inner : Walk Expr) (n : Nat) : Walk Expr := do
  let target ← logicOr inner n
  if ← matching (.mark .equal) then
    let equals ← previous
    assignTo target equals (← inner)
  else
    return target

def expression : Nat → Walk Expr
  | 0 => throw .exhausted
  | n + 1 => assignment (expression n) (n + 1)

end Expressions

section Statements

def synchronizeRound (_ : Unit) : Walk (Unit ⊕ Unit) := do
  if ← isAtEnd then return .inr ()
  else if (← previous).kind == .mark .semicolon then return .inr ()
  else if startsStatement (← peek).kind then return .inr ()
  else
    let _ ← advance
    return .inl ()

def synchronize (n : Nat) : Walk Unit := do
  let _ ← advance
  rounds synchronizeRound n ()

/-- Whether a block or the body of a class does not go on. -/
def atClose : Walk Bool := do
  if ← check (.mark .rightBrace) then return true else isAtEnd

def parameterRound (params : List Token) : Walk (List Token ⊕ List Token) := do
  limit .tooManyParameters params.length
  let p ← consume .parameterName
  if ← matching (.mark .comma) then
    return .inl (params ++ [p])
  else
    return .inr (params ++ [p])

def parameters (n : Nat) : Walk (List Token) := do
  if ← check (.mark .rightParen) then return [] else rounds parameterRound n []

/-- A function or method; `block` reads its body behind the brace. -/
def routine (r : Routine) (block : Walk (List Stmt)) (n : Nat) : Walk Function := do
  let name ← consume (.routineName r)
  let _ ← consume (.openParameters r)
  let params ← parameters n
  let _ ← consume .closeParameters
  let _ ← consume (.openBody r)
  return .mk name params (← block)

def superclass : Walk (Option Reference) := do
  if ← matching (.mark .less) then
    let name ← consume .superclassName
    return some (← reference name)
  else
    return none

def methodRound (block : Walk (List Stmt)) (n : Nat) (methods : List Function) :
    Walk (List Function ⊕ List Function) := do
  if ← atClose then
    return .inr methods
  else
    return .inl (methods ++ [← routine .method block n])

def classDeclaration (block : Walk (List Stmt)) (n : Nat) : Walk Stmt := do
  let name ← consume .className
  let parent ← superclass
  let _ ← consume .openClass
  let methods ← rounds (methodRound block n) n []
  let _ ← consume .closeClass
  return .class name parent methods

def initialValue (expr : Walk Expr) : Walk (Option Expr) := do
  if ← matching (.mark .equal) then return some (← expr) else return none

def varDeclaration (expr : Walk Expr) : Walk Stmt := do
  let name ← consume .variableName
  let initializer ← initialValue expr
  let _ ← consume .endOfVariable
  return .var name initializer

def expressionStatement (expr : Walk Expr) : Walk Stmt := do
  let e ← expr
  let _ ← consume .endOfExpression
  return .expression e

def printStatement (expr : Walk Expr) : Walk Stmt := do
  let e ← expr
  let _ ← consume .endOfPrint
  return .print e

def unlessNext (k : Kind) (expr : Walk Expr) : Walk (Option Expr) := do
  if ← check k then return none else return some (← expr)

def returnStatement (expr : Walk Expr) : Walk Stmt := do
  let keyword ← previous
  let value ← unlessNext (.mark .semicolon) expr
  let _ ← consume .endOfReturn
  return .return keyword value

def elseBranch (statement : Walk Stmt) : Walk (Option Stmt) := do
  if ← matching (.word .else) then return some (← statement) else return none

def ifStatement (expr : Walk Expr) (statement : Walk Stmt) : Walk Stmt := do
  let _ ← consume .openIf
  let condition ← expr
  let _ ← consume .closeIf
  let yes ← statement
  let no ← elseBranch statement
  return .if condition yes no

def whileStatement (expr : Walk Expr) (statement : Walk Stmt) : Walk Stmt := do
  let _ ← consume .openWhile
  let condition ← expr
  let _ ← consume .closeWhile
  return .while condition (← statement)

def forInitializer (expr : Walk Expr) : Walk (Option Stmt) := do
  if ← matching (.mark .semicolon) then return none
  else if ← matching (.word .var) then return some (← varDeclaration expr)
  else return some (← expressionStatement expr)

def forStatement (expr : Walk Expr) (statement : Walk Stmt) : Walk Stmt := do
  let _ ← consume .openFor
  let initializer ← forInitializer expr
  let condition ← unlessNext (.mark .semicolon) expr
  let _ ← consume .endOfCondition
  let increment ← unlessNext (.mark .rightParen) expr
  let _ ← consume .closeFor
  return forLoop initializer condition increment (← statement)

def statementWith (expr : Walk Expr) (statement : Walk Stmt) (block : Walk (List Stmt)) :
    Walk Stmt := do
  if ← matching (.word .for) then forStatement expr statement
  else if ← matching (.word .if) then ifStatement expr statement
  else if ← matching (.word .print) then printStatement expr
  else if ← matching (.word .return) then returnStatement expr
  else if ← matching (.word .while) then whileStatement expr statement
  else if ← matching (.mark .leftBrace) then return .block (← block)
  else expressionStatement expr

/-- A declaration that cannot be read is reported and passed over. -/
def recovering (n : Nat) (p : Walk Stmt) : Walk (Option Stmt) := fun s =>
  match p s with
  | .ok stmt s => .ok (some stmt) s
  | .error (.fault d) s => (do report d; synchronize n; return none : Walk (Option Stmt)) s
  | .error halt s => .error halt s

def declarationWith (n : Nat) (statement : Walk Stmt) (block : Walk (List Stmt)) :
    Walk (Option Stmt) :=
  recovering n do
    if ← matching (.word .class) then classDeclaration block n
    else if ← matching (.word .fun) then return .function (← routine .function block n)
    else if ← matching (.word .var) then varDeclaration (expression n)
    else statement

def blockRound (declaration : Walk (Option Stmt)) (stmts : List Stmt) :
    Walk (List Stmt ⊕ List Stmt) := do
  if ← atClose then
    return .inr stmts
  else
    return .inl (stmts ++ (← declaration).toList)

mutual

def statement : Nat → Walk Stmt
  | 0 => throw .exhausted
  | n + 1 => statementWith (expression (n + 1)) (statement n) (block n)

/-- The inside of a block and the brace that closes it. -/
def block : Nat → Walk (List Stmt)
  | 0 => throw .exhausted
  | n + 1 => do
    let stmts ← rounds (blockRound (declarationWith n (statement n) (block n))) (n + 1) []
    let _ ← consume .closeBlock
    return stmts

end

def declaration (n : Nat) : Walk (Option Stmt) := declarationWith n (statement n) (block n)

def programRound (n : Nat) (stmts : List Stmt) : Walk (List Stmt ⊕ List Stmt) := do
  if ← isAtEnd then
    return .inr stmts
  else
    return .inl (stmts ++ (← declaration n).toList)

def program (n : Nat) : Walk (List Stmt) := rounds (programRound n) n []

def wholeExpression (n : Nat) : Walk Expr := do
  let e ← expression n
  if ← isAtEnd then return e else failing .leftover

end Statements

/-- What reading a list of tokens comes to, and the position at which it ends. -/
def reading (p : Walk α) (fence nextId : Nat) (tokens : List Token) :
    Except Halt (Reading α × Nat) :=
  match p ⟨tokens, fence, 0, nextId, #[]⟩ with
  | .ok a s =>
    .ok (⟨if s.reports.isEmpty then .ok a else .error s.reports.toList, s.nextId⟩, s.current)
  | .error (.fault d) s => .ok (⟨.error (s.reports.push d).toList, s.nextId⟩, s.current)
  | .error halt _ => .error halt

end Lox.Grammar.Indexed
