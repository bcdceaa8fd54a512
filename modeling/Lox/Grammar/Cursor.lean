import Lox.Diagnostic
import Lox.Tree

/-!
# Reading tokens one after another

A cursor holds the tokens that are left before the end of the input, the token
of that end, the next free identity for a reference and the diagnostics
reported so far. A step either yields a result or stops with a diagnostic; what
was reported and consumed before stays so.
-/

set_option autoImplicit false

namespace Lox.Grammar

structure Cursor where
  rest : List Token
  finish : Token
  nextId : Nat
  reports : Array Diagnostic

abbrev Step := EStateM Diagnostic Cursor

namespace Cursor

/-- Only the tokens before the first end of input count. A list without one
ends on the line of its last token. -/
def ofTokens (nextId : Nat) (ts : List Token) : Cursor where
  rest := ts.takeWhile (·.kind != .finish)
  finish := (ts.find? (·.kind == .finish)).getD ⟨.finish, "", (ts.getLast?.map (·.line)).getD 1⟩
  nextId
  reports := #[]

/-- The token that comes next, which at the end is the token of the end. -/
def peek (c : Cursor) : Token := c.rest.headD c.finish

end Cursor

def fault (cause : ParseCause) (t : Token) : Diagnostic :=
  .parse t.line (Place.ofToken t) cause

/-- Stop at the token that comes next. -/
def fail {α : Type} (cause : ParseCause) : Step α :=
  fun c => .error (fault cause c.peek) c

/-- Report a violation of a rule and go on. -/
def report (d : Diagnostic) : Step Unit :=
  fun c => .ok () { c with reports := c.reports.push d }

def reportHere (cause : ParseCause) : Step Unit :=
  fun c => .ok () { c with reports := c.reports.push (fault cause c.peek) }

/-- An identity that no reference has yet. -/
def fresh : Step Nat :=
  fun c => .ok c.nextId { c with nextId := c.nextId + 1 }

def atEnd : Step Bool :=
  fun c => .ok c.rest.isEmpty c

def nextIs (k : Kind) : Step Bool :=
  fun c => .ok (c.rest.head?.any (·.kind == k)) c

/-- Consume the next token if its kind satisfies `p`. -/
def acceptIf (p : Kind → Bool) : Step (Option Token) := fun c =>
  match c.rest with
  | t :: ts => if p t.kind then .ok (some t) { c with rest := ts } else .ok none c
  | [] => .ok none c

def accept? (k : Kind) : Step (Option Token) := acceptIf (· == k)

def accept (k : Kind) : Step Bool := do return (← accept? k).isSome

/-- Consume the token the grammar demands here, or stop. -/
def expect (e : Expectation) : Step Token := do
  match ← accept? e.kind with
  | some t => return t
  | none => fail (.missing e)

end Lox.Grammar
