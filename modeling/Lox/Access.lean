import Lox.Diagnostic
import Lox.Scopes

/-!
# Access to scopes

A binding is read or changed through an occurrence of its name: by walking
outwards from a scope, or in the scope a known number of links up. An
occurrence that no binding answers is blamed, and the scopes stay as they are.
-/

set_option autoImplicit false

namespace Lox

abbrev Access (α : Type) : Type → Type := EStateM Diagnostic (Scopes α)

namespace Access

variable {α : Type}

/-- Blame an occurrence of a name. -/
def undefined {β : Type} (name : Token) : Access α β :=
  throw (.runtime name.line (.undefinedVariable name.lexeme))

/-- Read a value for an occurrence of a name. -/
def reading (name : Token) (find : Scopes α → Option α) : Access α α := fun s =>
  match find s with
  | some v => .ok v s
  | none => undefined name s

/-- Change the scopes for an occurrence of a name. -/
def changing (name : Token) (change : Scopes α → Option (Scopes α)) : Access α Unit := fun s =>
  match change s with
  | some t => .ok () t
  | none => undefined name s

def get (i : Nat) (name : Token) : Access α α := reading name (·.get? i name.lexeme)

def getAt (i distance : Nat) (name : Token) : Access α α :=
  reading name (·.getAt? i distance name.lexeme)

def assign (i : Nat) (name : Token) (v : α) : Access α Unit :=
  changing name (·.assign? i name.lexeme v)

def assignAt (i distance : Nat) (name : Token) (v : α) : Access α Unit :=
  changing name (·.assignAt? i distance name.lexeme v)

end Access

end Lox
