import Lox.Grammar.Statement

/-!
# Counting from another start

A tree, a token or a diagnostic is shifted by counting its identities and its lines from
another start. Everything else stays as it is, so what a place or a fault is about does too.
-/

set_option autoImplicit false

namespace Lox

/-- How far identities and lines are moved on. -/
structure Shift where
  ids : Nat
  lines : Nat

variable (σ : Shift)

def Token.shift (t : Token) : Token := { t with line := t.line + σ.lines }

def Reference.shift (r : Reference) : Reference := ⟨r.id + σ.ids, r.name.shift σ⟩

def Diagnostic.shift : Diagnostic → Diagnostic
  | .lexical line cause => .lexical (line + σ.lines) cause
  | .parse line place cause => .parse (line + σ.lines) place cause
  | .scoping line place cause => .scoping (line + σ.lines) place cause
  | .runtime line cause => .runtime (line + σ.lines) cause
  | .sink fault => .sink fault

namespace Expr

mutual

def shift : Expr → Expr
  | literal v => literal v
  | grouping e => grouping (shift e)
  | unary op e => unary (op.shift σ) (shift e)
  | binary l op r => binary (shift l) (op.shift σ) (shift r)
  | logical l op r => logical (shift l) (op.shift σ) (shift r)
  | var r => var (r.shift σ)
  | assign r e => assign (r.shift σ) (shift e)
  | call callee paren es => call (shift callee) (paren.shift σ) (shiftAll es)
  | get e name => get (shift e) (name.shift σ)
  | set e name v => set (shift e) (name.shift σ) (shift v)
  | this r => this (r.shift σ)
  | super r method => super (r.shift σ) (method.shift σ)

def shiftAll : List Expr → List Expr
  | [] => []
  | e :: es => shift e :: shiftAll es

end

end Expr

mutual

def Stmt.shift : Stmt → Stmt
  | .expression e => .expression (e.shift σ)
  | .print e => .print (e.shift σ)
  | .var x e => .var (x.shift σ) (e.map (Expr.shift σ))
  | .block ss => .block (Stmt.shiftAll ss)
  | .if e yes no => .if (e.shift σ) (Stmt.shift yes) (Stmt.shiftOption no)
  | .while e s => .while (e.shift σ) (Stmt.shift s)
  | .function f => .function (Function.shift f)
  | .return t e => .return (t.shift σ) (e.map (Expr.shift σ))
  | .class x r ms => .class (x.shift σ) (r.map (Reference.shift σ)) (Function.shiftAll ms)

def Stmt.shiftAll : List Stmt → List Stmt
  | [] => []
  | s :: ss => Stmt.shift s :: Stmt.shiftAll ss

def Stmt.shiftOption : Option Stmt → Option Stmt
  | none => none
  | some s => some (Stmt.shift s)

def Function.shift : Function → Function
  | .mk x ps ss => .mk (x.shift σ) (ps.map (Token.shift σ)) (Stmt.shiftAll ss)

def Function.shiftAll : List Function → List Function
  | [] => []
  | f :: ms => Function.shift f :: Function.shiftAll ms

end

variable {σ}

theorem Stmt.shiftOption_eq (s : Option Stmt) : Stmt.shiftOption σ s = s.map (Stmt.shift σ) := by
  cases s <;> rfl

@[simp] theorem Token.shift_kind (t : Token) : (t.shift σ).kind = t.kind := rfl

@[simp] theorem Token.shift_lexeme (t : Token) : (t.shift σ).lexeme = t.lexeme := rfl

@[simp] theorem Token.shift_line (t : Token) : (t.shift σ).line = t.line + σ.lines := rfl

@[simp] theorem Reference.shift_id (r : Reference) : (r.shift σ).id = r.id + σ.ids := rfl

@[simp] theorem Reference.shift_name (r : Reference) : (r.shift σ).name = r.name.shift σ := rfl

theorem Function.shift_name (f : Function) : (f.shift σ).name = f.name.shift σ := by
  cases f
  rfl

/-- Neither tokens nor diagnostics have an identity. -/
theorem Token.map_shift_ids (ids : Nat) (ts : List Token) : ts.map (Token.shift ⟨ids, 0⟩) = ts :=
  List.map_id ts

theorem Diagnostic.shift_ids (ids : Nat) (d : Diagnostic) : d.shift ⟨ids, 0⟩ = d := by
  cases d <;> rfl

namespace Grammar

theorem fault_shift (cause : ParseCause) (t : Token) :
    fault cause (t.shift σ) = (fault cause t).shift σ := rfl

theorem shift_foldr_unary (ops : List Token) (e : Expr) :
    (ops.foldr Expr.unary e).shift σ =
      (ops.map (Token.shift σ)).foldr Expr.unary (e.shift σ) := by
  induction ops with
  | nil => rfl
  | cons op ops ih => exact congrArg (Expr.unary (op.shift σ)) ih

theorem shift_forLoop (i : Option Stmt) (e f : Option Expr) (s : Stmt) :
    (forLoop i e f s).shift σ =
      forLoop (i.map (Stmt.shift σ)) (e.map (Expr.shift σ)) (f.map (Expr.shift σ)) (s.shift σ) := by
  cases i <;> cases e <;> cases f <;> rfl

end Grammar

end Lox
