import Lox.Proofs.Scoping.Twin

/-!
# Spelling the names of one scope anew

The names that one scope of a program declares get new spellings, both where they are
declared and at every occurrence that scoping binds there. All other names keep theirs.
The scope is `k` scopes out from the place at hand.
-/

set_option autoImplicit false

namespace Lox

namespace Scoping

/-- The token with the new spelling, if its name is bound `k` scopes out. -/
def respell (spelling : String → String) (k : Nat) (fs : Frames) (t : Token) : Token :=
  if depth? fs t.lexeme = some k then { t with lexeme := spelling t.lexeme } else t

end Scoping

open Scoping

def Reference.respell (spelling : String → String) (k : Nat) (fs : Frames) (r : Reference) :
    Reference :=
  ⟨r.id, Scoping.respell spelling k fs r.name⟩

variable (spelling : String → String)

namespace Expr

mutual

def respell (k : Nat) (fs : Frames) : Expr → Expr
  | literal v => literal v
  | grouping e => grouping (respell k fs e)
  | unary op e => unary op (respell k fs e)
  | binary l op r => binary (respell k fs l) op (respell k fs r)
  | logical l op r => logical (respell k fs l) op (respell k fs r)
  | var r => var (r.respell spelling k fs)
  | assign r e => assign (r.respell spelling k fs) (respell k fs e)
  | call f paren es => call (respell k fs f) paren (respellAll k fs es)
  | get e name => get (respell k fs e) name
  | set e name v => set (respell k fs e) name (respell k fs v)
  | this r => this r
  | super r method => super r method

def respellAll (k : Nat) (fs : Frames) : List Expr → List Expr
  | [] => []
  | e :: es => respell k fs e :: respellAll k fs es

end

end Expr

/-- A declaration counts as an occurrence in the scopes behind it. -/
def Stmt.respellVar (k : Nat) (fs : Frames) (x : Token) (e : Option Expr) : Stmt :=
  .var (Scoping.respell spelling k (binding fs x.lexeme) x)
    (e.map (Expr.respell spelling k (declare fs x.lexeme)))

mutual

def Stmt.respell (k : Nat) (fs : Frames) : Stmt → Stmt
  | .expression e => .expression (e.respell spelling k fs)
  | .print e => .print (e.respell spelling k fs)
  | .var x e => Stmt.respellVar spelling k fs x e
  | .block ss => .block (Stmt.respellAll (k + 1) ([] :: fs) ss)
  | .if e yes no =>
    .if (e.respell spelling k fs) (Stmt.respell k fs yes) (Stmt.respellOption k fs no)
  | .while e s => .while (e.respell spelling k fs) (Stmt.respell k fs s)
  | .function f => .function (Function.respell (k + 1) (binding fs f.name.lexeme) f)
  | .return t e => .return t (e.map (Expr.respell spelling k fs))
  | .class x r ms =>
    .class x (r.map (Reference.respell spelling k (binding fs x.lexeme)))
      (Function.respellAll (k + if r.isSome then 3 else 2)
        (methodFrames (binding fs x.lexeme) r) ms)

def Stmt.respellAll (k : Nat) (fs : Frames) : List Stmt → List Stmt
  | [] => []
  | s :: ss => Stmt.respell k fs s :: Stmt.respellAll k (after fs s) ss

def Stmt.respellOption (k : Nat) (fs : Frames) : Option Stmt → Option Stmt
  | none => none
  | some s => some (Stmt.respell k fs s)

/-- Here `k` counts from inside the function. -/
def Function.respell (k : Nat) (fs : Frames) : Function → Function
  | .mk x ps ss =>
    let inside := (parameters ([] :: fs) ps).1
    .mk x (ps.map (Scoping.respell spelling k inside)) (Stmt.respellAll k inside ss)

def Function.respellAll (k : Nat) (fs : Frames) : List Function → List Function
  | [] => []
  | f :: ms => Function.respell k fs f :: Function.respellAll k fs ms

end

end Lox
