import Lox.Scoping

/-!
# The scopes behind a statement

A statement leaves as many scopes as it finds, and changes the innermost one at most. At top
level there is none, so that statements do not see the ones before them. Main statement: the
scoping of one program and then another is that of both.
-/

set_option autoImplicit false

namespace Lox.Scoping

/-- The same scopes, but for what the innermost one binds. -/
structure SameOuter (fs gs : Frames) : Prop where
  length : gs.length = fs.length
  tail : gs.tail = fs.tail

namespace SameOuter

variable {fs gs hs : Frames}

theorem refl (fs : Frames) : SameOuter fs fs := ⟨rfl, rfl⟩

theorem trans (h : SameOuter fs gs) (h' : SameOuter gs hs) : SameOuter fs hs :=
  ⟨h'.length.trans h.length, h'.tail.trans h.tail⟩

theorem declare (fs : Frames) (name : String) : SameOuter fs (declare fs name) := by
  cases fs with
  | nil => exact .refl _
  | cons f fs => exact ⟨rfl, rfl⟩

theorem define (fs : Frames) (name : String) : SameOuter fs (define fs name) := by
  cases fs with
  | nil => exact .refl _
  | cons f fs => exact ⟨rfl, rfl⟩

/-- Outside of all scopes there is nothing to change. -/
theorem nil_left (h : SameOuter [] gs) : gs = [] := List.eq_nil_of_length_eq_zero h.length

theorem parameters (fs : Frames) (ps : List Token) : SameOuter fs (parameters fs ps).1 := by
  induction ps generalizing fs with
  | nil => exact .refl fs
  | cons p ps ih => exact ((declare fs _).trans (define _ _)).trans (ih _)

end SameOuter

mutual

theorem sameOuter_stmt (ctx : Context) (fs : Frames) : (s : Stmt) → SameOuter fs (stmt ctx fs s).1
  | .expression _ => .refl fs
  | .print _ => .refl fs
  | .var x _ => (SameOuter.declare fs x.lexeme).trans (.define _ _)
  | .block _ => .refl fs
  | .if _ yes no => (sameOuter_stmt ctx fs yes).trans (sameOuter_optionalStmt ctx _ no)
  | .while _ body => sameOuter_stmt ctx fs body
  | .function f => (SameOuter.declare fs f.name.lexeme).trans (.define _ _)
  | .return .. => .refl fs
  | .class x _ _ => (SameOuter.declare fs x.lexeme).trans (.define _ _)

theorem sameOuter_optionalStmt (ctx : Context) (fs : Frames) :
    (s : Option Stmt) → SameOuter fs (optionalStmt ctx fs s).1
  | none => .refl fs
  | some s => sameOuter_stmt ctx fs s

end

theorem sameOuter_stmts (ctx : Context) (fs : Frames) (ss : List Stmt) :
    SameOuter fs (stmts ctx fs ss).1 := by
  induction ss generalizing fs with
  | nil => exact .refl fs
  | cons s ss ih => exact (sameOuter_stmt ctx fs s).trans (ih _)

theorem stmts_append (ctx : Context) (fs : Frames) (ss us : List Stmt) :
    stmts ctx fs (ss ++ us) =
      ((stmts ctx (stmts ctx fs ss).1 us).1,
        (stmts ctx fs ss).2 ++ (stmts ctx (stmts ctx fs ss).1 us).2) := by
  induction ss generalizing fs with
  | nil => rfl
  | cons s ss ih => simp only [List.cons_append, stmts, ih, List.append_assoc]

/-- At top level no scope is open behind a statement. -/
theorem stmts_nil (ctx : Context) (ss : List Stmt) : (stmts ctx [] ss).1 = [] :=
  (sameOuter_stmts ctx [] ss).nil_left

theorem program_append (ss us : List Stmt) : program (ss ++ us) = program ss ++ program us := by
  unfold program
  rw [stmts_append, stmts_nil]

theorem faults_of_append (a b : List Finding) : faults (a ++ b) = faults a ++ faults b :=
  List.filterMap_append

end Lox.Scoping
