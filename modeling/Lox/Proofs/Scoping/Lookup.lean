import Lox.Proofs.Scoping.Identity

/-!
# What is looked up

Scoping looks each reference of a tree up at most once, so each identity is found with
one depth only.
-/

set_option autoImplicit false

namespace Lox.Scoping

/-- The references looked up, in order. -/
def looked (found : List Finding) : List Reference := (lookups found).map (·.1)

theorem lookups_append (a b : List Finding) : lookups (a ++ b) = lookups a ++ lookups b :=
  List.filterMap_append

@[simp] theorem looked_append (a b : List Finding) : looked (a ++ b) = looked a ++ looked b := by
  simp only [looked, lookups_append, List.map_append]

@[simp] theorem looked_nil : looked [] = [] := rfl

@[simp] theorem looked_declarationFaults (fs : Frames) (t : Token) :
    looked (declarationFaults fs t) = [] := by
  unfold declarationFaults
  split <;> rfl

@[simp] theorem looked_read (fs : Frames) (r : Reference) : looked (read fs r) = [r] := by
  unfold read
  split <;> rfl

@[simp] theorem looked_superFindings (ctx : Context) (fs : Frames) (r : Reference) :
    looked (superFindings ctx fs r) = [r] := by
  unfold superFindings
  split <;> rfl

@[simp] theorem looked_returnFaults (ctx : Context) (t : Token) (e : Option Expr) :
    looked (returnFaults ctx t e) = [] := by
  unfold returnFaults
  split <;> split <;> rfl

@[simp] theorem looked_parameters (fs : Frames) (ps : List Token) :
    looked (parameters fs ps).2 = [] := by
  induction ps generalizing fs with
  | nil => rfl
  | cons p ps ih => simp [parameters, ih]

@[simp] theorem looked_superclassFindings (fs : Frames) (x : Token) (r : Option Reference) :
    looked (superclassFindings fs x r) = r.toList := by
  cases r with
  | none => rfl
  | some r =>
    simp only [superclassFindings, looked_append, looked_read, Option.toList_some]
    split <;> rfl

theorem looked_thisFindings (ctx : Context) (fs : Frames) (r : Reference) :
    (looked (thisFindings ctx fs r)).Sublist [r] := by
  unfold thisFindings
  cases ctx.family with
  | none => exact List.nil_sublist _
  | «class» => exact List.Sublist.refl _
  | subclass => exact List.Sublist.refl _

mutual

theorem looked_expr (ctx : Context) (fs : Frames) :
    (e : Expr) → (looked (expr ctx fs e)).Sublist e.references
  | .literal _ => List.Sublist.refl _
  | .grouping e => looked_expr ctx fs e
  | .unary _ e => looked_expr ctx fs e
  | .binary l _ r => by
    rw [expr, looked_append]
    exact (looked_expr ctx fs l).append (looked_expr ctx fs r)
  | .logical l _ r => by
    rw [expr, looked_append]
    exact (looked_expr ctx fs l).append (looked_expr ctx fs r)
  | .var r => by
    rw [expr, looked_read]
    exact List.Sublist.refl _
  | .assign r e => by
    rw [expr, looked_append]
    exact (looked_expr ctx fs e).append (List.Sublist.refl _)
  | .call f _ es => by
    rw [expr, looked_append]
    exact (looked_expr ctx fs f).append (looked_exprs ctx fs es)
  | .get e _ => looked_expr ctx fs e
  | .set e _ v => by
    rw [expr, looked_append]
    exact (looked_expr ctx fs v).append (looked_expr ctx fs e)
  | .this r => looked_thisFindings ctx fs r
  | .super r _ => by
    rw [expr, looked_superFindings]
    exact List.Sublist.refl _

theorem looked_exprs (ctx : Context) (fs : Frames) :
    (es : List Expr) → (looked (exprs ctx fs es)).Sublist (Expr.allReferences es)
  | [] => List.Sublist.refl _
  | e :: es => by
    rw [exprs, looked_append]
    exact (looked_expr ctx fs e).append (looked_exprs ctx fs es)

end

theorem looked_optional (ctx : Context) (fs : Frames) (e : Option Expr) :
    (looked (optional ctx fs e)).Sublist (optionReferences e) := by
  cases e with
  | none => exact List.Sublist.refl _
  | some e => exact looked_expr ctx fs e

mutual

theorem looked_stmt (ctx : Context) (fs : Frames) :
    (s : Stmt) → (looked (stmt ctx fs s).2).Sublist s.references
  | .expression e => looked_expr ctx fs e
  | .print e => looked_expr ctx fs e
  | .var x e => by
    simp only [stmt, looked_append, looked_declarationFaults, List.nil_append]
    exact looked_optional ctx _ e
  | .block ss => looked_stmts ctx ([] :: fs) ss
  | .if e yes no => by
    simp only [stmt, looked_append]
    exact ((looked_expr ctx fs e).append (looked_stmt ctx fs yes)).append
      (looked_optionalStmt ctx _ no)
  | .while e s => by
    simp only [stmt, looked_append]
    exact (looked_expr ctx fs e).append (looked_stmt ctx fs s)
  | .function f => by
    simp only [stmt, looked_append, looked_declarationFaults, List.nil_append]
    exact looked_function ctx _ _ f
  | .return _ e => by
    simp only [stmt, looked_append, looked_returnFaults, List.nil_append]
    exact looked_optional ctx fs e
  | .class x r fs => by
    simp only [stmt, looked_append, looked_declarationFaults, looked_superclassFindings,
      List.nil_append]
    exact (List.Sublist.refl _).append (looked_methodsFindings _ _ fs)

theorem looked_stmts (ctx : Context) (fs : Frames) :
    (ss : List Stmt) → (looked (stmts ctx fs ss).2).Sublist (Stmt.allReferences ss)
  | [] => List.Sublist.refl _
  | s :: ss => by
    simp only [stmts, looked_append]
    exact (looked_stmt ctx fs s).append (looked_stmts ctx _ ss)

theorem looked_optionalStmt (ctx : Context) (fs : Frames) :
    (s : Option Stmt) → (looked (optionalStmt ctx fs s).2).Sublist (Stmt.optionReferences s)
  | none => List.Sublist.refl _
  | some s => looked_stmt ctx fs s

theorem looked_function (ctx : Context) (fs : Frames) (body : Body) :
    (f : Function) → (looked (function ctx fs body f)).Sublist f.references
  | .mk _ ps ss => by
    simp only [function, looked_append, looked_parameters, List.nil_append]
    exact looked_stmts _ _ ss

theorem looked_methodsFindings (ctx : Context) (fs : Frames) :
    (ms : List Function) →
      (looked (methodsFindings ctx fs ms)).Sublist (Function.allReferences ms)
  | [] => List.Sublist.refl _
  | f :: ms => by
    simp only [methodsFindings, looked_append]
    exact (looked_function ctx fs _ f).append (looked_methodsFindings ctx fs ms)

end

end Lox.Scoping

namespace Lox.Grammar

open Scoping

/-- What the scoping of a program that was read looks up. -/
theorem Derives.looked {before : Bool → Prop} {program : List Stmt} {ts : List Token} {n k : Nat}
    {ds : List Diagnostic} (h : Derives before (.declarations program) ts n k ds) :
    Ranged n k (looked (Scoping.program program)) := by
  have hr : Ranged n k (Stmt.allReferences program) := h.identified
  have hs := looked_stmts {} [] program
  exact ⟨hr.le, hr.nodup.sublist (hs.map _), fun r hr' => hr.mem r (hs.subset hr')⟩

end Lox.Grammar
