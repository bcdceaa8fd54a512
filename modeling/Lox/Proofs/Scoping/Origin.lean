import Lox.Proofs.Grammar.Origin
import Lox.Scoping

/-!
# Where the faults of scoping are

Scoping makes no token up either: every fault that it finds in a tree is at a token of the tree.
-/

set_option autoImplicit false

namespace Lox.Scoping

/-- All faults that were found are at such tokens. -/
def At (P : Token → Prop) (found : List Finding) : Prop :=
  ∀ d ∈ faults found, ∃ cause t, P t ∧ d = .scoping t.line (Place.ofToken t) cause

namespace At

variable {P : Token → Prop} {found found' : List Finding}

theorem nil : At P [] := nofun

theorem append (h : At P found) (h' : At P found') : At P (found ++ found') := by
  unfold At faults
  rw [List.filterMap_append]
  exact List.forall_mem_append.2 ⟨h, h'⟩

theorem find (fs : Frames) (r : Reference) : At P [Scoping.find fs r] := nofun

section Token

variable {t : Token} (ht : P t)

include ht

theorem fault (cause : ScopingCause) : At P [Scoping.fault cause t] := by
  intro d hd
  obtain rfl := List.mem_singleton.1 hd
  exact ⟨cause, t, ht, rfl⟩

theorem when {c : Prop} [Decidable c] (cause : ScopingCause) :
    At P (if c then [Scoping.fault cause t] else []) := by
  split
  · exact fault ht cause
  · exact nil

theorem declarationFaults (fs : Frames) : At P (Scoping.declarationFaults fs t) := when ht _

theorem returnFaults (ctx : Context) (e : Option Expr) : At P (Scoping.returnFaults ctx t e) :=
  (when ht _).append (when ht _)

end Token

section Reference

variable {r : Reference} (hr : P r.name)

include hr

theorem read (fs : Frames) : At P (Scoping.read fs r) := (when hr _).append (find _ _)

theorem thisFindings (ctx : Context) (fs : Frames) : At P (Scoping.thisFindings ctx fs r) := by
  unfold Scoping.thisFindings
  split
  · exact fault hr _
  · exact find _ _
  · exact find _ _

theorem superFindings (ctx : Context) (fs : Frames) : At P (Scoping.superFindings ctx fs r) := by
  refine append ?_ (find _ _)
  split
  · exact fault hr _
  · exact fault hr _
  · exact nil

end Reference

theorem superclassFindings (fs : Frames) (x : Token) {r : Option Reference}
    (hr : ∀ r' ∈ r, P r'.name) : At P (Scoping.superclassFindings fs x r) := by
  cases r with
  | none => exact nil
  | some r => exact (when (hr r rfl) _).append (read (hr r rfl) _)

theorem parameters (fs : Frames) {ps : List Token} (hps : ∀ p ∈ ps, P p) :
    At P (Scoping.parameters fs ps).2 := by
  induction ps generalizing fs with
  | nil => exact nil
  | cons p ps ih =>
    rw [List.forall_mem_cons] at hps
    exact (declarationFaults hps.1 _).append (ih _ hps.2)

mutual

theorem expr (ctx : Context) (fs : Frames) : (e : Expr) → e.Over P → At P (Scoping.expr ctx fs e)
  | .literal _, _ => nil
  | .grouping e, h => expr ctx fs e h
  | .unary _ e, h => expr ctx fs e h.2
  | .binary l _ r, h => (expr ctx fs l h.1).append (expr ctx fs r h.2.2)
  | .logical l _ r, h => (expr ctx fs l h.1).append (expr ctx fs r h.2.2)
  | .var _, h => read h fs
  | .assign r e, h => (expr ctx fs e h.2).append (find fs r)
  | .call f _ es, h => (expr ctx fs f h.1).append (exprs ctx fs es h.2.2)
  | .get e _, h => expr ctx fs e h.1
  | .set e _ v, h => (expr ctx fs v h.2.2).append (expr ctx fs e h.1)
  | .this _, h => thisFindings h ctx fs
  | .super _ _, h => superFindings h.1 ctx fs

theorem exprs (ctx : Context) (fs : Frames) :
    (es : List Expr) → Expr.AllOver P es → At P (Scoping.exprs ctx fs es)
  | [], _ => nil
  | e :: es, h => (expr ctx fs e h.1).append (exprs ctx fs es h.2)

end

theorem optional (ctx : Context) (fs : Frames) {e : Option Expr} (h : ∀ e' ∈ e, e'.Over P) :
    At P (Scoping.optional ctx fs e) := by
  cases e with
  | none => exact nil
  | some e => exact expr ctx fs e (h e rfl)

mutual

theorem stmt (ctx : Context) (fs : Frames) :
    (s : Stmt) → s.Over P → At P (Scoping.stmt ctx fs s).2
  | .expression e, h => expr ctx fs e h
  | .print e, h => expr ctx fs e h
  | .var _ _, h => (declarationFaults h.1 _).append (optional ctx _ h.2)
  | .block ss, h => stmts ctx _ ss h
  | .if e yes no, h =>
    ((expr ctx fs e h.1).append (stmt ctx fs yes h.2.1)).append (optionalStmt ctx _ no h.2.2)
  | .while e s, h => (expr ctx fs e h.1).append (stmt ctx fs s h.2)
  | .function (.mk x ps ss), h => (declarationFaults h.1 _).append (function ctx _ _ (.mk x ps ss) h)
  | .return _ e, h => (returnFaults h.1 ctx e).append (optional ctx fs h.2)
  | .class _ _ ms, h => ((declarationFaults h.1 _).append (superclassFindings _ _ h.2.1)).append
      (methodsFindings _ _ ms h.2.2)

theorem stmts (ctx : Context) (fs : Frames) :
    (ss : List Stmt) → Stmt.AllOver P ss → At P (Scoping.stmts ctx fs ss).2
  | [], _ => nil
  | s :: ss, h => (stmt ctx fs s h.1).append (stmts ctx _ ss h.2)

theorem optionalStmt (ctx : Context) (fs : Frames) :
    (s : Option Stmt) → Stmt.OptionOver P s → At P (Scoping.optionalStmt ctx fs s).2
  | none, _ => nil
  | some s, h => stmt ctx fs s h

theorem function (ctx : Context) (fs : Frames) (body : Body) :
    (f : Function) → f.Over P → At P (Scoping.function ctx fs body f)
  | .mk _ _ ss, h => (parameters _ h.2.1).append (stmts _ _ ss h.2.2)

theorem methodsFindings (ctx : Context) (fs : Frames) :
    (ms : List Function) → Function.AllOver P ms → At P (Scoping.methodsFindings ctx fs ms)
  | [], _ => nil
  | f :: ms, h => (function ctx fs _ f h.1).append (methodsFindings ctx fs ms h.2)

end

end At

end Lox.Scoping
