import Lox.Proofs.Layout.Layout

/-!
# `for` loops in a layout

A layout may lay out a `for` loop in one scope: the initializer is run in it once, and then the
rounds take place in it, each with the condition, the body and the increment. Main statements:
what the parser makes of the loop is scoped and executed so in such a layout, and there is one
for each loop, whichever of its clauses are missing.
-/

set_option autoImplicit false

namespace Lox.Layout

open Scoping Evaluation

/-- What the parser makes of the body of a `for` loop. -/
def incremented (increment : Option Expr) (body : Stmt) : Stmt :=
  match increment with
  | some e => .block [body, .expression e]
  | none => body

/-- A missing condition is true. -/
def conditionOf (condition : Option Expr) : Expr := condition.getD (.literal (.bool true))

variable (l : Layout) (initializer : Option Stmt) (condition increment : Option Expr) (body : Stmt)

/-- Whether the loop has one scope in this layout, for all of its parts. -/
structure Lays : Prop where
  loop : l.opensLoop (conditionOf condition) (incremented increment body) = initializer.isNone
  initializer : ∀ s ∈ initializer,
    l.opensBlock [s, .while (conditionOf condition) (incremented increment body)] = true
  increment : ∀ e ∈ increment, l.opensBlock [body, .expression e] = false

/-- What scoping finds in a `for` loop with one scope: all that is behind the initializer is
scoped alike. -/
def forFindings (ctx : Context) (fs : Frames) : List Finding :=
  let inside := initializer.elim ([] :: fs) (after ([] :: fs))
  l.branch ctx ([] :: fs) initializer ++ expr ctx inside (conditionOf condition) ++
    l.stmt ctx inside body ++ Scoping.optional ctx inside increment

/-- The rounds of a `for` loop, all in one scope: as long as the condition is true the body is
executed and, if it ends normally, the increment is evaluated. Each part gets what the nesting
of the loop leaves of the bound. -/
def rounds : Nat → Nat → Expr → Option Expr → Stmt → Run Flow
  | 0, _, _, _, _ => throw .exhausted
  | n + 1, scope, condition, increment, body => do
    let v ← l.evaluate n scope condition
    if v.truthy then
      match ← l.execute (n - increment.toList.length) scope body with
      | .normal => do
        if let some e := increment then
          let _ ← l.evaluate (n - 2) scope e
        rounds n scope condition increment body
      | .returned v => return .returned v
    else
      return .normal

/-- A `for` loop as the language has it: a scope is opened, the initializer is run in it once,
and the rounds follow. -/
def forLoop (n scope : Nat) : Run Flow := do
  let inner ← Run.newScope scope
  match ← Evaluation.sequence (l.execute n inner) initializer.toList with
  | .normal => l.rounds (n - initializer.toList.length) inner (conditionOf condition) increment body
  | .returned v => return .returned v

section Equations

variable {l initializer condition increment body}

/-- What the parser makes of a `for` loop. -/
theorem forLoop_eq : Grammar.forLoop initializer condition increment body =
    match initializer with
    | some s => .block [s, .while (conditionOf condition) (incremented increment body)]
    | none => .while (conditionOf condition) (incremented increment body) := by
  cases initializer <;> rfl

theorem bind_flow (p : Run Flow) :
    (do
      match ← p with
      | .normal => return .normal
      | .returned v => return .returned v : Run Flow) = p := by
  conv_rhs => rw [← bind_pure p]
  congr 1
  funext f
  cases f <;> rfl

section Increment

variable (h : ∀ e ∈ increment, l.opensBlock [body, .expression e] = false)

include h

/-- The body of a round and the increment behind it. -/
theorem execute_incremented (n scope : Nat) :
    l.execute n scope (incremented increment body) = (do
      match ← l.execute (n - increment.toList.length) scope body with
      | .normal => do
        if let some e := increment then
          let _ ← l.evaluate (n - 2) scope e
        return .normal
      | .returned v => return .returned v) := by
  cases increment with
  | none => exact (bind_flow (l.execute n scope body)).symm
  | some e =>
    match n with
    | 0 => rfl
    | 1 =>
      simp only [incremented, execute, enclosed, h e rfl]
      rfl
    | n + 2 =>
      simp only [incremented, execute, enclosed, h e rfl, Evaluation.sequence, Bool.false_eq_true,
        if_false, pure_bind]
      congr 1
      funext f
      cases f with
      | normal =>
        simp only [bind_assoc, pure_bind]
        rfl
      | returned v => rfl

theorem loop_incremented (n scope : Nat) (condition : Expr) :
    l.loop n scope condition (incremented increment body) =
      l.rounds n scope condition increment body := by
  induction n with
  | zero => rfl
  | succ n ih =>
    unfold loop rounds
    rw [execute_incremented h, ih]
    congr 1
    funext v
    split
    · rw [bind_assoc]
      congr 1
      funext f
      cases f with
      | normal => cases increment <;> simp only [bind_assoc, pure_bind]
      | returned v => rfl
    · rfl

end Increment

theorem sequence_pair (exec : Stmt → Run Flow) (s s' : Stmt) :
    Evaluation.sequence exec [s, s'] = (do
      match ← exec s with
      | .normal => exec s'
      | .returned v => return .returned v) := by
  unfold Evaluation.sequence
  congr 1
  funext f
  cases f with
  | normal => exact bind_flow (exec s')
  | returned v => rfl

variable (h : l.Lays initializer condition increment body)

include h

theorem execute_forLoop (n scope : Nat) :
    l.execute (n + 1) scope (Grammar.forLoop initializer condition increment body) =
      l.forLoop initializer condition increment body n scope := by
  rw [forLoop_eq]
  cases initializer with
  | none =>
    simp only [execute, enclosed, h.loop, Option.isNone_none, if_true,
      loop_incremented h.increment]
    rfl
  | some s =>
    simp only [execute, enclosed, h.initializer s rfl, if_true, sequence_pair]
    unfold forLoop
    congr 1
    funext inner
    simp only [Evaluation.sequence, Option.toList_some, bind_assoc]
    congr 1
    funext f
    cases f with
    | returned v => rfl
    | normal =>
      match n with
      | 0 => rfl
      | n + 1 =>
        simp only [execute, enclosed, h.loop, Option.isNone_some, Bool.false_eq_true, if_false,
          pure_bind, loop_incremented h.increment]
        rfl

theorem stmt_forLoop (hp : body.plain = true) (ctx : Context) (fs : Frames) :
    l.stmt ctx fs (Grammar.forLoop initializer condition increment body) =
      l.forFindings initializer condition increment body ctx fs := by
  have hbody (fs : Frames) : l.stmt ctx fs (incremented increment body) =
      l.stmt ctx fs body ++ Scoping.optional ctx fs increment := by
    cases increment with
    | none => exact (List.append_nil _).symm
    | some e =>
      simp only [incremented, stmt, within, h.increment e rfl, stmts, after_plain hp]
      simp only [List.append_nil]
      rfl
  rw [forLoop_eq]
  cases initializer with
  | none => simp [forFindings, stmt, branch, within, h.loop, hbody]
  | some s =>
    simp [forFindings, stmt, stmts, branch, within, h.initializer s rfl, h.loop, hbody]

end Equations

/-- A layout with one scope for `for` loops of this shape. -/
def shaped (withInitializer withIncrement : Bool) : Layout where
  opensBlock
    | [body, .expression _] => !(withIncrement && body.plain)
    | _ => true
  opensLoop _ _ := !withInitializer
  declares ss h s hs := by
    split at h
    · rename_i body e
      have hp : body.plain = true := by simp_all
      rcases List.mem_pair.1 hs with rfl | rfl
      · exact hp
      · rfl
    · cases h

/-- Each loop has one scope in the layout of its shape. -/
theorem lays_shaped (hp : body.plain = true) :
    (shaped initializer.isSome increment.isSome).Lays initializer condition increment body where
  loop := by cases initializer <;> rfl
  initializer s _ := rfl
  increment e he := by
    cases he
    simp [shaped, hp]

end Lox.Layout
