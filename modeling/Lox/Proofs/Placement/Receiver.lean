import Lox.Proofs.Evaluation.Return
import Lox.Proofs.Placement.Initializer

/-!
# Code inside the scope of a receiver

The scope in which a method is bound stays around all that its body executes and around the
bodies of the functions that are declared there, with no other `this` in between.
-/

set_option autoImplicit false

namespace Lox

open Evaluation

/-- The scope in which a task runs. -/
def Evaluation.Task.scope : Task → Nat
  | .evaluate _ i _ | .execute _ i _ | .loop _ i _ _ => i

namespace Placement

variable {S : Setting} {m m' : Machine} {b i j : Nat}

theorem Ordinary.lt (h : Ordinary m i j) : j < i := Scopes.enclosing?_lt h.enclosing

/-- A scope that was there already was no other then. -/
theorem Ordinary.back (h : Ordinary m' i j) (hg : m.Grows m') (hi : i < m.scopes.next) :
    Ordinary m i j where
  enclosing := (hg.enclosing i hi).symm.trans h.enclosing
  reserved name hn :=
    (hg.reserved i name hn (Scopes.ne_global_of_enclosing h.enclosing) hi).symm.trans
      (h.reserved name hn)

/-- Scope `i` lies inside scope `b`, and neither it nor one in between binds `this`. -/
inductive Under (m : Machine) (b : Nat) : Nat → Prop
  | base {i : Nat} (hi : Ordinary m i b) : Under m b i
  | step {i j : Nat} (hi : Ordinary m i j) (hj : Under m b j) : Under m b i

namespace Under

theorem lt (h : Under m b i) : b < i := by
  induction h with
  | base hi => exact hi.lt
  | step hi _ ih => exact ih.trans hi.lt

theorem lt_next (h : Under m b i) : i < m.scopes.next := by
  cases h <;> exact Scopes.lt_next_of_enclosing (Ordinary.enclosing ‹_›)

theorem grow (h : Under m b i) (hg : m.Grows m') : Under m' b i := by
  induction h with
  | base hi => exact .base (hi.grow hg)
  | step hi _ ih => exact .step (hi.grow hg) ih

theorem back (h : Under m' b i) (hg : m.Grows m') (hi : i < m.scopes.next) : Under m b i := by
  induction h with
  | base ho => exact .base (ho.back hg hi)
  | step ho _ ih => exact .step (ho.back hg hi) (ih (ho.lt.trans hi))

/-- What `this` means. -/
theorem this (h : Under m b i) {v : Value} (hb : m.scopes.own? b "this" = some v) :
    m.scopes.get? i "this" = some v := by
  have hthis : "this" ∈ reservedNames := by simp [reservedNames]
  induction h with
  | base hi =>
    rw [Scopes.get?_enclosing (hi.reserved _ hthis) hi.enclosing]
    exact Scopes.get?_own hb
  | step hi _ ih => rwa [Scopes.get?_enclosing (hi.reserved _ hthis) hi.enclosing]

end Under

/-- A method that is bound has its receiver in a scope that is made for it. -/
theorem scope_of_bound {c : Class} {self : Value} {name : Token} {v : Value}
    (hv : m.bound c self name = .ok v m') :
    ∃ id f, v = .function id f ∧ f.scope = m.scopes.next ∧
      m'.scopes.own? f.scope "this" = some self := by
  unfold Machine.bound at hv
  cases hf : c.findMethod? name.lexeme with
  | none =>
    rw [hf] at hv
    cases hv
  | some f =>
    rw [hf] at hv
    cases hv
    exact ⟨_, _, rfl, rfl, m.own?_enclose _ _ _⟩

variable {n k inner : Nat} {t t' : Task} {s : Stmt}

/-- The body of a function is executed in a scope inside that of the closure. -/
theorem Ready.entered {callee : Expr} {paren : Token} {es : List Expr} {id : Nat} {f : Closure}
    {m₁ : Machine} (h : Ready S (.evaluate (n + 1) i (.call callee paren es)) m)
    (hf : Evaluation.evaluate n i callee m = .ok (.function id f) m₁)
    (hsp : Spawns (.evaluate (n + 1) i (.call callee paren es)) m (.execute k inner s) m') :
    Ordinary m' inner f.scope := by
  cases hsp with
  | @body _ _ _ _ _ _ _ _ _ _ _ _ _ _ before after _ hf' hvs ha ho hb =>
    obtain ⟨hg, -, -⟩ := h.inBody (preserves S n) hf' hvs ha ho hb
    obtain ⟨-, -, hs₂, hv, hvalid⟩ :=
      h.arguments (preserves S n) hf' (List.append_nil es).symm hvs
    rw [hf] at hf'
    cases hf'
    obtain ⟨hg₃, hs₃, -⟩ := (Ends.checkArity hs₂ _ _ paren).of_ok ha
    generalize before ++ s :: after = ss at ho
    cases ho with
    | function ho =>
      cases hv.later hg₃ with
      | plain hv => cases hv
      | function hc =>
        obtain ⟨-, -, hi, -⟩ :=
          (Ends.opened hs₃ (fun w hw => (hvalid w hw).later hg₃) hc).of_ok ho
        exact hi.grow hg

/-- All that is started without a call stays inside the scope. -/
theorem Ready.spawned_under (h : Ready S t m) (hsp : Spawns t m t' m')
    (hc : t.isExpression = true → t'.isExpression = true) (hu : Under m b t.scope) :
    Under m' b t'.scope := by
  have hg := (h.spawned_grows hsp).1
  cases hsp with
  | body => cases hc rfl
  | inner hnew hb =>
    obtain ⟨hg₁, hi, -, -⟩ := h.inBlock (preserves S _) hnew hb
    exact .step (hi.grow hg₁) (hu.grow hg)
  | _ => exact hu.grow hg

end Placement

end Lox
