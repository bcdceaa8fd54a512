import Lox.Proofs.Simulation.Evaluation

/-!
# Programs in step

Twin programs run in step on matching machines, at top level, where all names are global.
The link may allow more between two programs, as long as the machines have noted it.
-/

set_option autoImplicit false

namespace Lox.Simulation

open Scoping Evaluation

variable {link link' : Link} {w : World} {m m' : Machine}

/-- The link may allow more once the machines have noted it. -/
theorem Match.learn (hm : Match link w m m') (hk : link.Within link') {depths depths' : Depths}
    (hi : ∀ i j, link'.id i j → depths'.get? j = depths.get? i)
    (hd : ∀ r d, link'.known r d → depths.get? r.id = d) :
    Match link' w { m with depths } { m' with depths := depths' } :=
  { hm with
    renames := fun i => hk.renames _ (hm.renames i)
    own := fun i name => (hm.own i name).imp fun _ _ h => h.grow hk (.refl w)
    field := fun id name => (hm.field id name).imp fun _ _ h => h.grow hk (.refl w)
    depths := hi
    known := hd }

theorem models_global (w : World) : Models w [] [] Machine.global := rfl

/-- At top level nothing is declared in a scope. -/
theorem after_nil (s : Stmt) : after [] s = [] := by
  cases s <;> rfl

/-- Twin programs run in step. -/
theorem Match.program {n : Nat} {ss ss' : List Stmt} {blame : Blame} (hm : Match link w m m')
    (ht : Twin link [] [] (.stmts ss) (.stmts ss'))
    (hb : ∀ before s after m₁, ss = before ++ s :: after →
      Evaluation.program n before m = .ok () m₁ →
      ∀ line name, Culprit (.execute n Machine.global s) m₁ line name → blame line name) :
    Lockstep link w blame (fun _ _ _ => True) (Evaluation.program n ss m)
      (Evaluation.program n ss' m') := by
  induction ss generalizing ss' w m m' with
  | nil =>
    cases ht with
    | noStmts => exact hm.pure trivial
  | cons s ss ih =>
    cases ht with
    | moreStmts h hss =>
      have hs := (simulates link n).stmt hm (models_global w) .nil h
      apply Lockstep.bind (hs.imp (hb [] s ss m rfl rfl) fun _ _ _ _ h => h)
      intro w1 f f' m1 m1' hf hw1 hm1 _
      rw [after_nil] at hss
      apply ih hm1 hss
      intro before s₁ after m₂ hss hbefore
      apply hb (s :: before) s₁ after m₂ (by rw [hss]; rfl)
      exact (Run.bind_ok hf).trans hbefore

end Lox.Simulation
