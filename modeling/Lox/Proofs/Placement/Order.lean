import Lox.Proofs.Evaluation.Order
import Lox.Proofs.Placement.Call

/-!
# Growth in the course of a computation

A computation that is orderly ends on a later machine that is sane, and the machine grows up
to each task that is started in its course, and from the end of that one on.
-/

set_option autoImplicit false

namespace Lox

open Evaluation

namespace Placement

variable {S : Setting} {m m' : Machine} {α β : Type} {n i : Nat}

theorem Ends.grows_left {Q : Machine → α → Prop} {r : EStateM.Result Stop Machine α}
    (h : Ends S m Q r) : m.Grows (Run.left r) := by
  cases h <;> assumption

/-- How a computation may end that starts the tasks of the list: the machine grows up to each
of them, and from the end of it on. -/
structure Orderly (S : Setting) (m : Machine) (Q : Machine → α → Prop) (started : List Moment)
    (r : EStateM.Result Stop Machine α) : Prop where
  ends : Ends S m Q r
  started (x : Moment) : x ∈ started → m.Grows x.2 ∧ (x.1.left x.2).Grows (Run.left r)

theorem Ends.orderly {Q : Machine → α → Prop} {r : EStateM.Result Stop Machine α}
    (h : Ends S m Q r) : Orderly S m Q [] r := ⟨h, nofun⟩

namespace Orderly

variable {Q : Machine → α → Prop} {R : Machine → β → Prop} {started : List Moment} {p : Run α}
  {f : α → Run β}

theorem bind {g : α → Machine → List Moment} (hp : Orderly S m Q started (p m))
    (hf : ∀ a m', p m = .ok a m' → m.Grows m' → Sane S m' → Q m' a →
      Orderly S m' R (g a m') (f a m')) :
    Orderly S m R (started ++ behind (p m) g) ((p >>= f) m) where
  ends := Ends.bind hp.ends fun a m' ha hg hs hQ => (hf a m' ha hg hs hQ).ends
  started x hx := by
    rcases List.mem_append.1 hx with hx | hx
    · obtain ⟨hg, hl⟩ := hp.started x hx
      refine ⟨hg, hl.trans ?_⟩
      cases hr : p m with
      | error stop m₁ =>
        rw [Run.bind_error hr]
        exact .refl m₁
      | ok a m₁ =>
        obtain ⟨hg₁, hs₁, hQ⟩ := hp.ends.of_ok hr
        rw [Run.bind_ok hr]
        exact (hf a m₁ hr hg₁ hs₁ hQ).ends.grows_left
    · obtain ⟨a, m₁, hr, hx⟩ := mem_behind.1 hx
      obtain ⟨hg₁, hs₁, hQ⟩ := hp.ends.of_ok hr
      obtain ⟨hg, hl⟩ := (hf a m₁ hr hg₁ hs₁ hQ).started x hx
      rw [Run.bind_ok hr]
      exact ⟨hg₁.trans hg, hl⟩

/-- The computation that follows starts no task. -/
theorem thenEnds (hp : Orderly S m Q started (p m))
    (hf : ∀ a m', p m = .ok a m' → m.Grows m' → Sane S m' → Q m' a → Ends S m' R (f a m')) :
    Orderly S m R started ((p >>= f) m) := by
  have h := bind (g := fun _ _ => []) hp fun a m' ha hg hs hQ => (hf a m' ha hg hs hQ).orderly
  exact ⟨h.ends, fun x hx => h.started x (List.mem_append_left _ hx)⟩

/-- The computation before starts no task. -/
theorem after {g : α → Machine → List Moment} (hp : Ends S m Q (p m))
    (hf : ∀ a m', p m = .ok a m' → m.Grows m' → Sane S m' → Q m' a →
      Orderly S m' R (g a m') (f a m')) :
    Orderly S m R (behind (p m) g) ((p >>= f) m) := hp.orderly.bind hf

/-- The computation is that of a task. -/
theorem task {t : Task} (h : Ends S m Q (p m)) (ht : t.left m = Run.left (p m)) :
    Orderly S m Q [(t, m)] (p m) := by
  refine ⟨h, fun x hx => ?_⟩
  obtain rfl := List.mem_singleton.1 hx
  exact ⟨.refl m, ht ▸ .refl _⟩

theorem arguments {es : List Expr} (hs : Sane S m)
    (h : ∀ e m', (.evaluate n i e, m') ∈ startedExprs n i es m → m.Grows m' → Sane S m' →
      Ends S m' (Valid S) (evaluate n i e m')) :
    Orderly S m (fun m' vs => ∀ v ∈ vs, Valid S m' v) (startedExprs n i es m)
      (Evaluation.arguments (evaluate n i) es m) := by
  induction es generalizing m with
  | nil => exact (Ends.pure hs nofun).orderly
  | cons e es ih =>
    apply bind (task (h e m List.mem_cons_self (.refl m) hs) rfl)
    intro v m₁ hv hg₁ hs₁ hvalid
    apply thenEnds
    · apply ih hs₁
      intro e' m' hx hg
      exact h e' m' (List.mem_cons_of_mem _ (mem_behind.2 ⟨v, m₁, hv, hx⟩)) (hg₁.trans hg)
    · intro vs m₂ _ hg₂ hs₂ hvs
      exact .pure hs₂ (List.forall_mem_cons.2 ⟨hvalid.later hg₂, hvs⟩)

theorem sequence {ss : List Stmt} (hs : Sane S m)
    (h : ∀ s m', (.execute n i s, m') ∈ startedStmts n i ss m → m.Grows m' → Sane S m' →
      Ends S m' (ValidFlow S) (execute n i s m')) :
    Orderly S m (ValidFlow S) (startedStmts n i ss m)
      (Evaluation.sequence (execute n i) ss m) := by
  induction ss generalizing m with
  | nil => exact (Ends.pure hs trivial).orderly
  | cons s ss ih =>
    apply bind (task (h s m List.mem_cons_self (.refl m) hs) rfl)
    intro flow m₁ hflow hg₁ hs₁ hvalid
    cases flow with
    | returned v => exact (Ends.pure hs₁ hvalid).orderly
    | normal =>
      apply ih hs₁
      intro s' m' hx hg
      exact h s' m' (List.mem_cons_of_mem _ (mem_behind.2 ⟨.normal, m₁, hflow, hx⟩)) (hg₁.trans hg)

section Calls

variable {vs : List Value} (hs : Sane S m) (hvs : ∀ v ∈ vs, Valid S m v)

include hs hvs

theorem enter {c : Closure} (hc : Callable S m c)
    (h : ∀ inner s m', (.execute n inner s, m') ∈ (behind (opened c vs m) fun inner m' =>
      startedStmts n inner c.declaration.body m') →
        Ends S m' (ValidFlow S) (execute n inner s m')) :
    Orderly S m (Valid S)
      (behind (opened c vs m) fun inner m' => startedStmts n inner c.declaration.body m')
      (Evaluation.enter (execute n) c vs m) := by
  rw [enter_eq]
  apply after (.opened hs hvs hc)
  intro inner m₁ ho _ hs₁ _
  apply thenEnds
  · apply sequence hs₁
    intro s m' hx _ _
    exact h inner s m' (mem_behind.2 ⟨inner, m₁, ho, hx⟩)
  · intro flow m₂ _ _ hs₂ hflow
    split
    · exact .getAt hs₂ _ _ _
    · cases flow with
      | normal => exact .pure hs₂ (.plain rfl)
      | returned v => exact .pure hs₂ hflow

theorem construct {c : Class} (hc : ValidClass S m c)
    (h : ∀ inner s m', (.execute n inner s, m') ∈ startedBody n (.class c) vs m →
      Ends S m' (ValidFlow S) (execute n inner s m')) :
    Orderly S m (Valid S) (startedBody n (.class c) vs m)
      (Evaluation.construct (execute n) c vs m) := by
  unfold startedBody at h ⊢
  cases hi : c.initializer? with
  | none =>
    simp only [hi]
    apply Ends.orderly
    apply Ends.bind (.newInstance hs hc)
    rintro _ m₁ - - hs₁ ⟨rfl, hself⟩
    simp only [hi]
    exact .pure hs₁ hself
  | some init =>
    simp only [hi, openedInitializer, behind_bind] at h ⊢
    apply after (.newInstance hs hc)
    rintro _ m₁ hnew hg₁ hs₁ ⟨rfl, hself⟩
    have hmethod := (hc.grow (.refl S) hg₁).initializer? hi
    simp only [hi]
    apply after (.bindMethod hs₁ hmethod hself)
    rintro g m₂ hbind hg₂ hs₂ ⟨hg, hd⟩
    rw [← hd]
    apply thenEnds
    · apply enter hs₂ (fun v hv => (hvs v hv).later (hg₁.trans hg₂)) hg
      intro inner s m' hx
      rw [hd] at hx
      exact h inner s m' (mem_behind.2 ⟨_, m₁, hnew, mem_behind.2 ⟨g, m₂, hbind, hx⟩⟩)
    · intro _ m₃ _ hg₃ hs₃ _
      exact .pure hs₃ (hself.later (hg₂.trans hg₃))

theorem invoke {v : Value} (hv : Valid S m v) (paren : Token)
    (h : ∀ inner s m', (.execute n inner s, m') ∈ startedBody n v vs m →
      Ends S m' (ValidFlow S) (execute n inner s m')) :
    Orderly S m (Valid S) (startedBody n v vs m)
      (Evaluation.invoke (execute n) v vs paren m) := by
  cases hv with
  | plain hv =>
    cases v with
    | function | «class» | «instance» => cases hv
    | host id code => exact (Ends.callHost hs code hvs paren).orderly
    | _ => exact (Ends.fail hs _ _).orderly
  | function hc => exact enter hs hvs hc h
  | «class» hc => exact construct hs hvs hc h
  | «instance» => exact (Ends.fail hs _ _).orderly

end Calls

end Orderly

end Placement

end Lox
