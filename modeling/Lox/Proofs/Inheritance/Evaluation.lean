import Lox.Proofs.Evaluation.Order
import Lox.Proofs.Inheritance.Effect

/-!
# Evaluation and the lineage of classes

Where the classes of a machine are traced, they are on all machines that a task starts others on,
and on the one that it leaves. The induction is on the bound: a class declaration is itself a task
that is reached, and that is all that is needed of the code.
-/

set_option autoImplicit false

namespace Lox.Inheritance

open Evaluation Placement

variable {S : Setting} {m m' : Machine} {t t' : Task} {α β : Type} {n i : Nat}

/-- What leaves a statement is of a class that is known. -/
def KnownFlow (S : Setting) (m : Machine) : Flow → Prop
  | .normal => True
  | .returned v => Known S m v

/-- How a computation may end that starts the tasks of the list: the classes are traced there, and
when each of the tasks is started. -/
structure Tracing (S : Setting) (m : Machine) (P : Machine → α → Prop) (started : List Moment)
    (r : EStateM.Result Stop Machine α) : Prop where
  keeps : Keeps S m P r
  started (x : Moment) : x ∈ started → Traced S x.2

theorem Keeps.tracing {P : Machine → α → Prop} {r : EStateM.Result Stop Machine α}
    (h : Keeps S m P r) : Tracing S m P [] r := ⟨h, nofun⟩

namespace Tracing

variable {P : Machine → α → Prop} {Q : Machine → β → Prop} {started : List Moment} {p : Run α}
  {f : α → Run β}

theorem bind {g : α → Machine → List Moment} (hp : Tracing S m P started (p m))
    (hf : ∀ a m', p m = .ok a m' → m.serial ≤ m'.serial → Traced S m' → P m' a →
      Tracing S m' Q (g a m') (f a m')) :
    Tracing S m Q (started ++ behind (p m) g) ((p >>= f) m) where
  keeps := Keeps.bind hp.keeps fun a m' ha hk h hP => (hf a m' ha hk h hP).keeps
  started x hx := by
    rcases List.mem_append.1 hx with hx | hx
    · exact hp.started x hx
    · obtain ⟨a, m₁, hr, hx⟩ := mem_behind.1 hx
      obtain ⟨hk, h, hP⟩ := hp.keeps.of_ok hr
      exact (hf a m₁ hr hk h hP).started x hx

/-- The computation that follows starts no task. -/
theorem thenKeeps (hp : Tracing S m P started (p m))
    (hf : ∀ a m', p m = .ok a m' → m.serial ≤ m'.serial → Traced S m' → P m' a →
      Keeps S m' Q (f a m')) : Tracing S m Q started ((p >>= f) m) := by
  have h := bind (g := fun _ _ => []) hp fun a m' ha hk h hP => (hf a m' ha hk h hP).tracing
  exact ⟨h.keeps, fun x hx => h.started x (List.mem_append_left _ hx)⟩

/-- The computation before starts no task. -/
theorem after {g : α → Machine → List Moment} (hp : Keeps S m P (p m))
    (hf : ∀ a m', p m = .ok a m' → m.serial ≤ m'.serial → Traced S m' → P m' a →
      Tracing S m' Q (g a m') (f a m')) :
    Tracing S m Q (behind (p m) g) ((p >>= f) m) := hp.tracing.bind hf

/-- The computation is that of a task. -/
theorem task {t : Task} (h : Traced S m) (hp : Keeps S m P (p m)) : Tracing S m P [(t, m)] (p m) :=
  ⟨hp, fun _ hx => List.mem_singleton.1 hx ▸ h⟩

theorem arguments {es : List Expr} (h : Traced S m)
    (he : ∀ e m', (.evaluate n i e, m') ∈ startedExprs n i es m → Traced S m' →
      Keeps S m' (Known S) (evaluate n i e m')) :
    Tracing S m (fun m' vs => ∀ v ∈ vs, Known S m' v) (startedExprs n i es m)
      (Evaluation.arguments (evaluate n i) es m) := by
  induction es generalizing m with
  | nil => exact (Keeps.pure h nofun).tracing
  | cons e es ih =>
    apply bind (task h (he e m List.mem_cons_self h))
    intro v m₁ hv _ h₁ hknown
    apply thenKeeps
    · apply ih h₁
      intro e' m' hx
      exact he e' m' (List.mem_cons_of_mem _ (mem_behind.2 ⟨v, m₁, hv, hx⟩))
    · intro vs m₂ _ hk₂ h₂ hvs
      exact .pure h₂ (List.forall_mem_cons.2 ⟨hknown.later hk₂, hvs⟩)

theorem sequence {ss : List Stmt} (h : Traced S m)
    (hs : ∀ s m', (.execute n i s, m') ∈ startedStmts n i ss m → Traced S m' →
      Keeps S m' (KnownFlow S) (execute n i s m')) :
    Tracing S m (KnownFlow S) (startedStmts n i ss m)
      (Evaluation.sequence (execute n i) ss m) := by
  induction ss generalizing m with
  | nil => exact (Keeps.pure h trivial).tracing
  | cons s ss ih =>
    apply bind (task h (hs s m List.mem_cons_self h))
    intro flow m₁ hflow _ h₁ hknown
    cases flow with
    | returned v => exact (Keeps.pure h₁ hknown).tracing
    | normal =>
      apply ih h₁
      intro s' m' hx
      exact hs s' m' (List.mem_cons_of_mem _ (mem_behind.2 ⟨.normal, m₁, hflow, hx⟩))

section Calls

variable {vs : List Value} (h : Traced S m) (hvs : ∀ v ∈ vs, Known S m v)

include h hvs

theorem enter {c : Closure}
    (hs : ∀ inner s m', (.execute n inner s, m') ∈ (behind (opened c vs m) fun inner m' =>
      startedStmts n inner c.declaration.body m') → Traced S m' →
        Keeps S m' (KnownFlow S) (execute n inner s m')) :
    Tracing S m (Known S)
      (behind (opened c vs m) fun inner m' => startedStmts n inner c.declaration.body m')
      (Evaluation.enter (execute n) c vs m) := by
  rw [enter_eq]
  apply after (.opened h c hvs)
  intro inner m₁ ho _ h₁ _
  apply thenKeeps
  · exact sequence h₁ fun s m' hx => hs inner s m' (mem_behind.2 ⟨inner, m₁, ho, hx⟩)
  · intro flow m₂ _ _ h₂ hflow
    split
    · exact .getAt h₂ _ _ _
    · cases flow with
      | normal => exact .pure h₂ (.plain rfl)
      | returned v => exact .pure h₂ hflow

theorem construct {c : Class} (hc : Made S m c)
    (hs : ∀ inner s m', (.execute n inner s, m') ∈ startedBody n (.class c) vs m → Traced S m' →
      Keeps S m' (KnownFlow S) (execute n inner s m')) :
    Tracing S m (Known S) (startedBody n (.class c) vs m)
      (Evaluation.construct (execute n) c vs m) := by
  unfold startedBody at hs ⊢
  cases hi : c.initializer? with
  | none =>
    simp only [hi]
    apply Keeps.tracing
    apply Keeps.bind (.newInstance h hc)
    intro self m₁ _ _ h₁ hself
    simp only [hi]
    exact .pure h₁ hself
  | some init =>
    simp only [hi, openedInitializer, behind_bind] at hs ⊢
    apply after (.newInstance h hc)
    intro self m₁ hnew hk₁ h₁ hself
    simp only [hi]
    apply after (.bindMethod h₁ init hself)
    intro g m₂ hbind hk₂ h₂ _
    -- a bound method has the body of the one in the table
    obtain rfl : { init with scope := m₁.scopes.next } = g := by cases hbind; rfl
    apply thenKeeps
    · apply enter h₂ fun v hv => (hvs v hv).later (Nat.le_trans hk₁ hk₂)
      intro inner s m' hx
      exact hs inner s m' (mem_behind.2 ⟨self, m₁, hnew, mem_behind.2 ⟨_, m₂, hbind, hx⟩⟩)
    · intro _ m₃ _ hk₃ h₃ _
      exact .pure h₃ (hself.later (Nat.le_trans hk₂ hk₃))

theorem invoke {v : Value} (hv : Known S m v) (paren : Token)
    (hs : ∀ inner s m', (.execute n inner s, m') ∈ startedBody n v vs m → Traced S m' →
      Keeps S m' (KnownFlow S) (execute n inner s m')) :
    Tracing S m (Known S) (startedBody n v vs m)
      (Evaluation.invoke (execute n) v vs paren m) := by
  cases v with
  | function id c => exact enter h hvs hs
  | «class» c => exact construct h hvs (hv c rfl) hs
  | host id code => exact (Keeps.callHost h code hvs paren).tracing
  | _ => exact (Keeps.fail h _ _).tracing

end Calls

end Tracing

/-- What the tasks of a bound make of machines on which the classes are traced. -/
structure Upholds (S : Setting) (n : Nat) : Prop where
  evaluate {i : Nat} {e : Expr} {m : Machine} (hr : S.reached (.evaluate n i e) m)
    (h : Traced S m) : Keeps S m (Known S) (evaluate n i e m)
  execute {i : Nat} {s : Stmt} {m : Machine} (hr : S.reached (.execute n i s) m)
    (h : Traced S m) : Keeps S m (KnownFlow S) (execute n i s m)
  loop {i : Nat} {e : Expr} {s : Stmt} {m : Machine} (hr : S.reached (.loop n i e s) m)
    (h : Traced S m) : Keeps S m (KnownFlow S) (loop n i e s m)

namespace Upholds

variable (hn : Upholds S n) (h : Traced S m)

include hn h

theorem evaluateSucc {e : Expr} (hr : S.reached (.evaluate (n + 1) i e) m) :
    Tracing S m (Known S) (Task.starts (.evaluate (n + 1) i e) m)
      (Evaluation.evaluate (n + 1) i e m) := by
  have hnext {t'} {m'} (hsp : Spawns (.evaluate (n + 1) i e) m t' m') : S.reached t' m' :=
    S.spawned hr hsp
  cases e with
  | literal v => exact (Keeps.pure h (.plain (by cases v <;> rfl))).tracing
  | var r => exact (Keeps.read h i r).tracing
  | this r => exact (Keeps.read h i r).tracing
  | super r method => exact (Keeps.superMethod h i r method).tracing
  | grouping => exact .task h (hn.evaluate (hnext .grouping) h)
  | unary op e =>
    apply Tracing.thenKeeps (.task h (hn.evaluate (hnext .operand) h))
    intro v m₁ _ _ h₁ _
    exact .blaming h₁ fun _ => Simulation.unary_plain
  | binary l op r =>
    apply Tracing.bind (.task h (hn.evaluate (hnext .left) h))
    intro a m₁ ha _ h₁ _
    apply Tracing.bind (.task h₁ (hn.evaluate (hnext (.right ha)) h₁))
    intro b m₂ _ _ h₂ _
    exact (Keeps.blaming h₂ fun _ => Simulation.binary_plain).tracing
  | logical l op r =>
    apply Tracing.bind (.task h (hn.evaluate (hnext .decider) h))
    intro a m₁ ha _ h₁ hv
    split
    · exact (Keeps.pure h₁ hv).tracing
    · rename_i hd
      exact .task h₁ (hn.evaluate (hnext (.undecided ha (Bool.eq_false_of_not_eq_true hd))) h₁)
  | assign r e =>
    apply Tracing.thenKeeps (.task h (hn.evaluate (hnext .assigned) h))
    intro v m₁ _ _ h₁ hv
    apply Keeps.bind (.write h₁ i r hv)
    intro _ m₂ _ hk₂ h₂ _
    exact .pure h₂ (hv.later hk₂)
  | call f paren es =>
    apply Tracing.bind (.task h (hn.evaluate (hnext .callee) h))
    intro v m₁ hf _ h₁ hv
    have hlater {t'} {m'} (hx : (t', m') ∈ startedExprs n i es m₁ ++
        behind (Evaluation.arguments (Evaluation.evaluate n i) es m₁) fun vs m₂ =>
          behind (checkArity v vs paren m₂) fun _ m₃ => startedBody n v vs m₃) : S.reached t' m' :=
      hnext (mem_starts.1 (List.mem_cons_of_mem _ (mem_behind.2 ⟨v, m₁, hf, hx⟩)))
    apply Tracing.bind (.arguments h₁ fun e m' hx => hn.evaluate (hlater (List.mem_append_left _ hx)))
    intro vs m₂ hvs hk₂ h₂ hknown
    apply Tracing.after (.checkArity h₂ v vs paren)
    intro _ m₃ ha hk₃ h₃ _
    apply Tracing.invoke h₃ (fun w hw => (hknown w hw).later hk₃) (hv.later (Nat.le_trans hk₂ hk₃))
    intro inner s m' hx
    apply hn.execute (hlater (List.mem_append_right _ ?_))
    exact mem_behind.2 ⟨vs, m₂, hvs, mem_behind.2 ⟨(), m₃, ha, hx⟩⟩
  | get e name =>
    apply Tracing.thenKeeps (.task h (hn.evaluate (hnext .object) h))
    intro v m₁ _ _ h₁ hv
    cases v with
    | «instance» id c => exact .property h₁ hv name
    | _ => exact .fail h₁ _ _
  | set e name value =>
    apply Tracing.bind (.task h (hn.evaluate (hnext .target) h))
    intro o m₁ ho _ h₁ _
    cases o with
    | «instance» id c =>
      apply Tracing.thenKeeps (.task h₁ (hn.evaluate (hnext (.field ho)) h₁))
      intro v m₂ _ _ h₂ hv
      apply Keeps.bind (.setField h₂ id name.lexeme hv)
      intro _ m₃ _ hk₃ h₃ _
      exact .pure h₃ (hv.later hk₃)
    | _ => exact (Keeps.fail h₁ _ _).tracing

theorem executeSucc {s : Stmt} (hr : S.reached (.execute (n + 1) i s) m) :
    Tracing S m (KnownFlow S) (Task.starts (.execute (n + 1) i s) m)
      (Evaluation.execute (n + 1) i s m) := by
  have hnext {t'} {m'} (hsp : Spawns (.execute (n + 1) i s) m t' m') : S.reached t' m' :=
    S.spawned hr hsp
  cases s with
  | expression e =>
    apply Tracing.thenKeeps (.task h (hn.evaluate (hnext .expression) h))
    intro v m₁ _ _ h₁ _
    exact .pure h₁ trivial
  | print e =>
    apply Tracing.thenKeeps (.task h (hn.evaluate (hnext .printed) h))
    intro v m₁ _ _ h₁ _
    exact .bind (.printLine h₁ v.text) fun _ _ _ _ h₂ _ => .pure h₂ trivial
  | var x e =>
    have hdefine {v : Value} {m₁ : Machine} (h₁ : Traced S m₁) (hv : Known S m₁ v) :
        Keeps S m₁ (KnownFlow S) ((do Run.define i x.lexeme v; return .normal : Run Flow) m₁) :=
      .bind (.define h₁ i x.lexeme hv) fun _ _ _ _ h₂ _ => .pure h₂ trivial
    cases e with
    | none => exact (hdefine h (.plain rfl)).tracing
    | some e =>
      apply Tracing.thenKeeps (.task h (hn.evaluate (hnext .initial) h))
      intro v m₁ _ _ h₁ hv
      exact hdefine h₁ hv
  | block ss =>
    rw [Task.starts]
    apply Tracing.after (.newScope h i)
    intro inner m₁ hnew _ h₁ _
    refine .sequence h₁ fun s m' hx => hn.execute (hnext (mem_starts.1 ?_))
    rw [Task.starts]
    exact mem_behind.2 ⟨inner, m₁, hnew, hx⟩
  | «if» e yes no =>
    apply Tracing.bind (.task h (hn.evaluate (hnext .condition) h))
    intro v m₁ hv _ h₁ _
    split
    · rename_i ht
      exact .task h₁ (hn.execute (hnext (.yes hv ht)) h₁)
    · rename_i ht
      cases no with
      | none => exact (Keeps.pure h₁ trivial).tracing
      | some s => exact .task h₁ (hn.execute (hnext (.no hv (Bool.eq_false_of_not_eq_true ht))) h₁)
  | «while» e body => exact .task h (hn.loop (hnext .while) h)
  | function f =>
    apply Keeps.tracing
    apply Keeps.bind (.newFunction h ⟨f, i, false⟩)
    intro v m₁ _ _ h₁ hv
    exact .bind (.define h₁ i f.name.lexeme hv) fun _ _ _ _ h₂ _ => .pure h₂ trivial
  | «return» t e =>
    cases e with
    | none => exact (Keeps.pure h (.plain rfl)).tracing
    | some e =>
      apply Tracing.thenKeeps (.task h (hn.evaluate (hnext .returned) h))
      intro v m₁ _ _ h₁ hv
      exact .pure h₁ hv
  | «class» x r ms =>
    have hkeeps : Keeps S m (KnownFlow S) (Evaluation.execute (n + 1) i (.class x r ms) m) :=
      .bind (.declareClass h hr) fun _ _ _ _ h₁ _ => .pure h₁ trivial
    refine ⟨hkeeps, fun y hy => ?_⟩
    cases r with
    | none => cases hy
    | some r => exact List.mem_singleton.1 hy ▸ h

theorem loopSucc {e : Expr} {s : Stmt} (hr : S.reached (.loop (n + 1) i e s) m) :
    Tracing S m (KnownFlow S) (Task.starts (.loop (n + 1) i e s) m)
      (Evaluation.loop (n + 1) i e s m) := by
  have hnext {t'} {m'} (hsp : Spawns (.loop (n + 1) i e s) m t' m') : S.reached t' m' :=
    S.spawned hr hsp
  apply Tracing.bind (.task h (hn.evaluate (hnext .loopCondition) h))
  intro v m₁ hv _ h₁ _
  split
  · rename_i ht
    apply Tracing.bind (.task h₁ (hn.execute (hnext (.loopBody hv ht)) h₁))
    intro flow m₂ hb _ h₂ hflow
    cases flow with
    | normal => exact .task h₂ (hn.loop (hnext (.again hv ht hb)) h₂)
    | returned w => exact (Keeps.pure h₂ hflow).tracing
  · exact (Keeps.pure h₁ trivial).tracing

end Upholds

/-- Within every bound all tasks that are reached keep the classes traced. -/
theorem upholds (S : Setting) (n : Nat) : Upholds S n := by
  induction n with
  | zero => exact ⟨fun _ h => .exhausted h, fun _ h => .exhausted h, fun _ h => .exhausted h⟩
  | succ n hn =>
    exact ⟨fun hr h => (hn.evaluateSucc h hr).keeps, fun hr h => (hn.executeSucc h hr).keeps,
      fun hr h => (hn.loopSucc h hr).keeps⟩

theorem Traced.spawned (h : Traced S m) (hr : S.reached t m) (hsp : Spawns t m t' m') :
    Traced S m' := by
  have hx := mem_starts.2 hsp
  cases t with
  | evaluate n i e =>
    cases n with
    | zero => cases hx
    | succ n => exact ((upholds S n).evaluateSucc h hr).started _ hx
  | execute n i s =>
    cases n with
    | zero => cases hx
    | succ n => exact ((upholds S n).executeSucc h hr).started _ hx
  | loop n i e s =>
    cases n with
    | zero => cases hx
    | succ n => exact ((upholds S n).loopSucc h hr).started _ hx

/-- The classes are traced at all that is visited from a task. -/
theorem Traced.visited (h : Traced S m) (hr : S.reached t m) (hv : Visits t m t' m') :
    Traced S m' := by
  induction hv with
  | self => exact h
  | step hsp _ ih => exact ih (h.spawned hr hsp) (S.spawned hr hsp)

/-- The statements of a program are reached one after another. -/
theorem Keeps.program {ss : List Stmt} (h : Traced S m)
    (hr : ∀ before s after m', ss = before ++ s :: after →
      Evaluation.program n before m = .ok () m' → S.reached (.execute n Machine.global s) m') :
    Keeps S m (fun _ _ => True) (Evaluation.program n ss m) := by
  induction ss generalizing m with
  | nil => exact .pure h trivial
  | cons s ss ih =>
    apply Keeps.bind ((upholds S n).execute (hr [] s ss m rfl rfl) h)
    intro flow m₁ hflow _ h₁ _
    apply ih h₁
    intro before s' after m₂ hss hbefore
    exact hr (s :: before) s' after m₂ (by rw [hss]; rfl) ((Run.bind_ok hflow).trans hbefore)

end Lox.Inheritance
