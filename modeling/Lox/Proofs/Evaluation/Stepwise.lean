import Lox.Proofs.Evaluation.Order

/-!
# Relations that every operation keeps

A run changes the machine by a few operations only. Main statement: a preorder between
machines that each of them keeps holds along every computation: from the machine that it starts
on to that of each task that is visited in its course, and from the one that this task leaves to
the one that it leaves itself.
-/

set_option autoImplicit false

namespace Lox

namespace Run

/-- However the computation ends, it leaves a machine that is `R` to the one it started on. -/
def Along (R : Machine → Machine → Prop) {α : Type} (p : Run α) : Prop := ∀ m, R m (left (p m))

end Run

namespace Evaluation

/-- However the computation ends, the machine that it leaves is `R` to the one it started on. So
is the machine of each task that it starts, and the one that it leaves is `R` to the one that this
task leaves. -/
def Ordered (R : Machine → Machine → Prop) {α : Type} (started : Machine → List Moment)
    (p : Run α) : Prop :=
  ∀ m, R m (Run.left (p m)) ∧
    ∀ x ∈ started m, R m x.2 ∧ R (x.1.left x.2) (Run.left (p m))

theorem Ordered.along {R : Machine → Machine → Prop} {α : Type} {started : Machine → List Moment}
    {p : Run α} (hp : Ordered R started p) : Run.Along R p := fun m => (hp m).1

end Evaluation

/-- A relation between machines that all operations keep. -/
structure Stepwise (R : Machine → Machine → Prop) : Prop where
  refl (m : Machine) : R m m
  trans {m m' m'' : Machine} (h : R m m') (h' : R m' m'') : R m m''
  newId : Run.Along R Run.newId
  newScope (p : Nat) : Run.Along R (Run.newScope p)
  define (i : Nat) (name : String) (v : Value) : Run.Along R (Run.define i name v)
  newInstance (c : Class) : Run.Along R (Run.newInstance c)
  setField (id : Nat) (name : String) (v : Value) : Run.Along R (Run.setField id name v)
  printLine (s : String) : Run.Along R (Run.printLine s)
  readClock : Run.Along R Run.readClock

theorem Machine.Unchanged.stepwise : Stepwise Machine.Unchanged where
  refl := .refl
  trans := .trans
  newId m := (Run.Keeps.newId m).unchanged
  newScope p m := (Run.Keeps.newScope p m).unchanged
  define i name v m := (Run.Keeps.define i name v m).unchanged
  newInstance c m := (Run.Keeps.newInstance c m).unchanged
  setField id name v m := (Run.Keeps.setField id name v m).unchanged
  printLine s m := (Run.Keeps.printLine s m).unchanged
  readClock _ := ⟨rfl, rfl, rfl, id⟩

namespace Stepwise

open Run Evaluation

variable {R : Machine → Machine → Prop} {α β : Type} (h : Stepwise R)

include h

theorem pure (a : α) : Along R (Pure.pure a : Run α) := h.refl

theorem exhausted : Along R (throw .exhausted : Run α) := h.refl

theorem fail (t : Token) (cause : RuntimeCause) : Along R (Run.fail t cause : Run α) := h.refl

theorem bind {p : Run α} {f : α → Run β} (hp : Along R p) (hf : ∀ a, Along R (f a)) :
    Along R (p >>= f) := by
  intro m
  have hm := hp m
  cases hr : p m with
  | ok a m' =>
    rw [hr] at hm
    rw [bind_ok hr]
    exact h.trans hm (hf a m')
  | error stop m' =>
    rw [hr] at hm
    rwa [bind_error hr]

omit h in
theorem get_bind {f : Machine → Run β} (hf : ∀ m, Along R (f m)) : Along R (get >>= f) :=
  fun m => hf m m

theorem blaming (t : Token) (r : Except RuntimeCause α) : Along R (Run.blaming t r) := by
  cases r with
  | ok a => exact h.pure a
  | error cause => exact h.fail t cause

theorem getAt (i d : Nat) (name : Token) : Along R (Run.getAt i d name) := by
  intro m
  unfold Run.getAt
  split <;> exact h.refl m

theorem read (i : Nat) (r : Reference) : Along R (Run.read i r) := by
  intro m
  unfold Run.read
  split
  · exact h.getAt i _ _ m
  · cases m.scopes.get? Machine.global r.name.lexeme <;> exact h.refl m

theorem write (i : Nat) (r : Reference) (v : Value) : Along R (Run.write i r v) := by
  intro m
  unfold Run.write
  split
  · exact h.define _ _ v m
  · exact h.refl m

theorem newFunction (f : Closure) : Along R (Run.newFunction f) := h.bind h.newId fun _ => h.pure _

theorem bindMethod (f : Closure) (self : Value) : Along R (Run.bindMethod f self) :=
  h.bind (h.newScope _) fun _ => h.bind (h.define _ _ _) fun _ => h.pure _

theorem property (id : Nat) (c : Class) (name : Token) : Along R (Run.property id c name) := by
  apply get_bind
  intro m
  split
  · exact h.pure _
  · split
    · exact h.bind (h.bindMethod _ _) fun _ => h.newFunction _
    · exact h.fail _ _

theorem callHost (f : HostFunction) (args : List Value) (paren : Token) :
    Along R (Run.callHost f args paren) := by
  intro m
  unfold Run.callHost
  cases f.code with
  | clock => exact h.readClock m
  | given i =>
    simp only
    split <;> exact h.refl m

theorem checkArity (f : Value) (args : List Value) (paren : Token) :
    Along R (Evaluation.checkArity f args paren) := by
  unfold Evaluation.checkArity
  split
  · exact h.fail _ _
  · split
    · exact h.pure _
    · exact h.fail _ _

theorem defineAll (i : Nat) (ps : List Token) (vs : List Value) :
    Along R (Evaluation.defineAll i ps vs) := by
  induction ps generalizing vs with
  | nil => exact h.pure _
  | cons p ps ih =>
    cases vs with
    | nil => exact h.pure _
    | cons v vs => exact h.bind (h.define _ _ _) fun _ => ih vs

theorem opened (f : Closure) (args : List Value) : Along R (Evaluation.opened f args) :=
  h.bind (h.newScope _) fun _ => h.bind (h.defineAll _ _ _) fun _ => h.pure _

theorem superMethod (i : Nat) (r : Reference) (method : Token) :
    Along R (Evaluation.superMethod i r method) := by
  apply get_bind
  intro m
  split
  · apply h.bind (h.getAt _ _ _)
    intro c
    split
    · apply h.bind (h.getAt _ _ _)
      intro self
      split
      · split
        · exact h.bind (h.bindMethod _ _) fun _ => h.newFunction _
        · exact h.fail _ _
      · exact h.fail _ _
    · exact h.fail _ _
  · exact h.fail _ _

theorem superclassOf (i : Nat) (r : Option Reference) : Along R (Evaluation.superclassOf i r) := by
  cases r with
  | none => exact h.pure _
  | some r =>
    apply h.bind (h.read _ _)
    intro v
    split
    · exact h.pure _
    · exact h.fail _ _

theorem methodScope (i : Nat) (c : Option Class) : Along R (Evaluation.methodScope i c) := by
  cases c with
  | none => exact h.pure _
  | some c => exact h.bind (h.newScope _) fun _ => h.bind (h.define _ _ _) fun _ => h.pure _

theorem declareClass (i : Nat) (name : Token) (r : Option Reference) (ms : List Function) :
    Along R (Evaluation.declareClass i name r ms) := by
  apply h.bind (h.superclassOf i r)
  intro parent
  apply h.bind (h.define _ _ _)
  intro _
  apply h.bind (h.methodScope i parent)
  intro inner
  exact h.bind h.newId fun _ => h.define _ _ _

section Ordered

variable {g : Machine → List Moment} {p : Run α} {f : α → Run β}
  {k : α → Machine → List Moment}

omit h in
theorem ordered (hp : Along R p) : Ordered R (fun _ => []) p := fun m => ⟨hp m, nofun⟩

theorem ordered_bind (hp : Ordered R g p) (hf : ∀ a, Ordered R (k a) (f a)) :
    Ordered R (fun m => g m ++ behind (p m) k) (p >>= f) := by
  have hends : Along R (p >>= f) := h.bind hp.along fun a => (hf a).along
  refine fun m => ⟨hends m, fun x hx => ?_⟩
  rcases List.mem_append.1 hx with hx | hx
  · obtain ⟨hm, hl⟩ := (hp m).2 x hx
    refine ⟨hm, h.trans hl ?_⟩
    cases hr : p m with
    | error stop m₁ =>
      rw [bind_error hr]
      exact h.refl m₁
    | ok a m₁ =>
      rw [bind_ok hr]
      exact (hf a m₁).1
  · obtain ⟨a, m₁, hr, hx⟩ := mem_behind.1 hx
    obtain ⟨hm, hl⟩ := (hf a m₁).2 x hx
    have hfirst := (hp m).1
    rw [hr] at hfirst
    rw [bind_ok hr]
    exact ⟨h.trans hfirst hm, hl⟩

/-- The computation that follows starts no task. -/
theorem ordered_then (hp : Ordered R g p) (hf : ∀ a, Along R (f a)) : Ordered R g (p >>= f) := by
  have hbind := h.ordered_bind hp fun a => ordered (hf a)
  exact fun m => ⟨(hbind m).1, fun x hx => (hbind m).2 x (List.mem_append_left _ hx)⟩

/-- The computation before starts no task. -/
theorem ordered_after (hp : Along R p) (hf : ∀ a, Ordered R (k a) (f a)) :
    Ordered R (fun m => behind (p m) k) (p >>= f) := h.ordered_bind (ordered hp) hf

/-- The computation is that of a task. -/
theorem ordered_task (hp : Along R p) (t : Task) (ht : ∀ m, t.left m = left (p m)) :
    Ordered R (fun m => [(t, m)]) p := by
  refine fun m => ⟨hp m, fun x hx => ?_⟩
  obtain rfl := List.mem_singleton.1 hx
  exact ⟨h.refl m, ht m ▸ h.refl _⟩

end Ordered

/-- What the computations of a bound leave. -/
structure Bounded (R : Machine → Machine → Prop) (n : Nat) : Prop where
  evaluate (i : Nat) (e : Expr) : Along R (Evaluation.evaluate n i e)
  execute (i : Nat) (s : Stmt) : Along R (Evaluation.execute n i s)
  loop (i : Nat) (e : Expr) (s : Stmt) : Along R (Evaluation.loop n i e s)

section Step

variable {n : Nat} (hn : Bounded R n)

include hn

theorem evaluateTask (i : Nat) (e : Expr) :
    Ordered R (fun m => [(.evaluate n i e, m)]) (Evaluation.evaluate n i e) :=
  h.ordered_task (hn.evaluate i e) (.evaluate n i e) fun _ => rfl

theorem executeTask (i : Nat) (s : Stmt) :
    Ordered R (fun m => [(.execute n i s, m)]) (Evaluation.execute n i s) :=
  h.ordered_task (hn.execute i s) (.execute n i s) fun _ => rfl

theorem arguments (i : Nat) (es : List Expr) :
    Ordered R (startedExprs n i es) (Evaluation.arguments (Evaluation.evaluate n i) es) := by
  induction es with
  | nil => exact ordered (h.pure _)
  | cons e es ih =>
    exact h.ordered_bind (h.evaluateTask hn i e) fun v => h.ordered_then ih fun vs => h.pure _

theorem sequence (i : Nat) (ss : List Stmt) :
    Ordered R (startedStmts n i ss) (Evaluation.sequence (Evaluation.execute n i) ss) := by
  induction ss with
  | nil => exact ordered (h.pure _)
  | cons s ss ih =>
    apply h.ordered_bind (h.executeTask hn i s)
    intro flow
    cases flow with
    | normal => exact ih
    | returned v => exact ordered (h.pure _)

theorem enter (f : Closure) (args : List Value) :
    Ordered R (fun m => behind (Evaluation.opened f args m) fun i m' =>
        startedStmts n i f.declaration.body m')
      (Evaluation.enter (Evaluation.execute n) f args) := by
  rw [enter_eq]
  apply h.ordered_after (h.opened _ _)
  intro scope
  apply h.ordered_then (h.sequence hn scope _)
  intro flow
  split
  · exact h.getAt _ _ _
  · cases flow with
    | normal => exact h.pure _
    | returned v => exact h.pure _

theorem construct (c : Class) (args : List Value) :
    Ordered R (startedBody n (.class c) args)
      (Evaluation.construct (Evaluation.execute n) c args) := by
  cases hi : c.initializer? with
  | none =>
    unfold startedBody Evaluation.construct
    simp only [hi]
    exact ordered (h.bind (h.newInstance _) fun _ => h.pure _)
  | some init =>
    unfold startedBody Evaluation.construct
    -- the method that is bound has the body of the initializer
    simp only [hi, Evaluation.openedInitializer, Run.bindMethod, bind_assoc, pure_bind, behind_bind]
    apply h.ordered_after (h.newInstance _)
    intro self
    apply h.ordered_after (h.newScope _)
    intro scope
    apply h.ordered_after (h.define _ _ _)
    intro _
    exact h.ordered_then (h.enter hn { init with scope } args) fun _ => h.pure _

theorem invoke (f : Value) (args : List Value) (paren : Token) :
    Ordered R (startedBody n f args) (Evaluation.invoke (Evaluation.execute n) f args paren) := by
  cases f with
  | function id code => exact h.enter hn _ _
  | host id code => exact ordered (h.callHost _ _ _)
  | «class» c => exact h.construct hn c args
  | _ => exact ordered (h.fail _ _)

theorem evaluate_succ (i : Nat) (e : Expr) :
    Ordered R (Task.starts (.evaluate (n + 1) i e)) (Evaluation.evaluate (n + 1) i e) := by
  unfold Evaluation.evaluate
  cases e with
  | literal v => exact ordered (h.pure _)
  | grouping e => exact h.evaluateTask hn i e
  | unary op e => exact h.ordered_then (h.evaluateTask hn i e) fun _ => h.blaming _ _
  | binary l op r =>
    apply h.ordered_bind (h.evaluateTask hn i l)
    intro a
    apply h.ordered_bind (h.evaluateTask hn i r)
    intro b
    exact ordered (h.blaming _ _)
  | logical l op r =>
    apply h.ordered_bind (h.evaluateTask hn i l)
    intro a
    split
    · exact ordered (h.pure _)
    · exact h.evaluateTask hn i r
  | var r => exact ordered (h.read _ _)
  | assign r e =>
    apply h.ordered_then (h.evaluateTask hn i e)
    intro v
    exact h.bind (h.write _ _ _) fun _ => h.pure _
  | call f paren es =>
    apply h.ordered_bind (h.evaluateTask hn i f)
    intro v
    apply h.ordered_bind (h.arguments hn i es)
    intro vs
    exact h.ordered_after (h.checkArity _ _ _) fun _ => h.invoke hn _ _ _
  | get e name =>
    apply h.ordered_then (h.evaluateTask hn i e)
    intro v
    split
    · exact h.property _ _ _
    · exact h.fail _ _
  | set e name v =>
    apply h.ordered_bind (h.evaluateTask hn i e)
    intro u
    cases u with
    | «instance» id c =>
      apply h.ordered_then (h.evaluateTask hn i v)
      intro w
      exact h.bind (h.setField _ _ _) fun _ => h.pure _
    | _ => exact ordered (h.fail _ _)
  | this r => exact ordered (h.read _ _)
  | super r method => exact ordered (h.superMethod _ _ _)

theorem execute_succ (i : Nat) (s : Stmt) :
    Ordered R (Task.starts (.execute (n + 1) i s)) (Evaluation.execute (n + 1) i s) := by
  unfold Evaluation.execute
  cases s with
  | expression e => exact h.ordered_then (h.evaluateTask hn i e) fun _ => h.pure _
  | print e =>
    apply h.ordered_then (h.evaluateTask hn i e)
    intro v
    exact h.bind (h.printLine _) fun _ => h.pure _
  | var x e =>
    have hdefine (v : Value) : Along R (do Run.define i x.lexeme v; return .normal : Run Flow) :=
      h.bind (h.define _ _ _) fun _ => h.pure _
    cases e with
    | none => exact ordered (h.bind (h.pure _) hdefine)
    | some e => exact h.ordered_then (h.evaluateTask hn i e) hdefine
  | block ss => exact h.ordered_after (h.newScope _) fun inner => h.sequence hn inner ss
  | «if» e yes no =>
    apply h.ordered_bind (h.evaluateTask hn i e)
    intro v
    split
    · exact h.executeTask hn i yes
    · cases no with
      | none => exact ordered (h.pure _)
      | some no => exact h.executeTask hn i no
  | «while» e body => exact h.ordered_task (hn.loop i e body) (.loop n i e body) fun _ => rfl
  | function f =>
    exact ordered (h.bind (h.newFunction _) fun _ => h.bind (h.define _ _ _) fun _ => h.pure _)
  | «return» t e =>
    cases e with
    | none => exact ordered (h.pure _)
    | some e => exact h.ordered_then (h.evaluateTask hn i e) fun _ => h.pure _
  | «class» x r ms =>
    have hdeclare : Along R (do Evaluation.declareClass i x r ms; return .normal : Run Flow) :=
      h.bind (h.declareClass _ _ _ _) fun _ => h.pure _
    cases r with
    | none => exact ordered hdeclare
    | some r =>
      -- the superclass is looked up before anything is changed
      refine fun m => ⟨hdeclare m, fun x hx => ?_⟩
      obtain rfl := List.mem_singleton.1 hx
      have hleft : Task.left (.evaluate (n + 1) i (.var r)) m = m := left_read i r m
      exact ⟨h.refl m, hleft.symm ▸ hdeclare m⟩

theorem loop_succ (i : Nat) (e : Expr) (s : Stmt) :
    Ordered R (Task.starts (.loop (n + 1) i e s)) (Evaluation.loop (n + 1) i e s) := by
  unfold Evaluation.loop
  apply h.ordered_bind (h.evaluateTask hn i e)
  intro v
  split
  · apply h.ordered_bind (h.executeTask hn i s)
    intro flow
    cases flow with
    | normal => exact h.ordered_task (hn.loop i e s) (.loop n i e s) fun _ => rfl
    | returned v => exact ordered (h.pure _)
  · exact ordered (h.pure _)

end Step

theorem bounded (n : Nat) : Bounded R n := by
  induction n with
  | zero => constructor <;> intros <;> exact h.exhausted
  | succ n ih =>
    exact ⟨fun i e => (h.evaluate_succ ih i e).along, fun i s => (h.execute_succ ih i s).along,
      fun i e s => (h.loop_succ ih i e s).along⟩

theorem task (t : Task) (m : Machine) : R m (t.left m) := by
  cases t with
  | evaluate n i e => exact (h.bounded n).evaluate i e m
  | execute n i s => exact (h.bounded n).execute i s m
  | loop n i e s => exact (h.bounded n).loop i e s m

theorem program (n : Nat) (ss : List Stmt) :
    Ordered R (startedProgram n ss) (Evaluation.program n ss) := by
  induction ss with
  | nil => exact ordered (h.pure _)
  | cons s ss ih => exact h.ordered_bind (h.executeTask (h.bounded n) Machine.global s) fun _ => ih

/-- From the start of a task to the start of one that it spawns, and from the end of that one to
its own end. -/
theorem spawned {t t' : Task} {m m' : Machine} (hs : Spawns t m t' m') :
    R m m' ∧ R (t'.left m') (t.left m) := by
  have hx := mem_starts.2 hs
  cases t with
  | evaluate n i e =>
    cases n with
    | zero => cases hx
    | succ n => exact (h.evaluate_succ (h.bounded n) i e m).2 _ hx
  | execute n i s =>
    cases n with
    | zero => cases hx
    | succ n => exact (h.execute_succ (h.bounded n) i s m).2 _ hx
  | loop n i e s =>
    cases n with
    | zero => cases hx
    | succ n => exact (h.loop_succ (h.bounded n) i e s m).2 _ hx

theorem visited {t t' : Task} {m m' : Machine} (hv : Visits t m t' m') :
    R m m' ∧ R (t'.left m') (t.left m) := by
  induction hv with
  | self => exact ⟨h.refl _, h.refl _⟩
  | step hs _ ih =>
    obtain ⟨hm, hl⟩ := h.spawned hs
    exact ⟨h.trans hm ih.1, h.trans ih.2 hl⟩

/-- From the start of a program to all that is visited in it, and from there to its end. -/
theorem visitedIn {n : Nat} {before : List Stmt} {s : Stmt} (after : List Stmt) {t : Task}
    {m m₁ m' : Machine} (hb : Evaluation.program n before m = .ok () m₁)
    (hv : Visits (.execute n Machine.global s) m₁ t m') :
    R m m' ∧ R (t.left m') (left (Evaluation.program n (before ++ s :: after) m)) := by
  obtain ⟨hm, hl⟩ := (h.program n (before ++ s :: after) m).2 _
    (mem_startedProgram.2 ⟨before, s, after, m₁, rfl, hb, rfl⟩)
  obtain ⟨hm', hl'⟩ := h.visited hv
  exact ⟨h.trans hm hm', h.trans hl' hl⟩

end Stepwise

end Lox
