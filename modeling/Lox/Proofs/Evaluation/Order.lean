import Mathlib.Data.List.Basic
import Lox.Proofs.Evaluation.Constant
import Lox.Proofs.Simulation.Visit

/-!
# The order of evaluation

A task starts the tasks that it calls upon one after another, and in the log of a task stands
all that is started in its course, in the order in which that happens. Main statements: a
task starts just the tasks that it spawns, its log holds just what is visited from it, and
the log of the task that is started last ends the log.
-/

set_option autoImplicit false

namespace Lox.Evaluation

/-- The machine that a task leaves, however it ends. -/
def Task.left : Task → Machine → Machine
  | .evaluate n scope e, m => Run.left (Evaluation.evaluate n scope e m)
  | .execute n scope s, m => Run.left (Evaluation.execute n scope s m)
  | .loop n scope e s, m => Run.left (Evaluation.loop n scope e s m)

/-- A task and the machine it is started on. -/
abbrev Moment := Task × Machine

/-- What is started behind a computation, if that comes to a value. -/
def behind {α : Type} (r : EStateM.Result Stop Machine α) (f : α → Machine → List Moment) :
    List Moment :=
  match r with
  | .ok a m => f a m
  | .error _ _ => []

theorem behind_bind {α β : Type} (p : Run α) (f : α → Run β) (m : Machine)
    (g : β → Machine → List Moment) :
    behind ((p >>= f) m) g = behind (p m) fun a m' => behind (f a m') g := by
  cases hr : p m with
  | ok a m' => rw [Run.bind_ok hr, behind]
  | error stop m' => rw [Run.bind_error hr, behind, behind]

def startedExprs (n scope : Nat) : List Expr → Machine → List Moment
  | [], _ => []
  | e :: es, m =>
    (.evaluate n scope e, m) :: behind (evaluate n scope e m) fun _ m' => startedExprs n scope es m'

/-- Statements that are started in order, up to the first that leaves the function. -/
def startedStmts (n scope : Nat) : List Stmt → Machine → List Moment
  | [], _ => []
  | s :: ss, m =>
    (.execute n scope s, m) :: behind (execute n scope s m) fun flow m' =>
      match flow with
      | .normal => startedStmts n scope ss m'
      | .returned _ => []

/-- The statements of a program that are started, up to the first that fails. -/
def startedProgram (n : Nat) : List Stmt → Machine → List Moment
  | [], _ => []
  | s :: ss, m =>
    (.execute n Machine.global s, m) :: behind (execute n Machine.global s m) fun _ m' =>
      startedProgram n ss m'

/-- The statements that a call of `v` runs. -/
def startedBody (n : Nat) (v : Value) (vs : List Value) (m : Machine) : List Moment :=
  match v with
  | .function _ f =>
    behind (opened f vs m) fun inner m' => startedStmts n inner f.declaration.body m'
  | .class c =>
    match c.initializer? with
    | some init => behind (openedInitializer c init vs m) fun inner m' =>
        startedStmts n inner init.declaration.body m'
    | none => []
  | _ => []

namespace Task

/-- The tasks that a task starts, each on the machine of that moment. -/
def starts : Task → Machine → List Moment
  | .evaluate 0 _ _, _ | .execute 0 _ _, _ | .loop 0 _ _ _, _ => []
  | .evaluate (n + 1) scope e, m =>
    match e with
    | .literal _ | .var _ | .this _ | .super _ _ => []
    | .grouping e | .unary _ e | .assign _ e | .get e _ => [(.evaluate n scope e, m)]
    | .binary l _ r => startedExprs n scope [l, r] m
    | .logical l op r =>
      (.evaluate n scope l, m) :: behind (Evaluation.evaluate n scope l m) fun a m' =>
        if Operation.decides op.kind a then [] else [(.evaluate n scope r, m')]
    | .call f paren es =>
      (.evaluate n scope f, m) :: behind (Evaluation.evaluate n scope f m) fun v m₁ =>
        startedExprs n scope es m₁ ++
          behind (arguments (Evaluation.evaluate n scope) es m₁) fun vs m₂ =>
            behind (checkArity v vs paren m₂) fun _ m₃ => startedBody n v vs m₃
    | .set e _ v =>
      (.evaluate n scope e, m) :: behind (Evaluation.evaluate n scope e m) fun o m' =>
        match o with
        | .instance _ _ => [(.evaluate n scope v, m')]
        | _ => []
  | .execute (n + 1) scope s, m =>
    match s with
    | .expression e | .print e => [(.evaluate n scope e, m)]
    | .var _ e | .return _ e => e.toList.map fun e => (.evaluate n scope e, m)
    | .block ss => behind (Run.newScope scope m) fun inner m' => startedStmts n inner ss m'
    | .if e yes no =>
      (.evaluate n scope e, m) :: behind (Evaluation.evaluate n scope e m) fun v m' =>
        if v.truthy then [(.execute n scope yes, m')]
        else no.toList.map fun s => (.execute n scope s, m')
    | .while e s => [(.loop n scope e s, m)]
    | .function _ => []
    | .class _ r _ => r.toList.map fun r => (.evaluate (n + 1) scope (.var r), m)
  | .loop (n + 1) scope e s, m =>
    (.evaluate n scope e, m) :: behind (Evaluation.evaluate n scope e m) fun v m₁ =>
      if v.truthy then
        (.execute n scope s, m₁) :: behind (Evaluation.execute n scope s m₁) fun flow m₂ =>
          match flow with
          | .normal => [(.loop n scope e s, m₂)]
          | .returned _ => []
      else []

end Task

section Lists

variable {α : Type} {n scope : Nat} {m m' : Machine} {x : Moment}

theorem mem_behind {r : EStateM.Result Stop Machine α} {f : α → Machine → List Moment} :
    x ∈ behind r f ↔ ∃ a m', r = .ok a m' ∧ x ∈ f a m' := by
  cases r with
  | ok a m => exact ⟨fun h => ⟨a, m, rfl, h⟩, fun ⟨_, _, h, hx⟩ => by cases h; exact hx⟩
  | error stop m => exact ⟨nofun, nofun⟩

theorem mem_startedExprs {es : List Expr} : x ∈ startedExprs n scope es m ↔
    ∃ before e after vs m', es = before ++ e :: after ∧
      arguments (evaluate n scope) before m = .ok vs m' ∧ x = (.evaluate n scope e, m') := by
  induction es generalizing m with
  | nil => exact ⟨nofun, fun ⟨before, _, _, _, _, h, _⟩ => by cases before <;> cases h⟩
  | cons e es ih =>
    rw [startedExprs, List.mem_cons, mem_behind]
    constructor
    · rintro (rfl | ⟨v, m₁, hv, hx⟩)
      · exact ⟨[], e, es, [], m, rfl, rfl, rfl⟩
      · obtain ⟨before, e', after, vs, m₂, rfl, hvs, rfl⟩ := ih.1 hx
        exact ⟨e :: before, e', after, v :: vs, m₂, rfl, (Run.bind_ok hv).trans (Run.bind_ok hvs), rfl⟩
    · rintro ⟨before, e', after, vs, m₂, hes, hvs, rfl⟩
      cases before with
      | nil =>
        cases hes
        cases hvs
        exact .inl rfl
      | cons e₀ before =>
        cases hes
        obtain ⟨v, m₁, hv, hvs⟩ := Run.ok_of_bind hvs
        obtain ⟨vs', m₃, hvs', hvs⟩ := Run.ok_of_bind hvs
        cases hvs
        exact .inr ⟨v, m₁, hv, ih.2 ⟨before, e', after, vs', m₂, rfl, hvs', rfl⟩⟩

theorem mem_startedStmts {ss : List Stmt} : x ∈ startedStmts n scope ss m ↔
    ∃ before s after m', ss = before ++ s :: after ∧
      sequence (execute n scope) before m = .ok .normal m' ∧ x = (.execute n scope s, m') := by
  induction ss generalizing m with
  | nil => exact ⟨nofun, fun ⟨before, _, _, _, h, _⟩ => by cases before <;> cases h⟩
  | cons s ss ih =>
    rw [startedStmts, List.mem_cons, mem_behind]
    constructor
    · rintro (rfl | ⟨flow, m₁, hs, hx⟩)
      · exact ⟨[], s, ss, m, rfl, rfl, rfl⟩
      · cases flow with
        | returned v => cases hx
        | normal =>
          obtain ⟨before, s', after, m₂, rfl, hb, rfl⟩ := ih.1 hx
          exact ⟨s :: before, s', after, m₂, rfl, (Run.bind_ok hs).trans hb, rfl⟩
    · rintro ⟨before, s', after, m₂, hss, hb, rfl⟩
      cases before with
      | nil =>
        cases hss
        cases hb
        exact .inl rfl
      | cons s₀ before =>
        cases hss
        obtain ⟨m₁, hs, hb⟩ := normal_of_sequence hb
        exact .inr ⟨.normal, m₁, hs, ih.2 ⟨before, s', after, m₂, rfl, hb, rfl⟩⟩

theorem mem_startedProgram {ss : List Stmt} : x ∈ startedProgram n ss m ↔
    ∃ before s after m', ss = before ++ s :: after ∧ program n before m = .ok () m' ∧
      x = (.execute n Machine.global s, m') := by
  induction ss generalizing m with
  | nil => exact ⟨nofun, fun ⟨before, _, _, _, h, _⟩ => by cases before <;> cases h⟩
  | cons s ss ih =>
    rw [startedProgram, List.mem_cons, mem_behind]
    constructor
    · rintro (rfl | ⟨flow, m₁, hs, hx⟩)
      · exact ⟨[], s, ss, m, rfl, rfl, rfl⟩
      · obtain ⟨before, s', after, m₂, rfl, hb, rfl⟩ := ih.1 hx
        exact ⟨s :: before, s', after, m₂, rfl, (Run.bind_ok hs).trans hb, rfl⟩
    · rintro ⟨before, s', after, m₂, hss, hb, rfl⟩
      cases before with
      | nil =>
        cases hss
        cases hb
        exact .inl rfl
      | cons s₀ before =>
        cases hss
        obtain ⟨flow, m₁, hs, hb⟩ := Run.ok_of_bind hb
        exact .inr ⟨flow, m₁, hs, ih.2 ⟨before, s', after, m₂, rfl, hb, rfl⟩⟩

theorem mem_startedBody {v : Value} {vs : List Value} : x ∈ startedBody n v vs m ↔
    ∃ inner before s after m₁ m₂, Opens v vs m inner (before ++ s :: after) m₁ ∧
      sequence (execute n inner) before m₁ = .ok .normal m₂ ∧ x = (.execute n inner s, m₂) := by
  constructor
  · intro h
    unfold startedBody at h
    split at h
    · obtain ⟨inner, m₁, ho, hx⟩ := mem_behind.1 h
      obtain ⟨before, s, after, m₂, hss, hb, rfl⟩ := mem_startedStmts.1 hx
      exact ⟨inner, before, s, after, m₁, m₂, hss ▸ .function ho, hb, rfl⟩
    · split at h
      · rename_i init hi
        obtain ⟨inner, m₁, ho, hx⟩ := mem_behind.1 h
        obtain ⟨before, s, after, m₂, hss, hb, rfl⟩ := mem_startedStmts.1 hx
        exact ⟨inner, before, s, after, m₁, m₂, hss ▸ .class hi ho, hb, rfl⟩
      · cases h
    · cases h
  · rintro ⟨inner, before, s, after, m₁, m₂, ho, hb, rfl⟩
    generalize hss : before ++ s :: after = ss at ho
    have hx : (.execute n inner s, m₂) ∈ startedStmts n inner ss m₁ :=
      mem_startedStmts.2 ⟨before, s, after, m₂, hss.symm, hb, rfl⟩
    cases ho with
    | function h => exact mem_behind.2 ⟨inner, m₁, h, hx⟩
    | «class» hi h =>
      unfold startedBody
      simp only [hi]
      exact mem_behind.2 ⟨inner, m₁, h, hx⟩

end Lists

theorem mem_starts_of_spawns {t t' : Task} {m m' : Machine} (h : Spawns t m t' m') :
    (t', m') ∈ t.starts m := by
  cases h with
  | grouping | operand | assigned | object | expression | printed | «while» =>
    exact List.mem_singleton.2 rfl
  | left | decider | callee | target | condition | loopCondition => exact List.mem_cons_self
  | initial | returned | superclass => exact List.mem_singleton.2 rfl
  | @right n scope m m₁ op l r a hl =>
    exact List.mem_cons_of_mem _ (mem_behind.2 ⟨a, m', hl, List.mem_cons_self⟩)
  | undecided hl ha =>
    refine List.mem_cons_of_mem _ (mem_behind.2 ⟨_, _, hl, ?_⟩)
    simp only [ha]
    exact List.mem_cons_self
  | argument hf hvs =>
    refine List.mem_cons_of_mem _ (mem_behind.2 ⟨_, _, hf, List.mem_append_left _ ?_⟩)
    exact mem_startedExprs.2 ⟨_, _, _, _, _, rfl, hvs, rfl⟩
  | body hf hvs ha ho hs =>
    refine List.mem_cons_of_mem _ (mem_behind.2 ⟨_, _, hf, List.mem_append_right _ ?_⟩)
    refine mem_behind.2 ⟨_, _, hvs, mem_behind.2 ⟨_, _, ha, ?_⟩⟩
    exact mem_startedBody.2 ⟨_, _, _, _, _, _, ho, hs, rfl⟩
  | field he => exact List.mem_cons_of_mem _ (mem_behind.2 ⟨_, _, he, List.mem_cons_self⟩)
  | @inner n scope inner m m₁ m₂ before after s hn hs =>
    have hx : (.execute n inner s, m') ∈ startedStmts n inner (before ++ s :: after) m₁ :=
      mem_startedStmts.2 ⟨_, _, _, _, rfl, hs, rfl⟩
    rw [Task.starts]
    exact mem_behind.2 ⟨inner, m₁, hn, hx⟩
  | yes he hv =>
    refine List.mem_cons_of_mem _ (mem_behind.2 ⟨_, _, he, ?_⟩)
    simp only [hv, if_true]
    exact List.mem_cons_self
  | no he hv =>
    refine List.mem_cons_of_mem _ (mem_behind.2 ⟨_, _, he, ?_⟩)
    simp only [hv]
    exact List.mem_singleton.2 rfl
  | loopBody he hv =>
    refine List.mem_cons_of_mem _ (mem_behind.2 ⟨_, _, he, ?_⟩)
    simp only [hv, if_true]
    exact List.mem_cons_self
  | again he hv hb =>
    refine List.mem_cons_of_mem _ (mem_behind.2 ⟨_, _, he, ?_⟩)
    simp only [hv, if_true]
    exact List.mem_cons_of_mem _ (mem_behind.2 ⟨_, _, hb, List.mem_cons_self⟩)

theorem spawns_of_mem_starts {t t' : Task} {m m' : Machine} (h : (t', m') ∈ t.starts m) :
    Spawns t m t' m' := by
  cases t with
  | evaluate n scope e =>
    cases n with
    | zero => cases h
    | succ n =>
      cases e with
      | literal | var | this | super => cases h
      | grouping =>
        cases List.mem_singleton.1 h
        exact .grouping
      | unary =>
        cases List.mem_singleton.1 h
        exact .operand
      | assign =>
        cases List.mem_singleton.1 h
        exact .assigned
      | get =>
        cases List.mem_singleton.1 h
        exact .object
      | binary l op r =>
        rcases List.mem_cons.1 h with h | h
        · cases h
          exact .left
        · obtain ⟨a, m₁, hl, h⟩ := mem_behind.1 h
          rcases List.mem_cons.1 h with h | h
          · cases h
            exact .right hl
          · obtain ⟨_, _, _, h⟩ := mem_behind.1 h
            cases h
      | logical l op r =>
        rcases List.mem_cons.1 h with h | h
        · cases h
          exact .decider
        · obtain ⟨a, m₁, hl, h⟩ := mem_behind.1 h
          split at h
          · cases h
          · rename_i ha
            cases List.mem_singleton.1 h
            exact .undecided hl (by simpa using ha)
      | call f paren es =>
        rcases List.mem_cons.1 h with h | h
        · cases h
          exact .callee
        · obtain ⟨v, m₁, hf, h⟩ := mem_behind.1 h
          rcases List.mem_append.1 h with h | h
          · obtain ⟨before, e, after, vs, m₂, rfl, hvs, h⟩ := mem_startedExprs.1 h
            cases h
            exact .argument hf hvs
          · obtain ⟨vs, m₂, hvs, h⟩ := mem_behind.1 h
            obtain ⟨_, m₃, ha, h⟩ := mem_behind.1 h
            obtain ⟨inner, before, s, after, m₄, m₅, ho, hs, h⟩ := mem_startedBody.1 h
            cases h
            exact .body hf hvs ha ho hs
      | set e name v =>
        rcases List.mem_cons.1 h with h | h
        · cases h
          exact .target
        · obtain ⟨o, m₁, he, h⟩ := mem_behind.1 h
          cases o with
          | «instance» id c =>
            cases List.mem_singleton.1 h
            exact .field he
          | _ => cases h
  | execute n scope s =>
    cases n with
    | zero => cases h
    | succ n =>
      cases s with
      | expression =>
        cases List.mem_singleton.1 h
        exact .expression
      | print =>
        cases List.mem_singleton.1 h
        exact .printed
      | var x e =>
        cases e with
        | none => cases h
        | some e =>
          cases List.mem_singleton.1 h
          exact .initial
      | block ss =>
        rw [Task.starts] at h
        obtain ⟨inner, m₁, hn, h⟩ := mem_behind.1 h
        obtain ⟨before, s, after, m₂, rfl, hb, h⟩ := mem_startedStmts.1 h
        cases h
        exact .inner hn hb
      | «if» e yes no =>
        rcases List.mem_cons.1 h with h | h
        · cases h
          exact .condition
        · obtain ⟨v, m₁, he, h⟩ := mem_behind.1 h
          split at h
          · rename_i hv
            cases List.mem_singleton.1 h
            exact .yes he hv
          · rename_i hv
            cases no with
            | none => cases h
            | some s =>
              cases List.mem_singleton.1 h
              exact .no he (by simpa using hv)
      | «while» e body =>
        cases List.mem_singleton.1 h
        exact .while
      | function => cases h
      | «return» t e =>
        cases e with
        | none => cases h
        | some e =>
          cases List.mem_singleton.1 h
          exact .returned
      | «class» x r ms =>
        cases r with
        | none => cases h
        | some r =>
          cases List.mem_singleton.1 h
          exact .superclass
  | loop n scope e s =>
    cases n with
    | zero => cases h
    | succ n =>
      rcases List.mem_cons.1 h with h | h
      · cases h
        exact .loopCondition
      · obtain ⟨v, m₁, he, h⟩ := mem_behind.1 h
        split at h
        · rename_i hv
          rcases List.mem_cons.1 h with h | h
          · cases h
            exact .loopBody he hv
          · obtain ⟨flow, m₂, hb, h⟩ := mem_behind.1 h
            cases flow with
            | normal =>
              cases List.mem_singleton.1 h
              exact .again he hv hb
            | returned v => cases h
        · cases h

/-- A task starts just the tasks that it spawns. -/
theorem mem_starts {t t' : Task} {m m' : Machine} : (t', m') ∈ t.starts m ↔ Spawns t m t' m' :=
  ⟨spawns_of_mem_starts, mem_starts_of_spawns⟩

namespace Task

/-- Falls from a task to what it spawns; the expression of a superclass clause has the bound
of its statement. -/
def rank : Task → Nat
  | .evaluate n _ _ => 2 * n
  | .execute n _ _ | .loop n _ _ _ => 2 * n + 1

theorem rank_lt_of_spawns {t t' : Task} {m m' : Machine} (h : Spawns t m t' m') :
    t'.rank < t.rank := by
  cases h <;> simp only [rank] <;> omega

/-- A task and all that is started in its course, in the order in which that happens. -/
def log (t : Task) (m : Machine) : List Moment :=
  (t, m) :: (t.starts m).attach.flatMap fun x => log x.1.1 x.1.2
termination_by t.rank
decreasing_by exact rank_lt_of_spawns (mem_starts.1 x.2)

theorem log_eq (t : Task) (m : Machine) :
    t.log m = (t, m) :: (t.starts m).flatMap fun x => x.1.log x.2 := by
  rw [log]
  congr 1
  conv_rhs => rw [← List.attach_map_subtype_val (t.starts m), List.flatMap_map]

theorem mem_log {t t' : Task} {m m' : Machine} : (t', m') ∈ t.log m ↔ Visits t m t' m' := by
  constructor
  · intro h
    induction t, m using log.induct with
    | case1 t m ih =>
      rw [log_eq] at h
      rcases List.mem_cons.1 h with h | h
      · cases h
        exact .self
      · obtain ⟨x, hx, h⟩ := List.mem_flatMap.1 h
        exact .step (mem_starts.1 hx) (ih ⟨x, hx⟩ h)
  · intro h
    induction h with
    | self =>
      rw [log_eq]
      exact List.mem_cons_self
    | step h _ ih =>
      rw [log_eq]
      exact List.mem_cons_of_mem _ (List.mem_flatMap.2 ⟨_, mem_starts.2 h, ih⟩)

/-- With the log of what a task starts last its own log ends. -/
theorem log_suffix {t t' : Task} {m m' : Machine} {before : List Moment}
    (h : t.starts m = before ++ [(t', m')]) : t'.log m' <:+ t.log m := by
  refine ⟨(t, m) :: before.flatMap fun x => x.1.log x.2, ?_⟩
  rw [log_eq t, h, List.flatMap_append, List.flatMap_singleton, List.cons_append]

end Task

end Lox.Evaluation
