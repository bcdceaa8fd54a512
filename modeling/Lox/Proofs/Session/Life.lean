import Lox.Proofs.Frame.Closed
import Lox.Proofs.Session.Receiver

/-!
# The scopes in the life of a session

In its life a session executes programs: those of the texts that are run, and any others that it
is given, also ones that scoping never saw. Main statement: whenever a task starts or has ended,
the scopes are a tree, each one that anything holds has a way to the global scope, and a link
never becomes another.
-/

set_option autoImplicit false

namespace Lox

open Evaluation Simulation

/-- The value of a computation, if it ends with one. -/
def Run.value? {α : Type} : EStateM.Result Stop Machine α → Option α
  | .ok a _ => some a
  | .error .. => none

/-- The value that leaves a statement. -/
def Flow.value? : Flow → Option Value
  | .normal => none
  | .returned v => some v

/-- The value that a task comes to, or that leaves it by a `return`. -/
def Evaluation.Task.value? : Task → Machine → Option Value
  | .evaluate n scope e, m => Run.value? (Evaluation.evaluate n scope e m)
  | .execute n scope s, m => (Run.value? (Evaluation.execute n scope s m)).bind Flow.value?
  | .loop n scope e s, m => (Run.value? (Evaluation.loop n scope e s m)).bind Flow.value?

theorem Holding.Ends.value {I : Machine → Prop} {L : Machine → Machine → Prop} {α : Type}
    {m : Machine} {P : Machine → α → Prop} {r : EStateM.Result Stop Machine α} {a : α}
    (h : Ends I L m P r) (hr : Run.value? r = some a) : P (Run.left r) a := by
  cases h with
  | ok _ _ ha =>
    cases hr
    exact ha
  | error => cases hr

theorem Flow.AtHand.value {H : Machine → Thing → Prop} {m : Machine} {flow : Flow} {v : Value}
    (h : flow.AtHand H m) (hv : flow.value? = some v) : v.AtHand H m := by
  cases flow with
  | normal => cases hv
  | returned w =>
    cases hv
    exact h

theorem Run.left_bind_pure {α β : Type} (p : Run α) (f : α → β) (m : Machine) :
    left ((p >>= fun a => pure (f a)) m) = left (p m) := by
  cases hr : p m with
  | ok a m' =>
    rw [bind_ok hr]
    rfl
  | error stop m' =>
    rw [bind_error hr]
    rfl

namespace Session

/-- A program that is executed, and the session before. -/
structure Execution where
  session : Session
  bound : Nat
  program : List Stmt

namespace Execution

/-- The execution comes to task `t`, on machine `m`. -/
def Visited (x : Execution) (t : Task) (m : Machine) : Prop :=
  ∃ before stmt after m₀, x.program = before ++ stmt :: after ∧
    Evaluation.program x.bound before x.session.machine = .ok () m₀ ∧
    Visits (.execute x.bound Machine.global stmt) m₀ t m

/-- The machine that the execution leaves, however it ends. -/
def left (x : Execution) : Machine :=
  Run.left (Evaluation.program x.bound x.program x.session.machine)

end Execution

/-- The session executes a program and becomes another: that of a text that it runs, one that it
is given, or an expression or a statement on its own. -/
inductive Executes (s : Session) : Execution → Session → Prop
  | run {s' : Session} {bound : Nat} {source : String} {program : List Stmt} {report : Report}
      (ha : s.accepted? source = some program) (hr : s.run bound source = some (report, s')) :
      Executes s ⟨s.prepared source program, bound, program⟩ s'
  | interpret {s' : Session} {bound : Nat} {program : List Stmt} {result : Except Diagnostic Unit}
      (hr : s.interpret bound program = some (result, s')) : Executes s ⟨s, bound, program⟩ s'
  | evaluate {s' : Session} {bound : Nat} {e : Expr} {result : Except Diagnostic Value}
      (hr : s.evaluate bound e = some (result, s')) :
      Executes s ⟨s, bound + 1, [.expression e]⟩ s'
  | execute {s' : Session} {bound : Nat} {stmt : Stmt} {result : Except Diagnostic Flow}
      (hr : s.execute bound stmt = some (result, s')) : Executes s ⟨s, bound, [stmt]⟩ s'

/-- The session becomes another without executing anything. -/
inductive Changes (s : Session) : Session → Prop
  | rejected {s' : Session} {bound : Nat} {source : String} {report : Report}
      (ha : s.accepted? source = none) (hr : s.run bound source = some (report, s')) : Changes s s'
  | parse (nextId : Nat) : Changes s { s with nextId }
  | resolve (program : List Stmt) : Changes s (s.resolve program).2
  | takeLines : Changes s s.takeLines.2
  | setRoom (room : Option Nat) : Changes s (s.setRoom room)
  | setFlushFails (fails : Bool) : Changes s (s.setFlushFails fails)
  | defineGiven (name : String) (arity : Nat) {code : Host} (hc : Sealed code) :
      Changes s (s.defineGiven name arity code)

/-- `Life xs s`: session `s` comes after the executions `xs`, the last one first. -/
inductive Life : List Execution → Session → Prop
  | start (now : Nat) : Life [] (.start now)
  | executed {xs : List Execution} {x : Execution} {s s' : Session} (h : Life xs s)
      (he : Executes s x s') : Life (x :: xs) s'
  | changed {xs : List Execution} {s s' : Session} (h : Life xs s) (hc : Changes s s') : Life xs s'

/-- A machine as it is between the executions, or when a task starts or has ended. -/
inductive State (xs : List Execution) (s : Session) : Machine → Prop
  | now : State xs s s.machine
  | before {x : Execution} (hx : x ∈ xs) : State xs s x.session.machine
  | started {x : Execution} {t : Task} {m : Machine} (hx : x ∈ xs) (hv : x.Visited t m) :
      State xs s m
  | ended {x : Execution} {t : Task} {m : Machine} (hx : x ∈ xs) (hv : x.Visited t m) :
      State xs s (t.left m)

/-- In that state the scope is held: it is the global one, or that of a task that is not done yet
or has just ended, or a link, or a function or a class leads to it that is bound in a scope, is
kept in a field, or is the value of the task that has ended. -/
inductive Held (xs : List Execution) (s : Session) : Machine → Nat → Prop
  | global {m : Machine} (hm : State xs s m) : Held xs s m Machine.global
  | started {x : Execution} {t t' : Task} {m m' : Machine} (hx : x ∈ xs) (hv : x.Visited t m)
      (hv' : Visits t m t' m') : Held xs s m' t.scope
  | ended {x : Execution} {t t' : Task} {m m' : Machine} (hx : x ∈ xs) (hv : x.Visited t m)
      (hv' : Visits t m t' m') : Held xs s (t'.left m') t.scope
  | referred {m : Machine} {y : Thing} {i : Nat} (hm : State xs s m) (hy : m.Refers y (.scope i)) :
      Held xs s m i
  | value {x : Execution} {t : Task} {m : Machine} {v : Value} {i : Nat} (hx : x ∈ xs)
      (hv : x.Visited t m) (ht : t.value? m = some v) (hi : v.Refers (.scope i)) :
      Held xs s (t.left m) i

section Executions

variable {s s' : Session} {x : Execution}

theorem Executes.left (h : Executes s x s') : x.left = s'.machine := by
  cases h with
  | @run _ bound source program report ha hr =>
    rw [run_of_accepted bound ha] at hr
    obtain ⟨⟨y, s₁⟩, hp, he⟩ := Option.map_eq_some_iff.1 hr
    cases he
    exact left_of_perform hp
  | interpret hr =>
    obtain ⟨⟨y, s₁⟩, hp, he⟩ := Option.bind_eq_some_iff.1 hr
    cases he
    exact left_of_perform hp
  | @evaluate _ bound e result hr =>
    have hleft : Run.left (Evaluation.evaluate bound Machine.global e s.machine) = s'.machine :=
      left_of_perform hr
    exact (Run.left_bind_pure ..).trans ((Run.left_bind_pure ..).trans hleft)
  | @execute _ bound stmt result hr =>
    have hleft : Run.left (Evaluation.execute bound Machine.global stmt s.machine) = s'.machine :=
      left_of_perform hr
    exact (Run.left_bind_pure ..).trans hleft

/-- Before its first statement an execution changes only what is known of references. -/
theorem Executes.closed (h : Executes s x s') (hs : s.machine.Closed) :
    x.session.machine.Closed := by
  cases h <;> exact hs.same rfl rfl rfl

theorem Executes.linked (h : Executes s x s') : s.machine.Linked x.session.machine := by
  cases h <;> exact .same rfl rfl

theorem Changes.closed (h : Changes s s') (hs : s.machine.Closed) : s'.machine.Closed := by
  cases h with
  | @rejected _ bound source report ha hr =>
    rw [run_of_rejected bound ha] at hr
    cases hr
    exact hs.same rfl rfl rfl
  | defineGiven name arity hc => exact hs.defineGiven name arity hc
  | _ => exact hs.same rfl rfl rfl

theorem Changes.linked (h : Changes s s') : s.machine.Linked s'.machine := by
  cases h with
  | @rejected _ bound source report ha hr =>
    rw [run_of_rejected bound ha] at hr
    cases hr
    exact .same rfl rfl
  | defineGiven => exact (Machine.Linked.define ..).trans (.same rfl rfl)
  | _ => exact .same rfl rfl

end Executions

namespace Execution

variable {x : Execution} {t : Task} {m : Machine}

theorem Visited.visits {t' : Task} {m' : Machine} (hv : x.Visited t m) (hv' : Visits t m t' m') :
    x.Visited t' m' := by
  obtain ⟨before, stmt, after, m₀, hp, hb, hv⟩ := hv
  exact ⟨before, stmt, after, m₀, hp, hb, hv.trans hv'⟩

/-- Whatever an execution comes to, its scope is there. -/
theorem closed (hx : x.session.machine.Closed) (hv : x.Visited t m) :
    m.Closed ∧ t.scope < m.scopes.next := by
  obtain ⟨before, stmt, after, m₀, -, hb, hv⟩ := hv
  obtain ⟨-, hm₀, -⟩ := (Machine.Closed.holding.program x.bound hx before).of_ok hb
  obtain ⟨-, hm, ht⟩ := Machine.Closed.holding.visited hv hm₀ hm₀.tree.global
  exact ⟨hm, ht⟩

theorem linked (hv : x.Visited t m) :
    x.session.machine.Linked m ∧ (t.left m).Linked x.left := by
  obtain ⟨before, stmt, after, m₀, hp, hb, hv⟩ := hv
  unfold left
  rw [hp]
  exact Machine.Linked.stepwise.visitedIn after hb hv

theorem closed_left (hx : x.session.machine.Closed) : x.left.Closed :=
  (Machine.Closed.holding.program x.bound hx x.program).left.2

theorem linked_left (x : Execution) : x.session.machine.Linked x.left :=
  (Machine.Linked.stepwise.program x.bound x.program).along x.session.machine

/-- The value of a task leads only to what is there. -/
theorem value_refers (hm : m.Closed) (ht : t.scope < m.scopes.next) {v : Value}
    (hv : t.value? m = some v) {y : Thing} (hy : v.Refers y) : (t.left m).Has y := by
  have hn := Machine.Closed.holding.bounded
  cases t with
  | evaluate n scope e => exact ((hn n).evaluate hm ht e).value hv y hy
  | execute n scope s =>
    obtain ⟨flow, hr, hflow⟩ := Option.bind_eq_some_iff.1 hv
    exact (((hn n).execute hm ht s).value hr).value hflow y hy
  | loop n scope e s =>
    obtain ⟨flow, hr, hflow⟩ := Option.bind_eq_some_iff.1 hv
    exact (((hn n).loop hm ht e s).value hr).value hflow y hy

end Execution

namespace Life

variable {xs : List Execution} {s : Session}

theorem closed (h : Life xs s) : s.machine.Closed ∧ ∀ x ∈ xs, x.session.machine.Closed := by
  induction h with
  | start now => exact ⟨.start now, nofun⟩
  | executed _ he ih =>
    have hx := he.closed ih.1
    exact ⟨he.left ▸ Execution.closed_left hx, List.forall_mem_cons.2 ⟨hx, ih.2⟩⟩
  | changed _ hc ih => exact ⟨hc.closed ih.1, ih.2⟩

/-- The scopes that an execution left are those of the session, as far as they go. -/
theorem linked (h : Life xs s) : ∀ x ∈ xs, x.left.Linked s.machine := by
  induction h with
  | start now => exact nofun
  | @executed xs x s s' _ he ih =>
    refine List.forall_mem_cons.2 ⟨he.left ▸ .refl _, fun y hy => ?_⟩
    exact ((ih y hy).trans he.linked).trans (he.left ▸ x.linked_left)
  | changed _ hc ih => exact fun x hx => (ih x hx).trans hc.linked

variable {bound : Nat} {program : List Stmt} {x : Execution} {t : Task} {m m' : Machine} {i : Nat}

/-- The last execution may be under way still. -/
theorem execution (h : Life xs s) (hx : x ∈ ⟨s, bound, program⟩ :: xs) :
    x.session.machine.Closed ∧ x.left.Linked (Execution.left ⟨s, bound, program⟩) := by
  rcases List.mem_cons.1 hx with rfl | hx
  · exact ⟨h.closed.1, .refl _⟩
  · exact ⟨h.closed.2 x hx, (h.linked x hx).trans (Execution.linked_left ⟨s, bound, program⟩)⟩

theorem state (h : Life xs s) (hm : State (⟨s, bound, program⟩ :: xs) s m) :
    m.Closed ∧ m.Linked (Execution.left ⟨s, bound, program⟩) := by
  cases hm with
  | now => exact ⟨h.closed.1, Execution.linked_left ⟨s, bound, program⟩⟩
  | before hx =>
    obtain ⟨hclosed, hlast⟩ := h.execution hx
    exact ⟨hclosed, (Execution.linked_left _).trans hlast⟩
  | started hx hv =>
    obtain ⟨hclosed, hlast⟩ := h.execution hx
    obtain ⟨hm, ht⟩ := Execution.closed hclosed hv
    exact ⟨hm, ((Machine.Linked.stepwise.task ..).trans (Execution.linked hv).2).trans hlast⟩
  | ended hx hv =>
    obtain ⟨hclosed, hlast⟩ := h.execution hx
    obtain ⟨hm, ht⟩ := Execution.closed hclosed hv
    exact ⟨(Machine.Closed.holding.task hm _ ht).2, (Execution.linked hv).2.trans hlast⟩

/-- What is held is there. -/
theorem held (h : Life xs s) (hi : Held (⟨s, bound, program⟩ :: xs) s m i) :
    State (⟨s, bound, program⟩ :: xs) s m ∧ i < m.scopes.next := by
  cases hi with
  | global hm => exact ⟨hm, (h.state hm).1.tree.global⟩
  | started hx hv hv' =>
    obtain ⟨-, ht⟩ := Execution.closed (h.execution hx).1 hv
    have hl := (Machine.Linked.stepwise.visited hv').1
    exact ⟨.started hx (hv.visits hv'), Nat.lt_of_lt_of_le ht hl.next⟩
  | @ended x t t' m m' hx hv hv' =>
    obtain ⟨-, ht⟩ := Execution.closed (h.execution hx).1 hv
    have hl : m.Linked (t'.left m') :=
      (Machine.Linked.stepwise.visited hv').1.trans (Machine.Linked.stepwise.task t' m')
    exact ⟨.ended hx (hv.visits hv'), Nat.lt_of_lt_of_le ht hl.next⟩
  | referred hm hy => exact ⟨hm, (h.state hm).1.refers hy⟩
  | value hx hv ht hi =>
    obtain ⟨hm, hscope⟩ := Execution.closed (h.execution hx).1 hv
    exact ⟨.ended hx hv, Execution.value_refers hm hscope ht hi⟩

/-- A text that is run is read and scoped before its program is executed. -/
theorem prepared (h : Life xs s) (source : String) (program : List Stmt) :
    Life xs (s.prepared source program) := by
  have hread := h.changed (.parse (Front.program s.nextId source).nextId)
  exact hread.changed (.resolve program)

end Life

/-- What a text comes to is what its program comes to. -/
theorem Visited.execution {s : Session} {bound : Nat} {source : String} {t : Task} {m : Machine}
    (hv : s.Visited bound source t m) : ∃ program, s.accepted? source = some program ∧
      Execution.Visited ⟨s.prepared source program, bound, program⟩ t m := by
  obtain ⟨before, stmt, after, m₀, ha, hb, hv⟩ := hv
  exact ⟨_, ha, before, stmt, after, m₀, rfl, hb, hv⟩

/-- Where texts are run one after another, that is a life. -/
theorem Course.life {us : List Turn} {s : Session} (h : Course us s) : ∃ xs, Life xs s := by
  induction h with
  | start now => exact ⟨[], .start now⟩
  | @run us s s' bound source report _ hr ih =>
    obtain ⟨xs, hlife⟩ := ih
    cases ha : s.accepted? source with
    | none => exact ⟨xs, hlife.changed (.rejected ha hr)⟩
    | some program => exact ⟨_, hlife.executed (.run ha hr)⟩
  | takeLines _ ih => exact ih.imp fun _ hlife => hlife.changed .takeLines
  | setRoom _ room ih => exact ih.imp fun _ hlife => hlife.changed (.setRoom room)
  | setFlushFails _ fails ih => exact ih.imp fun _ hlife => hlife.changed (.setFlushFails fails)
  | defineGiven _ name arity hc ih =>
    exact ih.imp fun _ hlife => hlife.changed (.defineGiven name arity hc)

/-- In all of its life a session has one tree of scopes, with the global scope as its root: the
scopes of every state are a tree, whatever holds a scope there has a way to the root, and scopes
that are there in two states have the same links in both. -/
theorem scopes_rooted {xs : List Execution} {s : Session} (h : Life xs s) (bound : Nat)
    (program : List Stmt) :
    (∀ m, State (⟨s, bound, program⟩ :: xs) s m → m.scopes.Tree) ∧
    (∀ m i, Held (⟨s, bound, program⟩ :: xs) s m i → ∃ path, m.scopes.Rooted i path) ∧
    ∀ m m' i, State (⟨s, bound, program⟩ :: xs) s m → State (⟨s, bound, program⟩ :: xs) s m' →
      i < m.scopes.next → i < m'.scopes.next → m'.scopes.link? i = m.scopes.link? i := by
  refine ⟨fun m hm => (h.state hm).1.tree, fun m i hi => ?_, fun m m' i hm hm' hi hi' => ?_⟩
  · obtain ⟨hm, hlt⟩ := h.held hi
    exact (h.state hm).1.tree.rooted hlt
  · exact ((h.state hm').2.link hi').symm.trans ((h.state hm).2.link hi)

/-- Where a function that a method declares evaluates `this`, the scope at hand is three links
inside the global one, and the scope of the method is enclosed as it was. -/
theorem scopes_rooted_inner :
    (∃ path, innerMachine.scopes.Rooted 3 path ∧ path[3]? = some Machine.global ∧
      path[4]? = none) ∧ innerMachine.scopes.link? 2 = methodMachine.scopes.link? 2 := by
  have hlife : Life [] ((start 0).prepared thisText thisProgram) := (Life.start 0).prepared _ _
  have hexecution {t : Task} {m : Machine} (hv : thisTurn.Visited t m) :
      Execution.Visited ⟨(start 0).prepared thisText thisProgram, 9, thisProgram⟩ t m := by
    obtain ⟨program, ha, hv⟩ := Visited.execution hv
    obtain rfl : program = thisProgram := Option.some.inj (ha.symm.trans accepted_this)
    exact hv
  obtain ⟨⟨u, hu, hv⟩, -⟩ := activates_this.under (.start 0)
  obtain rfl := List.mem_singleton.1 hu
  have hinner := hexecution hv
  have hmethod := hexecution
    (visited_thisCall.spawned (spawns_body [] [.expression innerCall] rfl rfl))
  obtain ⟨-, hrooted, hlinks⟩ := scopes_rooted hlife 9 thisProgram
  obtain ⟨path, hpath⟩ := hrooted innerMachine 3 (.started List.mem_cons_self hinner .self)
  have hroot : innerMachine.scopes.ancestor? 3 3 = some Machine.global := by cbv
  have hnone : innerMachine.scopes.ancestor? 4 3 = none := by cbv
  have hnext : methodMachine.scopes.next = 3 := by cbv
  have hnext' : innerMachine.scopes.next = 4 := by cbv
  refine ⟨⟨path, hpath, hpath.ancestor 3 ▸ hroot, hpath.ancestor 4 ▸ hnone⟩, ?_⟩
  exact hlinks methodMachine innerMachine 2 (.started List.mem_cons_self hmethod)
    (.started List.mem_cons_self hinner) (by omega) (by omega)

end Session

end Lox
