import Mathlib
import Lox.Proofs.Evaluation.Located
import Lox.Session

/-!
# Back in the global scope

A session whose machine keeps the scope at hand starts in the global scope. Main statement:
whatever is evaluated or executed in whatever state, and however it ends, the scope at hand
is again the one from before, with the same scopes around it, and no scope has lost a name;
and so each text is run from the global scope, whatever came of the texts before.
-/

set_option autoImplicit false

namespace Lox

/-- A session with the scope at hand. -/
structure LocatedSession extends Session where
  current : Nat

namespace LocatedSession

def start (now : Nat) : LocatedSession := ⟨.start now, Machine.global⟩

def perform {α : Type} (s : LocatedSession) (p : Moves α) :
    Option (Except Diagnostic α × LocatedSession) :=
  match p ⟨s.machine, s.current⟩ with
  | .ok a l => some (.ok a, { s with machine := l.machine, current := l.current })
  | .error (.fault d) l => some (.error d, { s with machine := l.machine, current := l.current })
  | .error .exhausted _ => none

def interpret (bound : Nat) (s : LocatedSession) (program : List Stmt) :
    Option (Except Diagnostic Unit × LocatedSession) := do
  let (result, s) ← s.perform (Moves.program bound program)
  return (if s.machine.sink.flushFails then .error (.sink .flush) else result, s)

/-- Run a source text in the scope at hand. -/
def run (bound : Nat) (s : LocatedSession) (source : String) : Option (Report × LocatedSession) :=
  let front := Front.program s.nextId source
  let s := { s with nextId := front.nextId }
  match front.tree? with
  | none => some (⟨.staticError, front.faults⟩, s)
  | some program =>
    let (faults, t) := s.toSession.resolve program
    let s : LocatedSession := { s with toSession := t }
    if faults.isEmpty then do
      let (result, s) ← s.interpret bound program
      match result with
      | .ok () => return (⟨.ok, []⟩, s)
      | .error d => return (⟨.runtimeError, [d]⟩, s)
    else
      some (⟨.staticError, faults⟩, s)

/-- A session in which some texts were run. -/
inductive Reached : LocatedSession → Prop
  | start (now : Nat) : Reached (.start now)
  | run {s s' : LocatedSession} {bound : Nat} {source : String} {report : Report} (h : Reached s)
      (hr : s.run bound source = some (report, s')) : Reached s'

theorem interpret_eq (bound : Nat) (s : Session) (program : List Stmt) :
    interpret bound ⟨s, Machine.global⟩ program =
      (s.interpret bound program).map fun r => (r.1, ⟨r.2, Machine.global⟩) := by
  unfold interpret Session.interpret perform Session.perform
  simp only [Moves.program_eq]
  cases Evaluation.program bound program s.machine with
  | ok a m => rfl
  | error stop m => cases stop <;> rfl

/-- From the global scope a text is run as if that were no part of the state, and leaves it so. -/
theorem run_global (bound : Nat) (s : Session) (source : String) :
    run bound ⟨s, Machine.global⟩ source =
      (s.run bound source).map fun r => (r.1, ⟨r.2, Machine.global⟩) := by
  unfold run Session.run
  simp only
  cases (Front.program s.nextId source).tree? with
  | none => rfl
  | some program =>
    simp only
    split
    · simp only [interpret_eq]
      cases Session.interpret bound _ program with
      | none => rfl
      | some r =>
        obtain ⟨x, t⟩ := r
        cases x <;> rfl
    · rfl

theorem Reached.current {s : LocatedSession} (h : Reached s) : s.current = Machine.global := by
  induction h with
  | start now => rfl
  | @run s s' bound source report _ hr ih =>
    obtain ⟨s, i⟩ := s
    obtain rfl : i = Machine.global := ih
    rw [run_global] at hr
    obtain ⟨r, -, hr⟩ := Option.map_eq_some_iff.1 hr
    cases hr
    rfl

end LocatedSession

namespace Moves

/-- A computation that started in scope `i` is back there. It ends as the computation does that
is told the scope at hand, the scopes around that scope are the same, and all scopes that
were there have kept their links and a value for each of their names. -/
structure Back {α : Type} (m : Machine) (i : Nat) (r : EStateM.Result Stop Located α)
    (r' : EStateM.Result Stop Machine α) : Prop where
  same : r = located i r'
  current : (left r).current = i
  around : i < m.scopes.next → ∀ d,
    (left r).machine.scopes.ancestor? d (left r).current = m.scopes.ancestor? d i
  retained : m.Retained (left r).machine

theorem Restores.back {α : Type} {p : Moves α} {q : Nat → Run α} (h : Restores p q) (m : Machine)
    (i : Nat) : Back m i (p ⟨m, i⟩) (q i m) := by
  obtain ⟨hp, hm⟩ := h m i
  rw [hp]
  cases hr : q i m with
  | ok a m' =>
    rw [hr] at hm
    exact ⟨rfl, rfl, fun hi => hm.ancestor? hi, hm⟩
  | error stop m' =>
    rw [hr] at hm
    exact ⟨rfl, rfl, fun hi => hm.ancestor? hi, hm⟩

/-- In every state all computations come back to the scope at hand. So every text is run from
the global scope and ends there, whatever its status. -/
theorem back_in_scope :
    (∀ (n : Nat) (m : Machine) (i : Nat),
      (∀ e, Back m i (evaluate n e ⟨m, i⟩) (Evaluation.evaluate n i e m)) ∧
      ∀ s, Back m i (execute n s ⟨m, i⟩) (Evaluation.execute n i s m)) ∧
    ∀ s, LocatedSession.Reached s → s.current = Machine.global ∧
      ∀ bound source, s.run bound source =
        (s.toSession.run bound source).map fun r => (r.1, ⟨r.2, Machine.global⟩) := by
  refine ⟨fun n m i => ⟨fun e => ?_, fun s => ?_⟩, fun s hs => ⟨hs.current, fun bound source => ?_⟩⟩
  · exact ((restoring n).evaluate e).back m i
  · exact ((restoring n).execute s).back m i
  · obtain ⟨s, i⟩ := s
    obtain rfl : i = Machine.global := hs.current
    exact LocatedSession.run_global bound s source

/-- A fault in a block within a block of a function that is called in a block. -/
def nestedFault : String := "fun f() \x7b \x7b var a; \x7b a.b; \x7d \x7d \x7d \x7b f(); \x7d"

/-- The session behind the fault. -/
def faultedSession : LocatedSession :=
  (((LocatedSession.start 0).run 9 nestedFault).map Prod.snd).getD (.start 0)

theorem back_in_scope_nestedFault :
    (LocatedSession.start 0).run 9 nestedFault =
      some (⟨.runtimeError, [.runtime 1 .noProperties]⟩, faultedSession) ∧
    faultedSession.current = Machine.global := by
  have hr : (LocatedSession.start 0).run 9 nestedFault =
      some (⟨.runtimeError, [.runtime 1 .noProperties]⟩, faultedSession) := by cbv
  exact ⟨hr, (back_in_scope.2 faultedSession (.run (.start 0) hr)).1⟩

end Moves

end Lox
