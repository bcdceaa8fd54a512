import Lox.Proofs.Placement.Evaluation
import Lox.Proofs.Session.Resolution

/-!
# The course of a session

A course keeps the turns of a session: which text was run, in which session, and within which
bound. Main statement: after every course the machine is sane, and whatever a run comes to is
ready there, so that the scopes at hand follow what encloses the code in a program that was
accepted in one of the turns.
-/

set_option autoImplicit false

namespace Lox.Session

open Scoping Simulation Evaluation Placement

/-- A text that was run, and the session before. -/
structure Turn where
  session : Session
  bound : Nat
  source : String

namespace Turn

def program? (u : Turn) : Option (List Stmt) := u.session.accepted? u.source

/-- The run comes to task `t`, on machine `m`. -/
def Visited (u : Turn) (t : Task) (m : Machine) : Prop := u.session.Visited u.bound u.source t m

end Turn

/-- The programs that were run, the last one first. -/
def programs (us : List Turn) : List (List Stmt) := us.flatMap (·.program?.toList)

/-- `Course us s`: session `s` comes after the turns `us`, the last one first. -/
inductive Course : List Turn → Session → Prop
  | start (now : Nat) : Course [] (.start now)
  | run {us : List Turn} {s s' : Session} {bound : Nat} {source : String} {report : Report}
      (h : Course us s) (hr : s.run bound source = some (report, s')) :
      Course (⟨s, bound, source⟩ :: us) s'
  | takeLines {us : List Turn} {s : Session} (h : Course us s) : Course us s.takeLines.2
  | setRoom {us : List Turn} {s : Session} (h : Course us s) (room : Option Nat) :
      Course us (s.setRoom room)
  | setFlushFails {us : List Turn} {s : Session} (h : Course us s) (fails : Bool) :
      Course us (s.setFlushFails fails)
  | defineGiven {us : List Turn} {s : Session} (h : Course us s) (name : String) (arity : Nat)
      {code : Host} (hc : Sealed code) : Course us (s.defineGiven name arity code)

theorem Course.history {us : List Turn} {s : Session} (h : Course us s) : History (programs us) s := by
  induction h with
  | start now => exact .start now
  | run _ hr ih => exact .run ih hr
  | takeLines _ ih => exact .takeLines ih
  | setRoom _ room ih => exact .setRoom ih room
  | setFlushFails _ fails ih => exact .setFlushFails ih fails
  | defineGiven _ name arity hc ih => exact .defineGiven ih name arity hc

theorem Visited.spawned {s : Session} {bound : Nat} {source : String} {t t' : Task} {m m' : Machine}
    (h : s.Visited bound source t m) (hsp : Spawns t m t' m') : s.Visited bound source t' m' := by
  obtain ⟨before, stmt, after, m₀, ha, hb, hv⟩ := h
  exact ⟨before, stmt, after, m₀, ha, hb, hv.snoc hsp⟩

/-- What may run in some turns, and what is reached in them. -/
def setting (us : List Turn) : Setting where
  programs := programs us
  formed program hp := by
    obtain ⟨u, -, hu⟩ := List.mem_flatMap.1 hp
    exact formed_of_accepted (Option.mem_toList.1 hu)
  faultless program hp := by
    obtain ⟨u, -, hu⟩ := List.mem_flatMap.1 hp
    exact faults_of_accepted (Option.mem_toList.1 hu)
  reached t m := ∃ u ∈ us, u.Visited t m
  spawned := by
    rintro t t' m m' ⟨u, hu, hv⟩ hsp
    exact ⟨u, hu, Visited.spawned hv hsp⟩

theorem within_cons (u : Turn) (us : List Turn) : (setting us).Within (setting (u :: us)) where
  programs _ hp := List.mem_append_right _ hp
  reached := by
    rintro t m ⟨u', hu', hv⟩
    exact ⟨u', List.mem_cons_of_mem _ hu', hv⟩

/-- A machine on which nothing was run. -/
theorem sane_start (S : Setting) (now : Nat) : Sane S (.start now) where
  global := Nat.zero_lt_one
  names i name v hv := by
    rcases Scopes.own?_define_cases hv with rfl | hv
    · exact .plain rfl
    · rw [Scopes.own?_push] at hv
      cases hv
  fields id name v hv := by cases hv
  hosts code hc := absurd hc (Array.not_mem_empty code)

theorem sane_defineGiven {S : Setting} {m : Machine} (hs : Sane S m) (name : String) (arity : Nat)
    {code : Host} (hc : Sealed code) : Sane S (m.defineGiven name arity code) := by
  have hplain : Valid S m (.host m.serial ⟨name, arity, .given m.hosts.size⟩) := .plain rfl
  have hdefined : Sane S (m.defineHost ⟨name, arity, .given m.hosts.size⟩) :=
    (hs.define (.inr rfl) hplain).same rfl rfl rfl
  exact hdefined.host hc

section Turns

variable {us : List Turn} {s : Session} {bound : Nat} {source : String} {t : Task} {m : Machine}

/-- A statement of a program that is run. -/
theorem ready_statement {before after : List Stmt} {stmt : Stmt}
    (ha : s.accepted? source = some (before ++ stmt :: after))
    (hb : Evaluation.program bound before (s.prepared source (before ++ stmt :: after)).machine =
      .ok () m) (hs : Sane (setting (⟨s, bound, source⟩ :: us)) m) :
    Ready (setting (⟨s, bound, source⟩ :: us)) (.execute bound Machine.global stmt) m := by
  have hmem : stmt ∈ before ++ stmt :: after := List.mem_append_right _ List.mem_cons_self
  refine ⟨hs, ⟨_, List.mem_cons_self, before, stmt, after, m, ha, hb, .self⟩, ?_⟩
  refine ⟨before ++ stmt :: after, List.mem_append_left _ ?_, [], ⟨stmt, hmem, .here⟩, .global⟩
  exact Option.mem_toList.2 ha

theorem sane_prepared {S : Setting} {program : List Stmt} (hs : Sane S s.machine) :
    Sane S (s.prepared source program).machine := hs.same rfl rfl rfl

/-- The course of a program, or of a part of it. -/
theorem orderly_program {before after : List Stmt}
    (hs : Sane (setting (⟨s, bound, source⟩ :: us)) s.machine)
    (ha : s.accepted? source = some (before ++ after)) :
    Orderly (setting (⟨s, bound, source⟩ :: us)) (s.prepared source (before ++ after)).machine
      (fun _ _ => True)
      (startedProgram bound before (s.prepared source (before ++ after)).machine)
      (Evaluation.program bound before (s.prepared source (before ++ after)).machine) := by
  apply Orderly.program (sane_prepared hs)
  rintro before' stmt after' m' rfl hb - hs'
  rw [List.append_assoc] at ha hb
  exact ready_statement ha hb hs'

/-- What is performed leaves its machine to the session. -/
theorem left_of_perform {α : Type} {s' : Session} {p : Run α} {x : Except Diagnostic α}
    (h : s.perform p = some (x, s')) : Run.left (p s.machine) = s'.machine := by
  unfold perform at h
  split at h
  · rename_i hr
    cases h
    rw [hr]
    rfl
  · rename_i hr
    cases h
    rw [hr]
    rfl
  · cases h

theorem sane_run {s' : Session} {report : Report} (hs : Sane (setting us) s.machine)
    (hr : s.run bound source = some (report, s')) :
    Sane (setting (⟨s, bound, source⟩ :: us)) s'.machine := by
  have hs := hs.within (within_cons ⟨s, bound, source⟩ us)
  cases ha : s.accepted? source with
  | none =>
    rw [run_of_rejected bound ha] at hr
    cases hr
    exact hs.same rfl rfl rfl
  | some program =>
    rw [run_of_accepted bound ha] at hr
    obtain ⟨⟨x, s₁⟩, hp, he⟩ := Option.map_eq_some_iff.1 hr
    cases he
    rw [← List.append_nil program] at ha
    have hends := (orderly_program hs ha).ends
    rw [List.append_nil] at hends
    exact left_of_perform hp ▸ hends.sane_left

end Turns

theorem Course.sane {us : List Turn} {s : Session} (h : Course us s) :
    Sane (setting us) s.machine := by
  induction h with
  | start now => exact sane_start _ now
  | run _ hr ih => exact sane_run ih hr
  | takeLines _ ih => exact ih.same rfl rfl rfl
  | setRoom _ room ih => exact ih.same rfl rfl rfl
  | setFlushFails _ fails ih => exact ih.same rfl rfl rfl
  | defineGiven _ name arity hc ih => exact sane_defineGiven ih name arity hc

/-- Whatever a run comes to is ready. -/
theorem Course.ready {us : List Turn} {s : Session} (h : Course us s) {bound : Nat} {source : String}
    {t : Task} {m : Machine} (hv : s.Visited bound source t m) :
    Ready (setting (⟨s, bound, source⟩ :: us)) t m := by
  obtain ⟨before, stmt, after, m₀, ha, hb, hv⟩ := hv
  have hs := h.sane.within (within_cons ⟨s, bound, source⟩ us)
  obtain ⟨-, hs₀, -⟩ := (orderly_program hs ha).ends.of_ok hb
  exact (ready_statement ha hb hs₀).visited hv

/-- The machine knows all that scoping recorded of the programs. -/
theorem Course.known {us : List Turn} {s : Session} (h : Course us s) {bound : Nat} {source : String}
    {t : Task} {m : Machine} (hv : s.Visited bound source t m) {program : List Stmt}
    (hp : program ∈ programs (⟨s, bound, source⟩ :: us)) {r : Reference} {d : Option Nat}
    (hr : (r, d) ∈ lookups (Scoping.program program)) : m.depths.get? r.id = d := by
  have hknown : recorded ((s.accepted? source).toList ++ programs us) r d := ⟨program, hp, hr⟩
  cases h.history.typed hv with
  | expr hm => exact hm.known r d hknown
  | stmt hm => exact hm.known r d hknown
  | loop hm => exact hm.known r d hknown

end Lox.Session
