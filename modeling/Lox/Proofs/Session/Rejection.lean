import Mathlib
import Lox.Proofs.Session.Front

/-!
# Rejected texts leave no trace

A text that is rejected may have taken identities and noted depths before its fault was
found. From then on all references have other identities than they would have without it.
Main statement: nothing that is run afterwards comes out differently.
-/

set_option autoImplicit false

namespace Lox

open Scoping Simulation

namespace Scoping

/-- Identities from `n` on are `k` later on the other side. -/
def Link.later (known : Known) (n k : Nat) : Link where
  known := known
  id i j := i < n ∧ j = i ∨ n ≤ i ∧ j = i + k
  line l l' := l' = l
  renames r := r = .keep
  keep := rfl

end Scoping

namespace Session

/-- The other session has taken `k` identities more, all of them from `n` on, and the
machines match up to that. -/
structure Later (n k : Nat) (ps : List (List Stmt)) (s s' : Session) : Prop where
  matched : ∃ w, Match (.later (recorded ps) n k) w s.machine s'.machine
  nextId : s'.nextId = s.nextId + k
  le_nextId : n ≤ s.nextId

variable {n k : Nat} {ps : List (List Stmt)} {s s' : Session} {source : String}

/-- A session is behind the one in which a text was rejected. -/
theorem later_of_rejected (hs : History ps s) (ha : s.accepted? source = none) {bound : Nat}
    {report : Report} (hr : s.run bound source = some (report, s')) :
    ∃ k, Later s.nextId k ps s s' := by
  have hc := hs.coherent
  obtain ⟨w, hm⟩ := hc.matched
  obtain ⟨k, hk⟩ := Nat.le.dest (Front.nextId_program s.nextId source)
  rw [run_of_rejected bound ha] at hr
  cases hr
  refine ⟨k, ⟨w, hm.learn ?_ ?_ hm.known⟩, hk.symm, Nat.le_refl _⟩
  · exact {
      known := fun _ _ h => h
      id := fun r d j hk hj => .inl ⟨hc.old r d hk, hj⟩
      line := fun _ _ h => h
      renames := fun _ h => h }
  · rintro i j (⟨hi, rfl⟩ | ⟨hi, rfl⟩)
    · exact get?_note_found s source (.inl hi)
    · refine (get?_note_found s source (.inr (by omega))).trans ?_
      rw [hc.unused i hi]
      exact hc.unused _ (by omega)

namespace Later

variable (h : Later n k ps s s')

include h

/-- What scoping notes of a text is the same, at later identities. -/
theorem noted (source : String) (i j : Nat) (hi : (Link.later (recorded ps) n k).id i j) :
    (s'.machine.note (lookups (Front.program s'.nextId source).found)).depths.get? j =
      (s.machine.note (lookups (Front.program s.nextId source).found)).depths.get? i := by
  obtain ⟨w, hm⟩ := h.matched
  have hdepths := hm.depths i j hi
  have hle := h.le_nextId
  have hnext := h.nextId
  rcases hi with ⟨hi, rfl⟩ | ⟨hi, rfl⟩
  · rw [get?_note_found s' source (.inl (by omega)), get?_note_found s source (.inl (by omega))]
    exact hdepths
  · rw [hnext, Front.program_add, Front.found_later, lookups_shift]
    exact Depths.get?_record_shift ⟨k, 0⟩ _ hdepths

/-- A text that is rejected in both sessions is rejected with the same faults. -/
theorem run_rejected (hs : History ps s) (ha : s.accepted? source = none) (bound : Nat) :
    Option.Rel (fun r r' => observed r' = observed r ∧ Later n k ps r.2 r'.2)
      (s.run bound source) (s'.run bound source) := by
  have ha' : s'.accepted? source = none := by
    rw [accepted?_add h.nextId, ha]
    rfl
  have hrun := run_of_rejected bound ha
  have hc := (hs.run hrun).coherent
  rw [ha] at hc
  rw [hrun, run_of_rejected bound ha']
  obtain ⟨w₁, hm₁⟩ := hc.matched
  obtain ⟨w, hm⟩ := h.matched
  refine .some ⟨?_, ⟨w, hm.learn (.refl _) (h.noted source) hm₁.known⟩, ?_, ?_⟩
  · rw [h.nextId, Front.program_add, Front.staticFaults_later]
    exact Prod.ext rfl hm.sink
  · show (Front.program s'.nextId source).nextId = _
    rw [h.nextId, Front.program_add]
    rfl
  · exact Nat.le_trans h.le_nextId (Front.nextId_program s.nextId source)

/-- A program that is accepted in both sessions runs in step in them. -/
theorem run_accepted (hs : History ps s) {program : List Stmt}
    (ha : s.accepted? source = some program) (bound : Nat) :
    Option.Rel (fun r r' => observed r' = observed r ∧ Later n k (program :: ps) r.2 r'.2)
      (s.run bound source) (s'.run bound source) := by
  have ha' : s'.accepted? source = some (Stmt.shiftAll ⟨k, 0⟩ program) := by
    rw [accepted?_add h.nextId, ha]
    rfl
  have hn := h.le_nextId
  have hle := Front.nextId_program s.nextId source
  let link := Link.later (recorded (program :: ps)) n k
  have hmatch : ∃ w, Match link w (s.prepared source program).machine
      (s'.prepared source (Stmt.shiftAll ⟨k, 0⟩ program)).machine := by
    obtain ⟨w, hm⟩ := h.matched
    obtain ⟨w₁, hm₁⟩ := hs.coherent.prepared ha
    have hnoted := h.noted source
    rw [found_of_accepted ha, found_of_accepted ha'] at hnoted
    refine ⟨w, hm.learn ?_ hnoted hm₁.known⟩
    exact {
      known := fun r d ⟨p, hp, hr⟩ => ⟨p, List.mem_cons_of_mem _ hp, hr⟩
      id := fun _ _ _ _ h => h
      line := fun _ _ h => h
      renames := fun _ h => h }
  have htwin : Twin link [] [] (.stmts program) (.stmts (Stmt.shiftAll ⟨k, 0⟩ program)) := by
    have hself : Twin (.exact (recorded [program])) [] [] (.stmts program) (.stmts program) :=
      twin_of_accepted ha fun p hp => ⟨program, List.mem_cons_self, hp⟩
    apply Twin.shift (σ := ⟨k, 0⟩) _ hself
    exact {
      known := fun r d ⟨p, hp, hr⟩ => ⟨p, List.mem_cons.2 (.inl (List.mem_singleton.1 hp)), hr⟩
      id := by
        rintro r d ⟨p, hp, hr⟩
        obtain rfl := List.mem_singleton.1 hp
        have hid := (ranged_of_accepted ha).mem r (List.mem_map_of_mem hr)
        exact .inr ⟨Nat.le_trans hn hid.1, rfl⟩
      line := fun _ => rfl }
  obtain ⟨w, hm⟩ := hmatch
  have hp := hm.performed htwin bound
  rw [run_of_accepted bound ha, run_of_accepted bound ha']
  generalize (s.prepared source program).perform _ = r,
    (s'.prepared source (Stmt.shiftAll ⟨k, 0⟩ program)).perform _ = r' at hp
  cases hp with
  | none => exact .none
  | some hp =>
    refine .some ⟨hp.observed fun _ _ hl => hl, hp.matched, ?_, ?_⟩
    · have hprepared : (Front.program s'.nextId source).nextId =
          (Front.program s.nextId source).nextId + k := by
        rw [h.nextId, Front.program_add]
        rfl
      exact hp.nextId'.trans (hprepared.trans (congrArg (· + k) hp.nextId.symm))
    · exact Nat.le_trans (Nat.le_trans hn hle) (Nat.le_of_eq hp.nextId.symm)

/-- The same text comes out the same, and the one session stays behind the other. -/
theorem run (hs : History ps s) (bound : Nat) (source : String) :
    Option.Rel (fun r r' => observed r' = observed r ∧
        Later n k ((s.accepted? source).toList ++ ps) r.2 r'.2)
      (s.run bound source) (s'.run bound source) := by
  cases ha : s.accepted? source with
  | none => exact h.run_rejected hs ha bound
  | some program => exact h.run_accepted hs ha bound

end Later

/-- What comes of one text after another, each run with its bound, up to the first run that
does not come to an end. -/
def outcomes : List (Nat × String) → Session → List (Report × Sink)
  | [], _ => []
  | (bound, source) :: later, s =>
    match s.run bound source with
    | none => []
    | some r => observed r :: outcomes later r.2

theorem Later.outcomes (h : Later n k ps s s') (hs : History ps s)
    (later : List (Nat × String)) : outcomes later s' = outcomes later s := by
  induction later generalizing ps s s' with
  | nil => rfl
  | cons next later ih =>
    obtain ⟨bound, source⟩ := next
    have hrun := h.run hs bound source
    unfold Session.outcomes
    generalize he : s.run bound source = r, s'.run bound source = r' at hrun
    cases hrun with
    | none => rfl
    | some hrun => exact congrArg₂ List.cons hrun.1 (ih hrun.2 (hs.run he))

/-- What is rejected is a text that is not accepted. -/
theorem accepted?_of_rejected {bound : Nat} {report : Report}
    (hr : s.run bound source = some (report, s')) (hrejected : report.status = .staticError) :
    s.accepted? source = none := by
  by_contra ha
  obtain ⟨program, ha⟩ := Option.ne_none_iff_exists'.1 ha
  rw [run_of_accepted bound ha] at hr
  obtain ⟨r, -, he⟩ := Option.map_eq_some_iff.1 hr
  obtain rfl := congrArg Prod.fst he
  unfold concluded reported at hrejected
  dsimp only at hrejected
  split at hrejected <;> cases hrejected

/-- A run that is rejected leaves no trace: nothing that is run afterwards, in any number of
texts, comes out differently. -/
theorem outcomes_of_rejected (hs : History ps s) {bound : Nat} {report : Report}
    (hr : s.run bound source = some (report, s')) (hrejected : report.status = .staticError)
    (later : List (Nat × String)) : outcomes later s' = outcomes later s := by
  obtain ⟨k, h⟩ := later_of_rejected hs (accepted?_of_rejected hr hrejected) hr
  exact h.outcomes hs later

/-- The depth of `a` is noted before the fault is found. -/
def rejectedText : String := "\x7b var a; print a; return; \x7d"

theorem accepted?_rejectedText : (start 0).accepted? rejectedText = none := by
  cbv

theorem outcomes_of_rejected_noted : ∃ report s', (start 0).run 0 rejectedText = some (report, s') ∧
    report.status = .staticError ∧ s'.nextId = 1 ∧ s'.machine.depths.get? 0 = some 0 ∧
    ∀ later, outcomes later s' = outcomes later (start 0) := by
  have hrun := run_of_rejected 0 accepted?_rejectedText
  refine ⟨_, _, hrun, rfl, ?_, ?_, outcomes_of_rejected (.start 0) hrun rfl⟩
  · show (Front.program 0 rejectedText).nextId = 1
    cbv
  · have hfound : lookups (Front.program 0 rejectedText).found = [(⟨0, .ofName "a" 1⟩, some 0)] := by
      cbv
    show ((start 0).machine.note (lookups (Front.program 0 rejectedText).found)).depths.get? 0 = _
    rw [hfound]
    rfl

end Session

end Lox
