import Mathlib
import Lox.Proofs.Scoping.Balance
import Lox.Proofs.Session.Front
import Lox.Proofs.Source.Joining

/-!
# Joining two runs

Two accepted texts are run as one, the second from a new line on. Main statement: the whole
is accepted too and does what the one run and then the other do, as far as the first comes to
its end; what is left are values whose code differs in lines only.
-/

set_option autoImplicit false

namespace Lox

open Scoping Simulation

namespace Scoping

/-- Lines are the same, or on the other side `k` later. -/
def Link.behind (known : Known) (k : Nat) : Link where
  known := known
  id i j := j = i
  line l l' := l' = l ∨ l' = l + k
  renames r := r = .keep
  keep := rfl

/-- Below `n` identities are the same, and so are all lines. -/
def Link.below (known : Known) (n : Nat) : Link where
  known := known
  id i j := i < n ∧ j = i
  line l l' := l' = l
  renames r := r = .keep
  keep := rfl

end Scoping

theorem Evaluation.program_append (n : Nat) (ss us : List Stmt) :
    Evaluation.program n (ss ++ us) = (do
      Evaluation.program n ss
      Evaluation.program n us) := by
  induction ss with
  | nil => simp [Evaluation.program]
  | cons s ss ih => simp only [List.cons_append, Evaluation.program, ih, bind_assoc]

namespace Session

/-- Go on with a session if nothing stopped it. -/
def andThen (r : Except Diagnostic Unit × Session)
    (f : Session → Option (Except Diagnostic Unit × Session)) :
    Option (Except Diagnostic Unit × Session) :=
  match r with
  | (.ok (), s) => f s
  | (.error d, s) => some (.error d, s)

theorem perform_append (s : Session) (bound : Nat) (ss us : List Stmt) :
    s.perform (Evaluation.program bound (ss ++ us)) =
      (s.perform (Evaluation.program bound ss)).bind fun r =>
        andThen r fun t => t.perform (Evaluation.program bound us) := by
  rw [Evaluation.program_append]
  unfold perform
  cases h : Evaluation.program bound ss s.machine with
  | ok a m =>
    rw [Run.bind_ok h]
    rfl
  | error stop m =>
    rw [Run.bind_error h]
    cases stop <;> rfl

section Joined

variable {ps : List (List Stmt)} {s t : Session} {source source' : String}
  {program program' : List Stmt} (hs : History ps s) (ha : s.accepted? source = some program)
  (hn : t.nextId = (Front.program s.nextId source).nextId)
  (ha' : t.accepted? source' = some program')

include ha hn ha'

/-- The whole is accepted, and its program is the one and then the other. -/
theorem accepted?_join : s.accepted? (source ++ "\n" ++ source') =
    some (program ++ Stmt.shiftAll ⟨0, Front.lines source⟩ program') := by
  obtain ⟨htree, hfaults⟩ := Option.filter_eq_some_iff.1 ha
  obtain ⟨htree', hfaults'⟩ := Option.filter_eq_some_iff.1 ha'
  rw [hn] at htree'
  apply Option.filter_eq_some_iff.2
  refine ⟨(Front.program_join htree htree').1, ?_⟩
  rw [List.isEmpty_iff] at hfaults hfaults' ⊢
  rw [Scoping.program_append, program_shift, faults_of_append, faults_shift, hfaults, hfaults']
  rfl

/-- What the whole notes is what the one notes and then the other. -/
theorem prepared_join : s.prepared (source ++ "\n" ++ source')
      (program ++ Stmt.shiftAll ⟨0, Front.lines source⟩ program') =
    ⟨(s.prepared source program).machine.note (lookups (Scoping.program program')),
      (Front.program t.nextId source').nextId⟩ := by
  obtain ⟨htree, -⟩ := Option.filter_eq_some_iff.1 ha
  obtain ⟨htree', -⟩ := Option.filter_eq_some_iff.1 ha'
  rw [hn] at htree' ⊢
  -- The lines of the other text do not matter to what is noted.
  have hlines (d : Depths) : d.record (lookups ((Scoping.program program').map
      (Finding.shift ⟨0, Front.lines source⟩))) = d.record (lookups (Scoping.program program')) := by
    apply Depths.record_congr
    rw [lookups_shift, List.map_map]
    rfl
  unfold prepared
  rw [(Front.program_join htree htree').2, Scoping.program_append, program_shift, lookups_append]
  simp only [Machine.note_eq, Depths.record_append, hlines]

omit ha'

include hs

theorem within_below : (Link.exact (recorded (program :: ps))).Within
    (.below (recorded (program :: ps)) t.nextId) where
  known _ _ h := h
  id _ _ _ hr hj := ⟨hn ▸ hs.coherent.recorded_lt ha hr, hj⟩
  line _ _ h := h
  renames _ h := h

include ha'

/-- While the first text runs, the whole has already noted the depths of the other. -/
theorem match_below : ∃ w, Match (.below (recorded (program :: ps)) t.nextId) w
    (s.prepared source program).machine
    (s.prepared (source ++ "\n" ++ source')
      (program ++ Stmt.shiftAll ⟨0, Front.lines source⟩ program')).machine := by
  rw [prepared_join ha hn ha']
  obtain ⟨w, hm⟩ := hs.coherent.prepared ha
  refine ⟨w, hm.learn (within_below hs ha hn) ?_ hm.known⟩
  rintro i j ⟨hi, rfl⟩
  apply Depths.get?_record_of_notMem
  intro hmem
  obtain ⟨p, hp, rfl⟩ := List.mem_map.1 hmem
  have hge := ((ranged_of_accepted ha').mem p.1 (List.mem_map_of_mem hp)).1
  omega

/-- The first text runs in step, alone and in the whole. -/
theorem performed_below (bound : Nat) :
    Option.Rel
      (Performed (.below (recorded (program :: ps)) t.nextId) (s.prepared source program)
        (s.prepared (source ++ "\n" ++ source')
          (program ++ Stmt.shiftAll ⟨0, Front.lines source⟩ program')))
      ((s.prepared source program).perform (Evaluation.program bound program))
      ((s.prepared (source ++ "\n" ++ source')
        (program ++ Stmt.shiftAll ⟨0, Front.lines source⟩ program')).perform
          (Evaluation.program bound program)) := by
  obtain ⟨w, hm⟩ := match_below hs ha hn ha'
  have hself : Twin (.exact (recorded (program :: ps))) [] [] (.stmts program) (.stmts program) :=
    twin_of_accepted ha fun p hp => ⟨program, List.mem_cons_self, hp⟩
  exact hm.performed (hself.mono (within_below hs ha hn)) bound

end Joined

/-- The other text runs in step, on the session that the first has left and in the whole. -/
theorem performed_behind {ps : List (List Stmt)} {t u : Session} {source' : String}
    {program' : List Stmt} (ht : History ps t) (ha' : t.accepted? source' = some program')
    {w : World} (hm : Match (.below (recorded ps) t.nextId) w t.machine u.machine)
    (hd : u.machine.depths = t.machine.depths.record (lookups (Scoping.program program')))
    (k bound : Nat) :
    Option.Rel (Performed (.behind (recorded (program' :: ps)) k) (t.prepared source' program') u)
      ((t.prepared source' program').perform (Evaluation.program bound program'))
      (u.perform (Evaluation.program bound (Stmt.shiftAll ⟨0, k⟩ program'))) := by
  obtain ⟨w₁, hm₁⟩ := ht.coherent.prepared ha'
  have hmatch : Match (.behind (recorded (program' :: ps)) k) w (t.prepared source' program').machine
      u.machine := by
    have hk : (Link.below (recorded ps) t.nextId).Within (.behind (recorded (program' :: ps)) k) := {
      known := fun r d ⟨p, hp, hr⟩ => ⟨p, List.mem_cons_of_mem _ hp, hr⟩
      id := fun r d j hr hj => hj.2
      line := fun _ _ h => .inl h
      renames := fun _ h => h }
    apply hm.learn hk _ hm₁.known
    rintro i j rfl
    rw [hd]
    rfl
  have hself : Twin (.exact (recorded (program' :: ps))) [] [] (.stmts program')
      (.stmts program') :=
    twin_of_accepted ha' fun p hp => ⟨program', List.mem_cons_self, hp⟩
  apply hmatch.performed (hself.shift ?_) bound
  exact {
    known := fun _ _ h => h
    id := fun _ _ _ => rfl
    line := fun _ => .inr rfl }

/-- The machines hold the same values. -/
structure SameValues (m m' : Machine) : Prop where
  scopes (i : Nat) (name : String) : m'.scopes.own? i name = m.scopes.own? i name
  fields (id : Nat) (name : String) : m'.field? id name = m.field? id name

/-- The outside sees the same, but for a line that a fault names, and the machines match: all
their values correspond, in the global scope under the same names. -/
structure Continues (k : Nat) (r r' : Report × Session) : Prop where
  status : r'.1.status = r.1.status
  messages : r'.1.diagnostics.map Diagnostic.message = r.1.diagnostics.map Diagnostic.message
  sink : r'.2.machine.sink = r.2.machine.sink
  values : ∃ known w, Match (.behind known k) w r.2.machine r'.2.machine ∧
    ∀ name, Option.Rel (ValueTwin (.behind known k) w)
      (r.2.machine.scopes.own? Machine.global name) (r'.2.machine.scopes.own? Machine.global name)

theorem rigid_below (known : Known) (n : Nat) : (Link.below known n).Rigid where
  id _ _ _ _ h := h.2
  line _ _ h := h
  renames _ h := h

/-- Where the link leaves no choice, matching machines hold the same values. -/
theorem sameValues_of_match {link : Link} {w : World} {m m' : Machine} (h : link.Rigid)
    (hm : Match link w m m') : SameValues m m' := by
  have hkeep (i : Nat) : w.names i = .keep := h.renames _ (hm.renames i)
  have heq {o o' : Option Value} (ho : Option.Rel (ValueTwin link w) o o') : o' = o := by
    cases ho with
    | none => rfl
    | some hv => rw [hv.eq h hkeep]
  constructor
  · intro i name
    have ho := hm.own i name
    rw [hkeep] at ho
    exact heq ho
  · exact fun id name => heq (hm.field id name)

/-- What is reported of corresponding ends differs in the line at most. -/
theorem reported_twin {link : Link} {x x' : Except Diagnostic Unit} (h : EndTwin link x x') :
    (reported x').status = (reported x).status ∧
      (reported x').diagnostics.map Diagnostic.message =
        (reported x).diagnostics.map Diagnostic.message := by
  cases h with
  | ok => exact ⟨rfl, rfl⟩
  | error hd => cases hd <;> exact ⟨rfl, rfl⟩

theorem continues_of_performed {known : Known} {k : Nat} {t u : Session}
    {r r' : Except Diagnostic Unit × Session} (h : Performed (.behind known k) t u r r') :
    Continues k (concluded r) (concluded r') := by
  obtain ⟨w, hm⟩ := h.matched
  have hglobal (name : String) : Option.Rel (ValueTwin (.behind known k) w)
      (r.2.machine.scopes.own? Machine.global name)
      (r'.2.machine.scopes.own? Machine.global name) := by
    have ho := hm.own Machine.global name
    rwa [hm.globalNames] at ho
  have hended : EndTwin (.behind known k)
      (if r.2.machine.sink.flushFails then .error (.sink .flush) else r.1)
      (if r'.2.machine.sink.flushFails then .error (.sink .flush) else r'.1) := by
    rw [hm.sink]
    split
    · exact .error (.sink .flush)
    · exact h.ended
  obtain ⟨hstatus, hmessages⟩ := reported_twin hended
  exact ⟨hstatus, hmessages, hm.sink, known, w, hm, hglobal⟩

/-- Let two texts be accepted in a session whose output can be flushed. The text of both, the
second from a new line on, is accepted too. If the first alone ends with a fault of its run,
the whole does, with the same report and output, and the same values are left. Otherwise the
whole comes out as the second text does when it is run after the first. -/
theorem run_join {ps : List (List Stmt)} {s : Session} (hs : History ps s)
    (hflush : s.machine.sink.flushFails = false) {source source' : String}
    (ha : (s.accepted? source).isSome) (ha' : (s.accepted? source').isSome) (bound : Nat) :
    (s.accepted? (source ++ "\n" ++ source')).isSome ∧
    (s.run bound source = none → s.run bound (source ++ "\n" ++ source') = none) ∧
    ∀ report t, s.run bound source = some (report, t) →
      (report.status = .runtimeError → ∃ u,
        s.run bound (source ++ "\n" ++ source') = some (report, u) ∧
          u.machine.sink = t.machine.sink ∧ SameValues t.machine u.machine) ∧
      (report.status = .ok → Option.Rel (Continues (Front.lines source)) (t.run bound source')
        (s.run bound (source ++ "\n" ++ source'))) := by
  obtain ⟨program, ha⟩ := Option.isSome_iff_exists.1 ha
  obtain ⟨program', ha'⟩ := Option.isSome_iff_exists.1 ha'
  let k := Front.lines source
  obtain ⟨j, hj⟩ := Nat.le.dest (Front.nextId_program s.nextId source)
  have hnext {t : Session} (hn : t.nextId = (Front.program s.nextId source).nextId) :
      t.accepted? source' = some (Stmt.shiftAll ⟨j, 0⟩ program') := by
    rw [accepted?_add (hn.trans hj.symm), ha']
    rfl
  generalize Stmt.shiftAll ⟨j, 0⟩ program' = later at hnext
  let t₀ : Session := ⟨s.machine, (Front.program s.nextId source).nextId⟩
  have hjoin := accepted?_join ha (t := t₀) rfl (hnext rfl)
  have hprepared := prepared_join ha (t := t₀) rfl (hnext rfl)
  have hbelow := performed_below hs ha (t := t₀) rfl (hnext rfl) bound
  have hrun := run_of_accepted bound ha
  have hjoined := run_of_accepted bound hjoin
  rw [perform_append] at hjoined
  refine ⟨Option.isSome_iff_exists.2 ⟨_, hjoin⟩, ?_⟩
  generalize hp : (s.prepared source program).perform _ = r,
    hp' : (s.prepared (source ++ "\n" ++ source') _).perform _ = r' at hbelow hrun hjoined
  cases hbelow with
  | none =>
    refine ⟨fun _ => hjoined, ?_⟩
    intro report t h
    rw [hrun] at h
    cases h
  | @some r r' hb =>
    obtain ⟨x, t⟩ := r
    obtain ⟨x', u⟩ := r'
    obtain ⟨w, hm⟩ := hb.matched
    have hnt : t.nextId = (Front.program s.nextId source).nextId := hb.nextId
    have hsink : u.machine.sink = t.machine.sink := hm.sink
    have hflush' : t.machine.sink.flushFails = false :=
      (unchanged_of_perform hp).flushFails.trans hflush
    refine ⟨by rw [hrun]; exact nofun, ?_⟩
    intro report t' h
    rw [hrun] at h
    cases h
    have hended := hb.ended
    simp only [hflush', Bool.false_eq_true, if_false]
    cases hended with
    | ok =>
      refine ⟨nofun, fun _ => ?_⟩
      have ht := hs.run hrun
      rw [ha] at ht
      have hdepths : u.machine.depths = t.machine.depths.record (lookups (Scoping.program later)) := by
        rw [(unchanged_of_perform hp').depths, (unchanged_of_perform hp).depths, hprepared]
        rfl
      have hm' : Match (.below (recorded (program :: ps)) t.nextId) w t.machine u.machine := by
        rw [hnt]
        exact hm
      have hbehind := performed_behind ht (hnext hnt) hm' hdepths k bound
      rw [run_of_accepted bound (hnext hnt), hjoined]
      show Option.Rel _ _ ((u.perform _).map concluded)
      generalize (t.prepared source' later).perform _ = r, u.perform _ = r' at hbehind
      cases hbehind with
      | none => exact .none
      | some h => exact .some (continues_of_performed h)
    | @error d d' hd =>
      refine ⟨fun _ => ⟨u, ?_, hsink, sameValues_of_match (rigid_below _ _) hm⟩, nofun⟩
      rw [hjoined, hd.eq fun _ _ hl => hl]
      show some (concluded (.error d, u)) = _
      simp only [concluded, hsink, hflush', Bool.false_eq_true, if_false]

/-- The second text calls what the first declares. -/
theorem run_join_call : ∃ t, (start 0).run 4 "fun f() \x7b return nil; \x7d" = some (⟨.ok, []⟩, t) ∧
    Option.Rel (Continues 1) (t.run 4 "print f();")
      ((start 0).run 4 ("fun f() \x7b return nil; \x7d" ++ "\n" ++ "print f();")) := by
  have hrun : ((start 0).run 4 "fun f() \x7b return nil; \x7d").map (·.1) = some ⟨.ok, []⟩ := by cbv
  obtain ⟨⟨report, t⟩, hrun, hreport⟩ := Option.map_eq_some_iff.1 hrun
  cases hreport
  have hdeclared : ((start 0).accepted? "fun f() \x7b return nil; \x7d").isSome = true := by cbv
  have hcalled : ((start 0).accepted? "print f();").isSome = true := by cbv
  have h := run_join (.start 0) rfl hdeclared hcalled 4
  exact ⟨t, hrun, (h.2.2 _ t hrun).2 rfl⟩

end Session

end Lox
