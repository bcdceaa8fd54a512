import Lox.Proofs.Layout.Evaluation

/-!
# Sessions in another layout

The same texts are run in two sessions, in the one as they are parsed and in the other in some
layout. Main statement: whatever was run before, the two give the same report and print the
same. A text is accepted in both or in neither, with the same faults; what scoping finds in it
is noted on both machines, each with its own depths, and then the two run in step.
-/

set_option autoImplicit false

namespace Lox.Layout

open Scoping Session
open Simulation (Sealed)

/-- Session `t` is what session `s` would be if it had run all texts in the layout. -/
inductive Beside (l : Layout) : (s t : Session) → Prop
  | start (now : Nat) : Beside l (.start now) (.start now)
  | run {s s' t t' : Session} {bound : Nat} {source : String} {report report' : Report}
      (h : Beside l s t) (hs : s.run bound source = some (report, s'))
      (ht : l.run bound t source = some (report', t')) : Beside l s' t'
  | takeLines {s t : Session} (h : Beside l s t) : Beside l s.takeLines.2 t.takeLines.2
  | setRoom {s t : Session} (h : Beside l s t) (room : Option Nat) :
      Beside l (s.setRoom room) (t.setRoom room)
  | setFlushFails {s t : Session} (h : Beside l s t) (fails : Bool) :
      Beside l (s.setFlushFails fails) (t.setFlushFails fails)
  | defineGiven {s t : Session} (h : Beside l s t) (name : String) (arity : Nat) {code : Host}
      (hc : Sealed code) : Beside l (s.defineGiven name arity code) (t.defineGiven name arity code)

variable {l : Layout}

section Machines

variable {next : Nat} {w : World} {m m' : Machine}

/-- A machine on which nothing was run. -/
theorem match_start (l : Layout) (now : Nat) : ∃ w, Match l 0 w (.start now) (.start now) := by
  have hm : Match l 0 ⟨fun i i' => i = Machine.global ∧ i' = Machine.global, fun _ _ => False,
      fun _ _ => False, fun _ _ => False, fun _ _ => False⟩
      ⟨Scopes.empty.push none, #[], 0, {}, #[], {}, now⟩
      ⟨Scopes.empty.push none, #[], 0, {}, #[], {}, now⟩ := {
    outer := fun _ _ h => h.elim
    outer' := fun _ _ h => h.elim
    lt := by
      rintro _ _ ⟨rfl, rfl⟩
      exact ⟨Nat.zero_lt_one, Nat.zero_lt_one⟩
    unique := by
      rintro _ _ _ _ ⟨rfl, rfl⟩ ⟨rfl, rfl⟩
      exact iff_of_true rfl rfl
    global := ⟨rfl, rfl⟩
    own := fun i i' _ name => by
      rw [Scopes.own?_push, Scopes.own?_push]
      exact .none
    size := rfl
    field := fun id name => .none
    serial := rfl
    known := fun _ _ h => h.elim
    known' := fun _ _ h => h.elim
    taken := fun _ _ h => (or_self_iff.1 h).elim
    unused := fun _ _ => ⟨rfl, rfl⟩
    hosts := rfl
    closed := fun f hf => absurd hf (Array.not_mem_empty f)
    sink := rfl
    clock := rfl }
  have h := hm.after_define hm.global "clock" (.plain (v := .host 0 ⟨"clock", 0, .clock⟩) rfl)
  exact ⟨_, { h with serial := rfl }⟩

namespace Match

variable (hm : Match l next w m m')

include hm

theorem defineGiven (name : String) (arity : Nat) {code : Host} (hc : Sealed code) :
    Match l next w (m.defineGiven name arity code) (m'.defineGiven name arity code) := by
  have h := hm.after_define hm.global name
    (.plain (v := .host m.serial ⟨name, arity, .given m.hosts.size⟩) rfl)
  have hclosed : ∀ f ∈ m.hosts.push code, Sealed f := by
    intro f hf
    rcases Array.mem_push.1 hf with hf | rfl
    · exact hm.closed f hf
    · exact hc
  unfold Machine.defineGiven Machine.defineHost
  rw [hm.hosts, hm.serial]
  exact { h with hosts := rfl, closed := hclosed, serial := rfl }

theorem withSink (sink : Sink) : Match l next w { m with sink } { m' with sink } :=
  { hm with sink := rfl }

end Match

/-- What is found in a text becomes known on both sides. -/
def World.learn (w : World) (found found' : List Finding) : World :=
  { w with
    known := fun r d => w.known r d ∨ (r, d) ∈ lookups found
    known' := fun r d => w.known' r d ∨ (r, d) ∈ lookups found' }

theorem World.extends_learn (w : World) (found found' : List Finding) :
    w.Extends (w.learn found found') :=
  { World.Extends.refl w with known := fun _ _ h => .inl h, known' := fun _ _ h => .inl h }

/-- Of new identities what is found is known from then on, and of the old ones what was. -/
theorem noted {d : Depths} {known : Known} {n k : Nat} {found : List Finding}
    (hk : ∀ r depth, known r depth → r.id < n ∧ d.get? r.id = depth)
    (hu : ∀ id, n ≤ id → d.get? id = none) (hr : Grammar.Ranged n k (looked found)) :
    (∀ r depth, known r depth ∨ (r, depth) ∈ lookups found →
      r.id < k ∧ (d.record (lookups found)).get? r.id = depth) ∧
    ∀ id, k ≤ id → (d.record (lookups found)).get? id = none := by
  have hnot {id : Nat} (h : id < n ∨ k ≤ id) : id ∉ (lookups found).map (·.1.id) := by
    intro hmem
    obtain ⟨p, hp, rfl⟩ := List.mem_map.1 hmem
    have hrange := hr.mem p.1 (List.mem_map_of_mem hp)
    omega
  refine ⟨?_, fun id hid => ?_⟩
  · rintro r depth (h | h)
    · obtain ⟨hlt, hget⟩ := hk r depth h
      refine ⟨Nat.lt_of_lt_of_le hlt hr.le, ?_⟩
      rw [Depths.get?_record_of_notMem (hnot (.inl hlt)), hget]
    · obtain ⟨hge, hlt⟩ := hr.mem r (List.mem_map_of_mem h)
      have hnodup := hr.nodup
      rw [looked, List.map_map] at hnodup
      exact ⟨hlt, Depths.get?_record_of_mem hnodup h (hu r.id hge)⟩
  · rw [Depths.get?_record_of_notMem (hnot (.inr hid))]
    exact hu id (Nat.le_trans hr.le hid)

theorem Match.note (hm : Match l next w m m') {k : Nat} {found found' : List Finding}
    (hlook : looked found' = looked found) (hr : Grammar.Ranged next k (looked found)) :
    Match l k (w.learn found found') (m.note (lookups found)) (m'.note (lookups found')) := by
  have hw := w.extends_learn found found'
  obtain ⟨hk, hu⟩ := noted (fun r d h => ⟨hm.taken r d (.inl h), hm.known r d h⟩)
    (fun id h => (hm.unused id h).1) hr
  obtain ⟨hk', hu'⟩ := noted (fun r d h => ⟨hm.taken r d (.inr h), hm.known' r d h⟩)
    (fun id h => (hm.unused id h).2) (hlook ▸ hr)
  exact {
    hm with
    own := fun i i' hp name => (hm.own i i' hp name).imp fun _ _ h => h.mono hw
    field := fun id name => (hm.field id name).imp fun _ _ h => h.mono hw
    known := fun r d h => (hk r d h).2
    known' := fun r d h => (hk' r d h).2
    taken := fun r d h => h.elim (fun h => (hk r d h).1) fun h => (hk' r d h).1
    unused := fun id hid => ⟨hu id hid, hu' id hid⟩ }

end Machines

section Texts

variable (l)

/-- What scoping finds in a text in this layout, if it gets to see its tree. -/
def foundIn (f : Front (List Stmt)) : List Finding := (f.tree?.map l.found).getD []

theorem bare_foundIn (n : Nat) (source : String) :
    bare (l.foundIn (Front.program n source)) = bare (Front.program n source).found := by
  unfold foundIn Front.found
  cases h : (Front.program n source).tree? with
  | none => rfl
  | some program => exact l.bare_found (Front.formed_of_tree h)

variable {l} {s t : Session} {source : String} {program : List Stmt}

/-- The session when it starts to run a program in this layout. -/
def prepared (l : Layout) (t : Session) (source : String) (program : List Stmt) : Session :=
  ⟨t.machine.note (lookups (l.found program)), (Front.program t.nextId source).nextId⟩

theorem run_of_accepted (hn : t.nextId = s.nextId) (ha : s.accepted? source = some program)
    (bound : Nat) : l.run bound t source =
      ((l.prepared t source program).perform (l.program bound program)).map concluded := by
  have htree := (Option.filter_eq_some_iff.1 ha).1
  have hfaults : faults (l.found program) = [] := by
    rw [faults_of_bare (l.bare_found (Front.formed_of_tree htree))]
    exact faults_of_accepted ha
  unfold run
  rw [hn]
  simp only [htree, hfaults, List.isEmpty_nil, if_true]
  rw [prepared, hn]

theorem run_of_rejected (hn : t.nextId = s.nextId) (ha : s.accepted? source = none) (bound : Nat) :
    l.run bound t source =
      let front := Front.program s.nextId source
      some (⟨.staticError, front.staticFaults⟩,
        ⟨t.machine.note (lookups (l.foundIn front)), front.nextId⟩) := by
  unfold run foundIn Front.staticFaults
  rw [hn]
  cases htree : (Front.program s.nextId source).tree? with
  | none =>
    simp only [htree]
    rfl
  | some program =>
    have hsame := faults_of_bare (l.bare_found (Front.formed_of_tree htree))
    have hfaults : (faults (Scoping.program program)).isEmpty = false := by
      simpa [accepted?, htree, Option.filter] using ha
    simp only [htree, hsame, hfaults]
    rfl

end Texts

/-- The same identities are taken, and the machines match. -/
structure Parallel (l : Layout) (s t : Session) : Prop where
  nextId : t.nextId = s.nextId
  matched : ∃ w, Match l s.nextId w s.machine t.machine

/-- What two runs in step leave behind, and what the outside sees of them. -/
def Agree (l : Layout) (r r' : Report × Session) : Prop :=
  observed r' = observed r ∧ Parallel l r.2 r'.2

theorem Lockstep.concluded {w : World} {s t : Session} {p p' : Run Unit} (hn : t.nextId = s.nextId)
    (h : Lockstep l s.nextId w (fun _ _ _ => True) (p s.machine) (p' t.machine)) :
    Option.Rel (Agree l) ((s.perform p).map concluded) ((t.perform p').map concluded) := by
  unfold perform
  generalize p s.machine = r, p' t.machine = r' at h
  cases h with
  | ok _ hm =>
    refine .some ⟨?_, hn, _, hm⟩
    simp only [observed, Session.concluded, hm.sink]
  | fault hm =>
    refine .some ⟨?_, hn, _, hm⟩
    simp only [observed, Session.concluded, hm.sink]
  | exhausted => exact .none

namespace Parallel

variable {s t : Session} (h : Parallel l s t)

include h

theorem run (bound : Nat) (source : String) :
    Option.Rel (Agree l) (s.run bound source) (l.run bound t source) := by
  obtain ⟨w, hm⟩ := h.matched
  cases ha : s.accepted? source with
  | none =>
    rw [Session.run_of_rejected bound ha, Layout.run_of_rejected h.nextId ha]
    have hm := hm.note (looked_of_bare (l.bare_foundIn s.nextId source))
      (Front.ranged_found s.nextId source)
    refine .some ⟨?_, rfl, _, hm⟩
    exact Prod.ext rfl hm.sink
  | some program =>
    rw [Session.run_of_accepted bound ha, Layout.run_of_accepted h.nextId ha]
    have hf := formed_of_accepted ha
    have hbare := l.bare_found hf
    have hm := hm.note (looked_of_bare hbare) (ranged_of_accepted ha)
    have hfit : Fit (w.learn (Scoping.program program) (l.found program)) (Scoping.program program)
        (l.found program) :=
      ⟨accepts_of_faults (faults_of_accepted ha) fun _ hp => .inr hp,
        accepts_of_faults ((faults_of_bare hbare).trans (faults_of_accepted ha)) fun _ hp => .inr hp⟩
    have hn : (l.prepared t source program).nextId = (s.prepared source program).nextId :=
      congrArg (fun n => (Front.program n source).nextId) h.nextId
    exact Lockstep.concluded hn (hm.program hf hfit)

theorem withSink (sink : Sink) : Parallel l { s with machine := { s.machine with sink } }
    { t with machine := { t.machine with sink } } := by
  obtain ⟨w, hm⟩ := h.matched
  exact ⟨h.nextId, w, hm.withSink sink⟩

theorem defineGiven (name : String) (arity : Nat) {code : Host} (hc : Sealed code) :
    Parallel l (s.defineGiven name arity code) (t.defineGiven name arity code) := by
  obtain ⟨w, hm⟩ := h.matched
  exact ⟨h.nextId, w, hm.defineGiven name arity hc⟩

theorem sink : t.machine.sink = s.machine.sink := by
  obtain ⟨w, hm⟩ := h.matched
  exact hm.sink

end Parallel

theorem Beside.parallel {s t : Session} (h : Beside l s t) : Parallel l s t := by
  induction h with
  | start now => exact ⟨rfl, match_start l now⟩
  | @run s s' t t' bound source report report' _ hs ht ih =>
    have hrun := ih.run bound source
    rw [hs, ht] at hrun
    exact (Option.rel_some_some.1 hrun).2
  | takeLines _ ih =>
    unfold Session.takeLines
    rw [ih.sink]
    exact ih.withSink _
  | setRoom _ room ih =>
    unfold Session.setRoom
    rw [ih.sink]
    exact ih.withSink _
  | setFlushFails _ fails ih =>
    unfold Session.setFlushFails
    rw [ih.sink]
    exact ih.withSink _
  | defineGiven _ name arity hc ih => exact ih.defineGiven name arity hc

/-- The outside cannot tell the layout from the one of the parser. -/
theorem Beside.observed {s t : Session} (h : Beside l s t) (bound : Nat) (source : String) :
    (l.run bound t source).map observed = (s.run bound source).map observed := by
  have hrun := h.parallel.run bound source
  generalize s.run bound source = r, l.run bound t source = r' at hrun
  cases hrun with
  | none => rfl
  | some ha => exact congrArg some ha.1

end Lox.Layout
