import Lox.Proofs.Evaluation.Constant
import Lox.Proofs.Scoping.Lookup
import Lox.Proofs.Scoping.Renames
import Lox.Proofs.Simulation.Program
import Lox.Proofs.Source.Stream

/-!
# Histories of a session

A history runs one text after another, whatever comes of each, and may change the output
or give functions of the host in between. Main statement: what scoping recorded of the
programs accepted so far stays noted, for no identity is taken twice, and every closure on
the machine is typed with the scopes that its declaration was executed in.
-/

set_option autoImplicit false

namespace Lox

open Scoping Simulation

namespace Depths

/-- Note a list of depths, as far as there are any. -/
def record (d : Depths) (found : List (Reference × Option Nat)) : Depths :=
  found.foldl (fun d (ref, depth) => (depth.map (d.put ref.id)).getD d) d

theorem get?_record_of_notMem {d : Depths} {found : List (Reference × Option Nat)} {id : Nat}
    (h : id ∉ found.map (·.1.id)) : (d.record found).get? id = d.get? id := by
  induction found generalizing d with
  | nil => rfl
  | cons p found ih =>
    obtain ⟨r, depth⟩ := p
    obtain ⟨hne, hrest⟩ := not_or.1 (mt List.mem_cons.2 h)
    refine (ih hrest).trans ?_
    cases depth with
    | none => rfl
    | some depth => exact get?_put_of_ne d depth hne

theorem get?_record_of_mem {d : Depths} {found : List (Reference × Option Nat)} {r : Reference}
    {depth : Option Nat} (hn : (found.map (·.1.id)).Nodup) (h : (r, depth) ∈ found)
    (hd : d.get? r.id = none) : (d.record found).get? r.id = depth := by
  induction found generalizing d with
  | nil => cases h
  | cons p found ih =>
    obtain ⟨hnot, hrest⟩ := List.nodup_cons.1 hn
    rcases List.mem_cons.1 h with rfl | h
    · refine (get?_record_of_notMem hnot).trans ?_
      cases depth with
      | none => exact hd
      | some depth => exact get?_put_self d r.id depth
    · have hne : r.id ≠ p.1.id := by
        intro he
        exact hnot (List.mem_map.2 ⟨_, h, he⟩)
      apply ih hrest h
      obtain ⟨r', depth'⟩ := p
      cases depth' with
      | none => exact hd
      | some depth' => exact (get?_put_of_ne d depth' hne).trans hd

/-- Of what is noted the names do not matter. -/
theorem record_congr (d : Depths) {found found' : List (Reference × Option Nat)}
    (h : found'.map (fun p => (p.1.id, p.2)) = found.map fun p => (p.1.id, p.2)) :
    d.record found' = d.record found := by
  have hmap (l : List (Reference × Option Nat)) : d.record l =
      (l.map fun p => (p.1.id, p.2)).foldl (fun d p => (p.2.map (d.put p.1)).getD d) d := by
    rw [List.foldl_map]
    rfl
  rw [hmap, hmap, h]

theorem record_append (d : Depths) (found found' : List (Reference × Option Nat)) :
    d.record (found ++ found') = (d.record found).record found' :=
  List.foldl_append

end Depths

theorem Machine.note_eq (m : Machine) (found : List (Reference × Option Nat)) :
    m.note found = { m with depths := m.depths.record found } := rfl

namespace Front

/-- What scoping finds in a text, if it gets to see its tree. -/
def found (f : Front (List Stmt)) : List Finding := (f.tree?.map Scoping.program).getD []

/-- The static faults of a text, of the last stage that it reaches. -/
def staticFaults (f : Front (List Stmt)) : List Diagnostic :=
  f.tree?.elim f.faults fun program => Scoping.faults (Scoping.program program)

/-- The names of a program are no reserved words. -/
theorem formed_of_tree {n : Nat} {source : String} {program : List Stmt}
    (h : (Front.program n source).tree? = some program) : Stmt.AllFormed Free program := by
  obtain ⟨hfit, hd⟩ := Front.program_tree h
  exact hd.formed fun t ht => (hfit.lexeme t ht).spelled fun _ hn => hn

theorem ranged_found (n : Nat) (source : String) :
    Grammar.Ranged n (Front.program n source).nextId (looked (Front.program n source).found) := by
  unfold found
  cases h : (Front.program n source).tree? with
  | none => exact .nil (Front.nextId_program n source)
  | some program => exact (Front.program_tree h).2.looked

end Front

namespace Session

/-- The program of a text in which neither reading nor scoping finds a fault. -/
def accepted? (s : Session) (source : String) : Option (List Stmt) :=
  (Front.program s.nextId source).tree?.filter fun p => (faults (Scoping.program p)).isEmpty

/-- `History ps s`: in session `s` the programs `ps` were run, the last one first. -/
inductive History : List (List Stmt) → Session → Prop
  | start (now : Nat) : History [] (.start now)
  | run {ps : List (List Stmt)} {s s' : Session} {bound : Nat} {source : String} {report : Report}
      (h : History ps s) (hr : s.run bound source = some (report, s')) :
      History ((s.accepted? source).toList ++ ps) s'
  | takeLines {ps : List (List Stmt)} {s : Session} (h : History ps s) : History ps s.takeLines.2
  | setRoom {ps : List (List Stmt)} {s : Session} (h : History ps s) (room : Option Nat) :
      History ps (s.setRoom room)
  | setFlushFails {ps : List (List Stmt)} {s : Session} (h : History ps s) (fails : Bool) :
      History ps (s.setFlushFails fails)
  | defineGiven {ps : List (List Stmt)} {s : Session} (h : History ps s) (name : String)
      (arity : Nat) {code : Host} (hc : Sealed code) : History ps (s.defineGiven name arity code)

/-- The session when it starts to run a program that it accepted. -/
def prepared (s : Session) (source : String) (program : List Stmt) : Session :=
  ⟨s.machine.note (lookups (Scoping.program program)), (Front.program s.nextId source).nextId⟩

/-- What becomes of a program that was run. -/
def reported : Except Diagnostic Unit → Report
  | .ok () => ⟨.ok, []⟩
  | .error d => ⟨.runtimeError, [d]⟩

theorem unchanged_of_perform {s s' : Session} {bound : Nat} {program : List Stmt}
    {x : Except Diagnostic Unit} (h : s.perform (Evaluation.program bound program) = some (x, s')) :
    s.machine.Unchanged s'.machine := by
  have hkeeps := Evaluation.keeps_program bound program s.machine
  unfold perform at h
  generalize Evaluation.program bound program s.machine = r at h hkeeps
  cases r with
  | ok a m =>
    cases h
    exact hkeeps.unchanged
  | error stop m =>
    cases stop with
    | fault d =>
      cases h
      exact hkeeps.unchanged
    | exhausted => cases h

/-- How a run ends: its output is flushed in any case, and a fault in that comes first. -/
def concluded (r : Except Diagnostic Unit × Session) : Report × Session :=
  (reported (if r.2.machine.sink.flushFails then .error (.sink .flush) else r.1), r.2)

/-- What the outside sees of a run: the report and where the output stands. -/
def observed (r : Report × Session) : Report × Sink := (r.1, r.2.machine.sink)

theorem run_of_accepted {s : Session} {source : String} {program : List Stmt} (bound : Nat)
    (h : s.accepted? source = some program) :
    s.run bound source =
      ((s.prepared source program).perform (Evaluation.program bound program)).map concluded := by
  obtain ⟨htree, hfaults⟩ := Option.filter_eq_some_iff.1 h
  simp only [run, htree, resolve, hfaults, if_true]
  show ((s.prepared source program).interpret bound program).bind _ = _
  unfold interpret
  show Option.bind (Option.bind ((s.prepared source program).perform _) _) _ = _
  cases (s.prepared source program).perform (Evaluation.program bound program) with
  | none => rfl
  | some r =>
    obtain ⟨x, t⟩ := r
    simp only [concluded, Option.map_some]
    generalize hy : (if t.machine.sink.flushFails then .error (.sink .flush) else x) = y
    show Option.bind (some (if t.machine.sink.flushFails then _ else x, t)) _ = _
    rw [hy]
    cases y <;> rfl

theorem run_of_rejected {s : Session} {source : String} (bound : Nat)
    (h : s.accepted? source = none) :
    s.run bound source =
      let front := Front.program s.nextId source
      some (⟨.staticError, front.staticFaults⟩,
        ⟨s.machine.note (lookups front.found), front.nextId⟩) := by
  cases htree : (Front.program s.nextId source).tree? with
  | none =>
    simp only [run, htree, Front.staticFaults, Front.found]
    rfl
  | some program =>
    have hfaults : (faults (Scoping.program program)).isEmpty = false := by
      simpa [accepted?, htree, Option.filter] using h
    simp only [run, htree, resolve, hfaults, Front.staticFaults, Front.found]
    rfl

/-- Noting what is found in a text leaves the identities alone that it does not take. -/
theorem get?_note_found (s : Session) (source : String) {id : Nat}
    (h : id < s.nextId ∨ (Front.program s.nextId source).nextId ≤ id) :
    (s.machine.note (lookups (Front.program s.nextId source).found)).depths.get? id =
      s.machine.depths.get? id := by
  apply Depths.get?_record_of_notMem
  intro hmem
  obtain ⟨p, hp, rfl⟩ := List.mem_map.1 hmem
  have hlt := (Front.ranged_found s.nextId source).mem p.1 (List.mem_map_of_mem hp)
  omega

end Session

namespace Simulation

variable {link : Link} {w : World}

/-- A host function that is defined refers to no scope. -/
theorem Match.defineHost {m : Machine} (hm : Match link w m m) (f : HostFunction) :
    Match link (w.define Machine.global f.name (.host m.serial f)) (m.defineHost f)
      (m.defineHost f) := by
  have h := hm.after_define hm.global f.name (.plain (v := .host m.serial f) rfl)
  rw [hm.globalNames] at h
  exact { h with serial := rfl }

/-- A machine on which nothing was run. -/
theorem match_start {known : Known} (now : Nat) (hk : ∀ r d, known r d → d = none) :
    ∃ w, Match (.exact known) w (.start now) (.start now) := by
  have hm : Match (.exact known) ⟨Scopes.empty.push none, fun _ => .keep⟩
      ⟨Scopes.empty.push none, #[], 0, {}, #[], {}, now⟩
      ⟨Scopes.empty.push none, #[], 0, {}, #[], {}, now⟩ := {
    scopes := rfl
    next := rfl
    enclosing := fun _ => rfl
    own := fun i name => by
      rw [Scopes.own?_push, Scopes.own?_push]
      exact .none
    global := Nat.zero_lt_one
    globalNames := rfl
    renames := fun _ => rfl
    size := rfl
    field := fun id name => .none
    serial := rfl
    depths := by
      rintro _ _ rfl
      rfl
    known := fun r d h => (hk r d h).symm
    hosts := rfl
    closed := fun f hf => absurd hf (Array.not_mem_empty f)
    sink := rfl
    clock := rfl }
  exact ⟨_, hm.defineHost _⟩

theorem Match.withSink {m : Machine} (hm : Match link w m m) (sink : Sink) :
    Match link w { m with sink } { m with sink } :=
  { hm with sink := rfl }

theorem Match.defineGiven {m : Machine} (hm : Match link w m m) (name : String) (arity : Nat)
    {code : Host} (hc : Sealed code) :
    ∃ w, Match link w (m.defineGiven name arity code) (m.defineGiven name arity code) := by
  have h := hm.defineHost ⟨name, arity, .given m.hosts.size⟩
  have hclosed : ∀ f ∈ m.hosts.push code, Sealed f := by
    intro f hf
    rcases Array.mem_push.1 hf with hf | rfl
    · exact hm.closed f hf
    · exact hc
  exact ⟨_, { h with hosts := rfl, closed := hclosed }⟩

/-- Both end with a value, or with a fault that is the same up to its line. -/
inductive EndTwin (link : Link) {α β : Type} : Except Diagnostic α → Except Diagnostic β → Prop
  | ok (a : α) (b : β) : EndTwin link (.ok a) (.ok b)
  | error {d d' : Diagnostic} (hd : FaultTwin link d d') : EndTwin link (.error d) (.error d')

theorem EndTwin.eq {link : Link} (hline : ∀ l l', link.line l l' → l' = l)
    {x x' : Except Diagnostic Unit} (h : EndTwin link x x') : x' = x := by
  cases h with
  | ok => rfl
  | error hd => rw [hd.eq hline]

/-- What two computations in step make of two sessions. -/
structure Performed (link : Link) (s s' : Session) {α β : Type}
    (r : Except Diagnostic α × Session) (r' : Except Diagnostic β × Session) : Prop where
  ended : EndTwin link r.1 r'.1
  matched : ∃ w, Match link w r.2.machine r'.2.machine
  nextId : r.2.nextId = s.nextId
  nextId' : r'.2.nextId = s'.nextId

theorem Lockstep.performed {α β : Type} {blame : Blame} {Q : World → α → β → Prop} {p : Run α}
    {p' : Run β} {s s' : Session} (h : Lockstep link w blame Q (p s.machine) (p' s'.machine)) :
    Option.Rel (Performed link s s') (s.perform p) (s'.perform p') := by
  unfold Session.perform
  generalize p s.machine = r, p' s'.machine = r' at h
  cases h with
  | ok _ hm => exact .some ⟨.ok _ _, ⟨_, hm⟩, rfl, rfl⟩
  | fault hd _ hm => exact .some ⟨.error hd, ⟨_, hm⟩, rfl, rfl⟩
  | exhausted => exact .none

/-- Where lines are the same, the outside cannot tell the two runs apart. -/
theorem Performed.observed {link : Link} (hline : ∀ l l', link.line l l' → l' = l)
    {s s' : Session} {r r' : Except Diagnostic Unit × Session} (h : Performed link s s' r r') :
    Session.observed (Session.concluded r') = Session.observed (Session.concluded r) := by
  obtain ⟨w, hm⟩ := h.matched
  simp only [Session.observed, Session.concluded, hm.sink, h.ended.eq hline]

/-- Twin programs make corresponding sessions of sessions whose machines match. -/
theorem Match.performed {s s' : Session} (hm : Match link w s.machine s'.machine)
    {program program' : List Stmt} (ht : Twin link [] [] (.stmts program) (.stmts program'))
    (bound : Nat) :
    Option.Rel (Performed link s s') (s.perform (Evaluation.program bound program))
      (s'.perform (Evaluation.program bound program')) := by
  have hl : Lockstep link w (fun _ _ => True) (fun _ _ _ => True)
      (Evaluation.program bound program s.machine) (Evaluation.program bound program' s'.machine) :=
    hm.program ht fun _ _ _ _ _ _ _ _ _ => trivial
  exact hl.performed

end Simulation

namespace Session

/-- What scoping recorded of some of the programs. -/
def recorded (ps : List (List Stmt)) : Known :=
  fun r d => ∃ p ∈ ps, (r, d) ∈ lookups (Scoping.program p)

structure Coherent (ps : List (List Stmt)) (s : Session) : Prop where
  matched : ∃ w, Match (.exact (recorded ps)) w s.machine s.machine
  old (r : Reference) (d : Option Nat) : recorded ps r d → r.id < s.nextId
  unused (id : Nat) : s.nextId ≤ id → s.machine.depths.get? id = none

section Accepted

variable {s : Session} {source : String} {program : List Stmt}
  (ha : s.accepted? source = some program)

include ha

theorem derives_of_accepted : Piece.Fits (Piece.cut source.toList) ∧
    Grammar.Derives Grammar.Complete (.declarations program)
      (Piece.lexemes 1 (Piece.cut source.toList)) s.nextId
      (Front.program s.nextId source).nextId [] :=
  Front.program_tree (Option.filter_eq_some_iff.1 ha).1

theorem faults_of_accepted : faults (Scoping.program program) = [] :=
  List.isEmpty_iff.1 (Option.filter_eq_some_iff.1 ha).2

theorem formed_of_accepted : Stmt.AllFormed Free program :=
  Front.formed_of_tree (Option.filter_eq_some_iff.1 ha).1

theorem ranged_of_accepted :
    Grammar.Ranged s.nextId (Front.program s.nextId source).nextId (looked (Scoping.program program)) :=
  (derives_of_accepted ha).2.looked

/-- A program is a twin of itself once its references are known. -/
theorem twin_of_accepted {known : Known}
    (hk : ∀ p ∈ lookups (Scoping.program program), known p.1 p.2) :
    Twin (.exact known) [] [] (.stmts program) (.stmts program) :=
  twin_exact (fun _ hn => ⟨hn.ne .this, hn.ne .super⟩) .none .nil .nil (formed_of_accepted ha)
    (accepts_of_faults (faults_of_accepted ha) hk)

theorem prepared_mem {r : Reference} {d : Option Nat}
    (hu : ∀ id, s.nextId ≤ id → s.machine.depths.get? id = none)
    (hr : (r, d) ∈ lookups (Scoping.program program)) :
    (s.prepared source program).machine.depths.get? r.id = d := by
  have hranged := ranged_of_accepted ha
  have hnodup := hranged.nodup
  rw [looked, List.map_map] at hnodup
  apply Depths.get?_record_of_mem hnodup hr
  exact hu r.id (hranged.mem r (List.mem_map_of_mem hr)).1

theorem found_of_accepted : (Front.program s.nextId source).found = Scoping.program program := by
  unfold Front.found
  rw [(Option.filter_eq_some_iff.1 ha).1]
  rfl

theorem prepared_notMem {id : Nat} (hid : id < s.nextId ∨ (Front.program s.nextId source).nextId ≤ id) :
    (s.prepared source program).machine.depths.get? id = s.machine.depths.get? id := by
  have h := get?_note_found s source hid
  rwa [found_of_accepted ha] at h

end Accepted

namespace Coherent

variable {ps : List (List Stmt)} {s s' : Session} {source : String} {program : List Stmt}

theorem start (now : Nat) : Coherent [] (.start now) where
  matched := match_start now (by rintro _ _ ⟨_, ⟨⟩, _⟩)
  old := by rintro _ _ ⟨_, ⟨⟩, _⟩
  unused _ _ := rfl

/-- Scoping a program adds to what is known, and leaves the rest as it was. -/
theorem prepared (h : Coherent ps s) (ha : s.accepted? source = some program) :
    ∃ w, Match (.exact (recorded (program :: ps))) w (s.prepared source program).machine
      (s.prepared source program).machine := by
  obtain ⟨w, hm⟩ := h.matched
  have hps (r : Reference) (d : Option Nat) (hr : recorded ps r d) : recorded (program :: ps) r d := by
    obtain ⟨p, hp, hr⟩ := hr
    exact ⟨p, List.mem_cons_of_mem _ hp, hr⟩
  refine ⟨w, hm.learn (.exact hps) (by rintro _ _ rfl; rfl) ?_⟩
  rintro r d ⟨p, hp, hr⟩
  rcases List.mem_cons.1 hp with rfl | hp
  · exact prepared_mem ha h.unused hr
  · have hold := h.old r d ⟨p, hp, hr⟩
    exact (prepared_notMem ha (.inl hold)).trans (hm.known r d ⟨p, hp, hr⟩)

/-- A text that is rejected leaves nothing but what scoping noted. -/
theorem rejected (h : Coherent ps s) (ha : s.accepted? source = none) {bound : Nat} {report : Report}
    (hr : s.run bound source = some (report, s')) : Coherent ps s' := by
  rw [run_of_rejected bound ha] at hr
  cases hr
  have hle := Front.nextId_program s.nextId source
  obtain ⟨w, hm⟩ := h.matched
  exact {
    matched := ⟨w, hm.learn (.refl _) (by rintro _ _ rfl; rfl) fun r d hk =>
      (get?_note_found s source (.inl (h.old r d hk))).trans (hm.known r d hk)⟩
    old := fun r d hk => Nat.lt_of_lt_of_le (h.old r d hk) hle
    unused := fun id hid =>
      (get?_note_found s source (.inr hid)).trans (h.unused id (Nat.le_trans hle hid)) }

/-- What is recorded has identities that are taken when the program is accepted. -/
theorem recorded_lt (h : Coherent ps s) (ha : s.accepted? source = some program) {r : Reference}
    {d : Option Nat} (hr : recorded (program :: ps) r d) :
    r.id < (Front.program s.nextId source).nextId := by
  obtain ⟨p, hp, hr⟩ := hr
  rcases List.mem_cons.1 hp with rfl | hp
  · exact ((ranged_of_accepted ha).mem r (List.mem_map_of_mem hr)).2
  · exact Nat.lt_of_lt_of_le (h.old r d ⟨p, hp, hr⟩) (Front.nextId_program s.nextId source)

/-- The machine that a program leaves, in step with itself, has its depths. -/
theorem executed (h : Coherent ps s) (ha : s.accepted? source = some program) {bound : Nat}
    {x : Except Diagnostic Unit}
    (hr : (s.prepared source program).perform (Evaluation.program bound program) = some (x, s')) :
    Coherent (program :: ps) s' := by
  obtain ⟨w, hm⟩ := h.prepared ha
  have ht : Twin (.exact (recorded (program :: ps))) [] [] (.stmts program) (.stmts program) :=
    twin_of_accepted ha fun p hp => ⟨program, List.mem_cons_self, hp⟩
  have hp := hm.performed ht bound
  rw [hr] at hp
  obtain ⟨hp⟩ := hp
  have hnext : s'.nextId = (Front.program s.nextId source).nextId := hp.nextId
  have hle := Front.nextId_program s.nextId source
  exact {
    matched := hp.matched
    old := fun r d hr => hnext ▸ h.recorded_lt ha hr
    unused := fun id hid => by
      rw [hnext] at hid
      rw [(unchanged_of_perform hr).depths, prepared_notMem ha (.inr hid)]
      exact h.unused id (Nat.le_trans hle hid) }

theorem run (h : Coherent ps s) {bound : Nat} {report : Report}
    (hr : s.run bound source = some (report, s')) :
    Coherent ((s.accepted? source).toList ++ ps) s' := by
  cases ha : s.accepted? source with
  | none => exact h.rejected ha hr
  | some program =>
    rw [run_of_accepted bound ha] at hr
    obtain ⟨⟨x, s₁⟩, hp, he⟩ := Option.map_eq_some_iff.1 hr
    cases he
    exact h.executed ha hp

theorem defineGiven (h : Coherent ps s) (name : String) (arity : Nat) {code : Host}
    (hc : Sealed code) : Coherent ps (s.defineGiven name arity code) := by
  obtain ⟨w, hm⟩ := h.matched
  exact ⟨hm.defineGiven name arity hc, h.old, h.unused⟩

theorem withSink (h : Coherent ps s) (sink : Sink) :
    Coherent ps { s with machine := { s.machine with sink } } := by
  obtain ⟨w, hm⟩ := h.matched
  exact ⟨⟨w, hm.withSink sink⟩, h.old, h.unused⟩

end Coherent

/-- Every history leaves the machine coherent with what was recorded on the way. -/
theorem History.coherent {ps : List (List Stmt)} {s : Session} (h : History ps s) :
    Coherent ps s := by
  induction h with
  | start now => exact .start now
  | run _ hr ih => exact ih.run hr
  | takeLines _ ih => exact ih.withSink _
  | setRoom _ room ih => exact ih.withSink _
  | setFlushFails _ fails ih => exact ih.withSink _
  | defineGiven _ name arity hc ih => exact ih.defineGiven name arity hc

end Session

end Lox
