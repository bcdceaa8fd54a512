import Lox.Proofs.Evaluation.Stepwise
import Lox.Proofs.Grammar.Numbered
import Lox.Proofs.Session.Super

/-!
# The entries for references

Scoping notes for a reference how many scopes up its name is declared, in one table that all
texts of a session share. Main statement: no two references in any trees that are read have the
same identity, so the table has one entry at most for each, and what a run finds there for a
reference is what scoping came to for it, however many texts were run since.
-/

set_option autoImplicit false

namespace Lox

open Scoping Simulation Evaluation Placement

/-- The reference that the evaluation of an expression looks up itself. -/
def Expr.reference? : Expr → Option Reference
  | .var r | .assign r _ | .this r | .super r _ => some r
  | _ => none

namespace Session

/-- The references that scoping looks up in the text, if there is a tree, each with the number of
scopes up to the one that declares it, or with none. -/
def Turn.entries (u : Turn) : List (Reference × Option Nat) :=
  lookups (Front.program u.session.nextId u.source).found

/-- The references of all turns. -/
def entries (us : List Turn) : List (Reference × Option Nat) := us.flatMap Turn.entries

theorem mem_entries_of_program {us : List Turn} {program : List Stmt}
    {p : Reference × Option Nat} (hprogram : program ∈ programs us)
    (hp : p ∈ lookups (Scoping.program program)) : p ∈ entries us := by
  obtain ⟨u, hu, ha⟩ := List.mem_flatMap.1 hprogram
  refine List.mem_flatMap.2 ⟨u, hu, ?_⟩
  rwa [Turn.entries, found_of_accepted (Option.mem_toList.1 ha)]

/-- The table `d` has just what scoping came to in the turns, which took the identities below
`n`. -/
structure Noted (us : List Turn) (n : Nat) (d : Depths) : Prop where
  ranged : Grammar.Ranged 0 n ((entries us).map (·.1))
  known (p : Reference × Option Nat) : p ∈ entries us → d.get? p.1.id = p.2
  unused (id : Nat) : n ≤ id → d.get? id = none

section Turns

variable {us : List Turn} {s : Session} {bound : Nat} {source : String}

/-- The next text takes new identities, so that it changes no entry. -/
theorem Noted.next (h : Noted us s.nextId s.machine.depths) (bound : Nat) (source : String) :
    Noted (⟨s, bound, source⟩ :: us) (Front.program s.nextId source).nextId
      (s.machine.depths.record (Turn.entries ⟨s, bound, source⟩)) := by
  have hranged := Front.ranged_found s.nextId source
  have hbelow {id : Nat} (hid : id < s.nextId ∨ (Front.program s.nextId source).nextId ≤ id) :
      (s.machine.depths.record (Turn.entries ⟨s, bound, source⟩)).get? id =
        s.machine.depths.get? id := get?_note_found s source hid
  constructor
  · have happend : (entries (⟨s, bound, source⟩ :: us)).map (·.1) =
        looked (Front.program s.nextId source).found ++ (entries us).map (·.1) := List.map_append
    rw [happend]
    exact h.ranged.prepend hranged
  · intro p hp
    rcases List.mem_append.1 hp with hp | hp
    · have hnodup := hranged.nodup
      rw [looked, List.map_map] at hnodup
      exact Depths.get?_record_of_mem hnodup hp
        (h.unused _ (hranged.mem p.1 (List.mem_map_of_mem hp)).1)
    · rw [hbelow (.inl (h.ranged.mem p.1 (List.mem_map_of_mem hp)).2)]
      exact h.known p hp
  · intro id hid
    rw [hbelow (.inr hid)]
    exact h.unused id (Nat.le_trans hranged.le hid)

/-- However a run ends, the table is the one that scoping left. -/
theorem depths_of_run {s' : Session} {report : Report}
    (hr : s.run bound source = some (report, s')) :
    s'.machine.depths = s.machine.depths.record (Turn.entries ⟨s, bound, source⟩) ∧
      s'.nextId = (Front.program s.nextId source).nextId := by
  cases ha : s.accepted? source with
  | none =>
    rw [run_of_rejected bound ha] at hr
    cases hr
    exact ⟨rfl, rfl⟩
  | some program =>
    rw [run_of_accepted bound ha] at hr
    obtain ⟨⟨x, s₁⟩, hp, he⟩ := Option.map_eq_some_iff.1 hr
    cases he
    have hfound : Turn.entries ⟨s, bound, source⟩ = lookups (Scoping.program program) :=
      congrArg lookups (found_of_accepted ha)
    have hnext : s₁.nextId = (s.prepared source program).nextId := by
      unfold perform at hp
      split at hp <;> cases hp <;> rfl
    exact ⟨hfound ▸ (unchanged_of_perform hp).depths, hnext⟩

theorem Course.noted (h : Course us s) : Noted us s.nextId s.machine.depths := by
  induction h with
  | start now => exact ⟨.nil (Nat.le_refl 0), nofun, fun _ _ => rfl⟩
  | @run us s s' bound source report _ hr ih =>
    obtain ⟨hd, hn⟩ := depths_of_run hr
    rw [hd, hn]
    exact ih.next bound source
  | takeLines _ ih | setRoom _ _ ih | setFlushFails _ _ ih | defineGiven _ _ _ _ ih => exact ih

/-- While a text runs, the table is the one that scoping left. -/
theorem depths_of_visited {t : Task} {m : Machine} (hv : s.Visited bound source t m) :
    m.depths = s.machine.depths.record (Turn.entries ⟨s, bound, source⟩) := by
  obtain ⟨before, stmt, after, m₀, ha, hb, hv⟩ := hv
  have hfound : Turn.entries ⟨s, bound, source⟩ =
      lookups (Scoping.program (before ++ stmt :: after)) := congrArg lookups (found_of_accepted ha)
  rw [hfound]
  exact (Machine.Unchanged.stepwise.visitedIn after hb hv).1.depths

/-- Where a reference is looked up, the table has what scoping came to for it. -/
theorem Course.entry (h : Course us s) {n i : Nat} {e : Expr} {r : Reference} {m : Machine}
    (hv : s.Visited bound source (.evaluate n i e) m) (hr : e.reference? = some r) :
    (r, m.depths.get? r.id) ∈ entries (⟨s, bound, source⟩ :: us) := by
  have hlooked (he : looksUp e = some r) :
      (r, m.depths.get? r.id) ∈ entries (⟨s, bound, source⟩ :: us) := by
    obtain ⟨program, hp, hmem⟩ := ((h.history.typed hv).lookup he).1
    exact mem_entries_of_program hp hmem
  cases e with
  | var | assign | this => exact hlooked hr
  | super ref method =>
    obtain rfl := Option.some.inj hr
    obtain ⟨program, hp, p, ho, -⟩ : Stands _ m i (.expr (.super ref method)) := (h.ready hv).placed
    have hformed := (setting (⟨s, bound, source⟩ :: us)).formed program hp
    have hfaultless := (setting (⟨s, bound, source⟩ :: us)).faultless program hp
    obtain ⟨-, -, -, -, -, hmem⟩ := super_recorded hformed hfaultless ho
    rw [h.known hv hp hmem]
    exact mem_entries_of_program hp hmem
  | _ => cases hr

end Turns

/-- However many programs and expressions are read one after another, and whatever comes of each,
all references in their trees have different identities, each from the counter's value at the
start of its reading on and below that at its end. In a session all references that scoping looks
up are different; of each the table has in the end, and whenever the next text runs, what scoping
came to for it; and that is what a run finds for the reference it evaluates. -/
theorem entries_unaliased :
    (∀ n ts program, (Grammar.readProgram n ts).result = .ok program →
      Grammar.programTree n ts = program) ∧
    (∀ n ts e, (Grammar.readExpression n ts).result = .ok e →
      Grammar.expressionTree n ts = some e) ∧
    (∀ n ps, ((Grammar.Parse.allReferences n ps).map (·.id)).Nodup ∧
      ∀ start, start ∈ Grammar.Parse.started n ps → ∀ r ∈ start.2.references start.1,
        start.1 ≤ r.id ∧ r.id < start.2.next start.1) ∧
    ∀ us s, Course us s → (∀ p ∈ entries us, s.machine.depths.get? p.1.id = p.2) ∧
      ∀ bound source, ((entries (⟨s, bound, source⟩ :: us)).map (·.1.id)).Nodup ∧
        ∀ t m, s.Visited bound source t m →
          (∀ p ∈ entries (⟨s, bound, source⟩ :: us), m.depths.get? p.1.id = p.2) ∧
          ∀ n i e r, t = .evaluate n i e → e.reference? = some r →
            (r, m.depths.get? r.id) ∈ entries (⟨s, bound, source⟩ :: us) := by
  refine ⟨fun _ _ _ => Grammar.programTree_of_ok, fun _ _ _ => Grammar.expressionTree_of_ok,
    fun n ps => ⟨(Grammar.Parse.ranged_all n ps).nodup, fun start _ r hr => ?_⟩, ?_⟩
  · exact (start.2.ranged start.1).mem r hr
  · intro us s hs
    refine ⟨hs.noted.known, fun bound source => ?_⟩
    have hnoted := hs.noted.next bound source
    have hnodup := hnoted.ranged.nodup
    rw [List.map_map] at hnodup
    refine ⟨hnodup, fun t m hv => ⟨?_, ?_⟩⟩
    · rw [depths_of_visited hv]
      exact hnoted.known
    · rintro n i e r rfl hr
      exact hs.entry hv hr

/-- The session behind a run of `localText`, which is then run again. -/
def laterSession : Session := (((start 0).run 3 localText).map (·.2)).getD (start 0)

def laterProgram : List Stmt :=
  [.block ([.var (.ofName "a" 1) none] ++ [.print (.var ⟨1, .ofName "a" 1⟩)])]

/-- The machine when it is run again, and when the variable is printed in the block. -/
def againMachine : Machine := (laterSession.prepared localText laterProgram).machine

def laterMachine : Machine :=
  let inner := againMachine.scopes.next
  { againMachine with
    scopes := (againMachine.scopes.push (some Machine.global)).define inner "a" .nil }

theorem accepted_later : laterSession.accepted? localText = some laterProgram := by
  cbv

theorem visited_later : laterSession.Visited 3 localText
    (.evaluate 1 againMachine.scopes.next (.var ⟨1, .ofName "a" 1⟩)) laterMachine :=
  ⟨[], _, [], _, accepted_later, rfl, .step (.inner rfl rfl) (.step .printed .self)⟩

theorem course_later : Course [⟨start 0, 3, localText⟩] laterSession := by
  have hrun : (start 0).run 3 localText = some (⟨.ok, []⟩, laterSession) := by cbv
  exact .run (.start 0) hrun

def localTokens : List Token := Scanned.tokens (scan localText)

def nameTokens : List Token := Scanned.tokens (scan "a")

/-- The variable of the block has another identity in each run, and the same depth. -/
theorem entries_unaliased_again :
    ((Grammar.readProgram 1 localTokens).result = .ok laterProgram ∧
      Grammar.programTree 1 localTokens = laterProgram) ∧
    ((Grammar.readExpression 1 nameTokens).result = .ok (.var ⟨1, .ofName "a" 1⟩) ∧
      Grammar.expressionTree 1 nameTokens = some (.var ⟨1, .ofName "a" 1⟩)) ∧
    ((2, .expression nameTokens) ∈
        Grammar.Parse.started 1 [.program localTokens, .expression nameTokens] ∧
      ∀ r ∈ Grammar.Parse.references 2 (.expression nameTokens), 2 ≤ r.id ∧ r.id < 3) ∧
    Course [⟨start 0, 3, localText⟩] laterSession ∧
    laterSession.Visited 3 localText
      (.evaluate 1 againMachine.scopes.next (.var ⟨1, .ofName "a" 1⟩)) laterMachine ∧
    (⟨1, .ofName "a" 1⟩, laterMachine.depths.get? 1) ∈
      entries [⟨laterSession, 3, localText⟩, ⟨start 0, 3, localText⟩] ∧
    laterMachine.depths.get? 0 = some 0 := by
  obtain ⟨hprogram, hexpression, hparses, hsession⟩ := entries_unaliased
  have hread : (Grammar.readProgram 1 localTokens).result = .ok laterProgram := by cbv
  have hread' : (Grammar.readExpression 1 nameTokens).result = .ok (.var ⟨1, .ofName "a" 1⟩) := by
    cbv
  have hnext : Grammar.Parse.next 1 (.program localTokens) = 2 := by cbv
  have hnext' : Grammar.Parse.next 2 (.expression nameTokens) = 3 := by cbv
  have hstarted : (2, .expression nameTokens) ∈
      Grammar.Parse.started 1 [.program localTokens, .expression nameTokens] := by
    simp [Grammar.Parse.started, hnext]
  have hparse := (hparses 1 [.program localTokens, .expression nameTokens]).2 _ hstarted
  rw [hnext'] at hparse
  obtain ⟨-, hlater⟩ := (hsession _ _ course_later).2 3 localText
  obtain ⟨hknown, hfound⟩ := hlater _ _ visited_later
  have hfirst : (⟨0, .ofName "a" 1⟩, some 0) ∈
      entries [⟨laterSession, 3, localText⟩, ⟨start 0, 3, localText⟩] := by
    have hprogram : localProgram ∈ programs [⟨laterSession, 3, localText⟩, ⟨start 0, 3, localText⟩] :=
      List.mem_flatMap.2 ⟨⟨start 0, 3, localText⟩, .tail _ (.head _),
        Option.mem_toList.2 accepted_local⟩
    exact mem_entries_of_program hprogram (by decide)
  exact ⟨⟨hread, hprogram _ _ _ hread⟩, ⟨hread', hexpression _ _ _ hread'⟩, ⟨hstarted, hparse⟩,
    course_later, visited_later, hfound _ _ _ _ rfl rfl, hknown _ hfirst⟩

end Session

end Lox
