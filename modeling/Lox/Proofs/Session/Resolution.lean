import Mathlib
import Lox.Proofs.Session.History
import Lox.Proofs.Simulation.Typed

/-!
# Scoping and evaluation agree

Whenever a run looks a name up, scoping has recorded the depth that the machine has noted
for it. With a depth, the scope so many links up is there and binds the name, unless the
name is being assigned to in the initializer of its own declaration. Without one, the global
scope alone is read and changed, and only there a variable can turn out to be undefined.
-/

set_option autoImplicit false

namespace Lox.Session

open Scoping Simulation Evaluation

/-- `s.Visited bound source t m`: the run of the text comes to task `t`, on machine `m`. -/
def Visited (s : Session) (bound : Nat) (source : String) (t : Task) (m : Machine) : Prop :=
  ∃ before stmt after m₀, s.accepted? source = some (before ++ stmt :: after) ∧
    Evaluation.program bound before
      (s.prepared source (before ++ stmt :: after)).machine = .ok () m₀ ∧
    Visits (.execute bound Machine.global stmt) m₀ t m

/-- The expression assigns to a variable in the initializer of its declaration, which has
come to be executed in scope `i`. -/
structure InOwnInitializer (visited : Task → Machine → Prop) (i : Nat) (e : Expr)
    (name : String) : Prop where
  inner : i ≠ Machine.global
  assigns : ∃ r v, e = .assign r v
  declared : ∃ n x init m, visited (.execute n i (.var x (some init))) m ∧ x.lexeme = name ∧
    e.Inside init

/-- The run comes to look up a name without a known depth while it is not global. -/
def MissesGlobal (s : Session) (bound : Nat) (source : String) (line : Nat) (name : String) : Prop :=
  ∃ n scope e r m, s.Visited bound source (.evaluate n scope e) m ∧ looksUp e = some r ∧
    r.name.line = line ∧ r.name.lexeme = name ∧ m.depths.get? r.id = none ∧
    m.scopes.own? Machine.global name = none

/-- What the reference names is looked for in the global scope only. -/
structure GlobalOnly (scope : Nat) (r : Reference) (m : Machine) : Prop where
  read : Run.read scope r m = Run.found r.name (m.scopes.own? Machine.global r.name.lexeme) m
  write (v : Value) : Run.write scope r v m =
    (match m.scopes.own? Machine.global r.name.lexeme with
      | some _ => Run.define Machine.global r.name.lexeme v
      | none => Run.fail r.name (.undefinedVariable r.name.lexeme)) m

theorem globalOnly {r : Reference} {m : Machine} (h : m.depths.get? r.id = none) (scope : Nat) :
    GlobalOnly scope r m where
  read := by
    unfold Run.read
    rw [h, Machine.global, Scopes.get?_global]
  write v := by
    unfold Run.write Machine.target?
    rw [h, Machine.global, Scopes.holder?_global]
    cases m.scopes.own? 0 r.name.lexeme <;> rfl

variable {ps : List (List Stmt)} {s : Session} {bound : Nat} {source : String}

theorem History.typed (hs : History ps s) {t : Task} {m : Machine}
    (hv : s.Visited bound source t m) :
    Typed (.exact (recorded ((s.accepted? source).toList ++ ps)))
      (fun i x init => ∃ n m, s.Visited bound source (.execute n i (.var x (some init))) m) t m := by
  obtain ⟨before, stmt, after, m₀, ha, hb, hv⟩ := hv
  obtain ⟨w, hm⟩ := hs.coherent.prepared ha
  have hself : Twin (.exact (recorded ((before ++ stmt :: after) :: ps))) [] []
      (.stmts (before ++ stmt :: after)) (.stmts (before ++ stmt :: after)) :=
    twin_of_accepted ha fun p hp => ⟨_, List.mem_cons_self, hp⟩
  rw [ha]
  apply Typed.visited hv (hm.programBefore hself hb)
  intro n scope x init m₂ hv
  exact ⟨n, m₂, before, stmt, after, m₀, ha, hb, hv⟩

/-- Every lookup finds what scoping recorded. -/
theorem History.lookup (hs : History ps s) {n scope : Nat} {e : Expr} {r : Reference} {m : Machine}
    (hv : s.Visited bound source (.evaluate n scope e) m) (hr : looksUp e = some r) {d : Nat}
    (hd : m.depths.get? r.id = some d) :
    ∃ a, m.scopes.ancestor? d scope = some a ∧
      ((∃ v, m.scopes.own? a r.name.lexeme = some v ∧ Run.read scope r m = .ok v m) ∨
        a = scope ∧ InOwnInitializer (s.Visited bound source) scope e r.name.lexeme) := by
  obtain ⟨a, ha, hown⟩ := ((hs.typed hv).lookup hr).2 d hd
  refine ⟨a, ha, ?_⟩
  rcases hown with hown | ⟨ha, hinner, ⟨v, he⟩, x, init, ⟨n, m, hx⟩, hname, hin⟩
  · obtain ⟨v, hown⟩ := Option.isSome_iff_exists.1 hown
    refine .inl ⟨v, hown, ?_⟩
    unfold Run.read Run.getAt Scopes.getAt?
    simp only [hd, ha, Option.bind_some, hown]
  · exact .inr ⟨ha, hinner, ⟨r, v, he⟩, n, x, init, m, hx, hname, hin⟩

theorem fault_of_concluded {x : Except Diagnostic Unit} {t s' : Session} {line : Nat}
    {cause : RuntimeCause}
    (h : concluded (x, t) = (⟨.runtimeError, [.runtime line cause]⟩, s')) :
    x = .error (.runtime line cause) := by
  have hreport := congrArg Prod.fst h
  simp only [concluded] at hreport
  split at hreport
  · injection hreport with _ hd
    cases hd
  · cases x with
    | ok => cases hreport
    | error d =>
      injection hreport with _ hd
      injection hd with hd
      rw [hd]

theorem perform_error {α : Type} {p : Run α} {t : Session} {x : Except Diagnostic α}
    {d : Diagnostic} (h : s.perform p = some (x, t)) (hx : x = .error d) :
    p s.machine = .error (.fault d) t.machine := by
  subst hx
  unfold perform at h
  split at h
  · cases h
  · rename_i hp
    cases h
    exact hp
  · cases h

/-- A run that ends with an undefined variable has looked it up. -/
theorem History.undefined (hs : History ps s) {line : Nat} {name : String} {s' : Session}
    (hr : s.run bound source = some (⟨.runtimeError, [.runtime line (.undefinedVariable name)]⟩, s')) :
    s.MissesGlobal bound source line name := by
  cases ha : s.accepted? source with
  | none =>
    rw [run_of_rejected bound ha] at hr
    cases hr
  | some program =>
    rw [run_of_accepted bound ha] at hr
    obtain ⟨⟨x, t⟩, hp, he⟩ := Option.map_eq_some_iff.1 hr
    obtain ⟨w, hm⟩ := hs.coherent.prepared ha
    have hself : Twin (.exact (recorded (program :: ps))) [] [] (.stmts program) (.stmts program) :=
      twin_of_accepted ha fun p hp => ⟨program, List.mem_cons_self, hp⟩
    have hrun : Lockstep (.exact (recorded (program :: ps))) w (s.MissesGlobal bound source)
        (fun _ _ _ => True) (Evaluation.program bound program (s.prepared source program).machine)
        (Evaluation.program bound program (s.prepared source program).machine) := by
      apply hm.program hself
      rintro before stmt after m₁ rfl hb line name ⟨n, scope, e, r, m, hv, hculprit⟩
      exact ⟨n, scope, e, r, m, ⟨before, stmt, after, m₁, ha, hb, hv⟩, hculprit⟩
    rw [perform_error hp (fault_of_concluded he)] at hrun
    cases hrun with
    | fault _ hb _ => exact hb line name rfl

/-- Scoping and evaluation agree in every run of every history. -/
theorem lookups_agree (hs : History ps s) (bound : Nat) (source : String) :
    (∀ n scope e r m, s.Visited bound source (.evaluate n scope e) m → looksUp e = some r →
      recorded ((s.accepted? source).toList ++ ps) r (m.depths.get? r.id) ∧
      (∀ d, m.depths.get? r.id = some d → ∃ a, m.scopes.ancestor? d scope = some a ∧
        ((∃ v, m.scopes.own? a r.name.lexeme = some v ∧ Run.read scope r m = .ok v m) ∨
          a = scope ∧ InOwnInitializer (s.Visited bound source) scope e r.name.lexeme)) ∧
      (m.depths.get? r.id = none →
        ∀ m', m'.depths = m.depths → GlobalOnly scope r m')) ∧
    ∀ line name s', s.run bound source =
        some (⟨.runtimeError, [.runtime line (.undefinedVariable name)]⟩, s') →
      s.MissesGlobal bound source line name := by
  refine ⟨?_, fun line name s' hr => hs.undefined hr⟩
  intro n scope e r m hv hr
  refine ⟨((hs.typed hv).lookup hr).1, fun d hd => hs.lookup hv hr hd, ?_⟩
  intro hnone m' hm'
  exact globalOnly (by rw [hm', hnone]) scope

/-- In a block the variable is looked up in the block's own scope. -/
def localText : String := "\x7b var a; print a; \x7d"

def localProgram : List Stmt :=
  [.block ([.var (.ofName "a" 1) none] ++ [.print (.var ⟨0, .ofName "a" 1⟩)])]

/-- The machine when the variable is printed. -/
def localMachine : Machine :=
  let m := ((start 0).prepared localText localProgram).machine
  { m with scopes := (m.scopes.push (some Machine.global)).define 1 "a" .nil }

theorem accepted_local : (start 0).accepted? localText = some localProgram := by
  cbv

theorem visited_local : (start 0).Visited 3 localText (.evaluate 1 1 (.var ⟨0, .ofName "a" 1⟩))
    localMachine :=
  ⟨[], _, [], _, accepted_local, rfl, .step (.inner rfl rfl) (.step .printed .self)⟩

theorem lookups_agree_local : ∃ a v, localMachine.scopes.ancestor? 0 1 = some a ∧
    localMachine.scopes.own? a "a" = some v := by
  have hdepth : localMachine.depths.get? 0 = some 0 := rfl
  obtain ⟨-, hfound, -⟩ := (lookups_agree (.start 0) 3 localText).1 _ _ _ _ _ visited_local rfl
  obtain ⟨a, ha, ⟨v, hv, -⟩ | ⟨-, hown⟩⟩ := hfound 0 hdepth
  · exact ⟨a, v, ha, hv⟩
  · obtain ⟨r, v, he⟩ := hown.assigns
    cases he

end Lox.Session
