import Lox.Proofs.Placement.Receiver
import Lox.Proofs.Session.Super

/-!
# The receiver of a method

A method value is had from a property of an instance or through `super`. It may be called in
any later turn, and its body may declare functions that are called later still. Main
statement: wherever `this` is evaluated in all that, it is the receiver that the method was
had with.
-/

set_option autoImplicit false

namespace Lox.Session

open Scoping Evaluation Placement

/-- In one of the turns `v` was had as a method of an instance: as a property that is no field
of the instance, or through `super`, where the instance is the one that `this` means. -/
inductive Obtained (us : List Turn) (v : Value) : Value → Prop
  | property {u : Turn} {n scope id : Nat} {e : Expr} {name : Token} {c : Class}
      {m m₁ m₂ : Machine} (hu : u ∈ us)
      (hv : u.Visited (.evaluate (n + 1) scope (.get e name)) m)
      (he : Evaluation.evaluate n scope e m = .ok (.instance id c) m₁)
      (hf : m₁.field? id name.lexeme = none)
      (hr : Evaluation.evaluate (n + 1) scope (.get e name) m = .ok v m₂) :
      Obtained us v (.instance id c)
  | super {u : Turn} {n scope : Nat} {ref : Reference} {name : Token} {self : Value}
      {m m₁ : Machine} (hu : u ∈ us)
      (hv : u.Visited (.evaluate (n + 1) scope (.super ref name)) m)
      (hthis : m.scopes.get? scope "this" = some self)
      (hr : Evaluation.evaluate (n + 1) scope (.super ref name) m = .ok v m₁) :
      Obtained us v self

/-- In one of the turns a call of `v` starts the statement `t` of the body. -/
def Calls (us : List Turn) (v : Value) (t : Task) (m : Machine) : Prop :=
  ∃ u ∈ us, ∃ n scope callee paren es m₀ m₁,
    u.Visited (.evaluate (n + 1) scope (.call callee paren es)) m₀ ∧
    Evaluation.evaluate n scope callee m₀ = .ok v m₁ ∧
    Spawns (.evaluate (n + 1) scope (.call callee paren es)) m₀ t m ∧ t.isExpression = false

/-- Task `t` is run in an activation of `v`: in the body, or in that of a function whose
declaration is executed there, at any depth, and which is called at any time. -/
inductive Activates (us : List Turn) (v : Value) : Task → Machine → Prop
  | body {t : Task} {m : Machine} (h : Calls us v t m) : Activates us v t m
  | part {t t' : Task} {m m' : Machine} (h : Activates us v t m) (hs : Spawns t m t' m')
      (hc : t.isExpression = true → t'.isExpression = true) : Activates us v t' m'
  | function {n scope : Nat} {f : Function} {t : Task} {m m' : Machine}
      (h : Activates us v (.execute (n + 1) scope (.function f)) m)
      (hc : Calls us (.function m.serial ⟨f, scope, false⟩) t m') : Activates us v t m'

/-- The machine that the run of a text leaves. -/
def ended (s : Session) (bound : Nat) (source : String) : Machine :=
  match s.accepted? source with
  | some p => Run.left (Evaluation.program bound p (s.prepared source p).machine)
  | none => s.machine

section Turns

variable {us : List Turn} {s : Session} {bound : Nat} {source : String} {t : Task} {m : Machine}

theorem grows_ended (hs : Sane (setting (⟨s, bound, source⟩ :: us)) s.machine) :
    s.machine.Grows (s.ended bound source) := by
  unfold ended
  cases ha : s.accepted? source with
  | none => exact .refl _
  | some program =>
    rw [← List.append_nil program] at ha
    have hgrows := (orderly_program hs ha).ends.grows_left
    rw [List.append_nil] at hgrows
    have hsame : s.machine.Grows (s.prepared source program).machine := .same rfl rfl
    exact hsame.trans hgrows

theorem visited_ended (hs : Sane (setting (⟨s, bound, source⟩ :: us)) s.machine)
    (hv : s.Visited bound source t m) : (t.left m).Grows (s.ended bound source) := by
  obtain ⟨before, stmt, after, m₀, ha, hb, hv⟩ := hv
  have ha' : s.accepted? source = some ((before ++ stmt :: after) ++ []) := by
    rw [List.append_nil, ha]
  have horderly := orderly_program hs ha'
  rw [List.append_nil] at horderly
  obtain ⟨hg, hl⟩ := horderly.started (.execute bound Machine.global stmt, m₀)
    (mem_startedProgram.2 ⟨before, stmt, after, m₀, rfl, hb, rfl⟩)
  obtain ⟨-, hs₀, -⟩ := (orderly_program hs ha).ends.of_ok hb
  unfold ended
  rw [ha]
  exact ((ready_statement ha hb hs₀).visited_grows hv).trans hl

theorem ended_run {s' : Session} {report : Report} (hr : s.run bound source = some (report, s')) :
    (s.ended bound source).Grows s'.machine := by
  unfold ended
  cases ha : s.accepted? source with
  | none =>
    rw [run_of_rejected bound ha] at hr
    cases hr
    exact .same rfl rfl
  | some program =>
    rw [run_of_accepted bound ha] at hr
    obtain ⟨⟨x, s₁⟩, hp, he⟩ := Option.map_eq_some_iff.1 hr
    cases he
    exact left_of_perform hp ▸ .refl _

end Turns

namespace Course

variable {us : List Turn} {s : Session} {u : Turn} {t : Task} {m : Machine}

theorem sane_turn (h : Course us s) (bound : Nat) (source : String) :
    Sane (setting (⟨s, bound, source⟩ :: us)) s.machine :=
  h.sane.within (within_cons ⟨s, bound, source⟩ us)

/-- The session of a turn came after some turns itself. -/
theorem before (h : Course us s) (hu : u ∈ us) : ∃ us', Course us' u.session := by
  induction h with
  | start now => cases hu
  | run h _ ih =>
    rcases List.mem_cons.1 hu with rfl | hu
    · exact ⟨_, h⟩
    · exact ih hu
  | takeLines _ ih | setRoom _ _ ih | setFlushFails _ _ ih | defineGiven _ _ _ _ ih => exact ih hu

/-- All that was visited in the turns ended before the session. -/
theorem later (h : Course us s) (hu : u ∈ us) (hv : u.Visited t m) :
    (t.left m).Grows s.machine := by
  induction h with
  | start now => cases hu
  | @run us s s' bound source report h hr ih =>
    rcases List.mem_cons.1 hu with rfl | hu
    · exact (visited_ended (h.sane_turn bound source) hv).trans (ended_run hr)
    · exact ((ih hu).trans (grows_ended (h.sane_turn bound source))).trans (ended_run hr)
  | takeLines _ ih | setRoom _ _ ih | setFlushFails _ _ ih =>
    exact (ih hu).trans (.same rfl rfl)
  | @defineGiven us s _ name arity code hc ih =>
    let f : HostFunction := ⟨name, arity, .given s.machine.hosts.size⟩
    have hdefined : (t.left m).Grows (s.machine.defineHost f) :=
      ((ih hu).define (.host s.machine.serial f) (.inr (.inl rfl))).trans (.same rfl rfl)
    exact hdefined.trans (.same rfl rfl)

/-- Where `this` is evaluated it comes to what the scopes around it have for it. -/
theorem atThis (h : Course us s) {bound n scope : Nat} {source : String} {ref : Reference}
    (hv : s.Visited bound source (.evaluate (n + 1) scope (.this ref)) m) :
    ∃ self, m.scopes.get? scope "this" = some self ∧
      Evaluation.evaluate (n + 1) scope (.this ref) m = .ok self m := by
  obtain ⟨program, hp, p, ho, hc⟩ : Stands _ m scope (.expr (.this ref)) := (h.ready hv).placed
  have hformed := (setting (⟨s, bound, source⟩ :: us)).formed program hp
  have hfaultless := (setting (⟨s, bound, source⟩ :: us)).faultless program hp
  obtain ⟨f, x, r, q, hhome, hlookup⟩ := this_recorded hformed hfaultless ho
  obtain ⟨b, id, c, j, k, ms, hb, hr, hthis, -⟩ := hc.receiver hhome
  have hname : ref.name.lexeme = "this" := (walked_of_occurs hformed ho).1
  refine ⟨.instance id c, hthis, ?_⟩
  show Run.read scope ref m = _
  unfold Run.read
  simp only [h.known hv hp hlookup]
  exact Run.getAt_eq hb (hname ▸ hr.this)

end Course

section Activations

variable {us : List Turn} {s : Session} {bound : Nat} {source : String} (hs : Course us s)

include hs

/-- All that is visited in the turns is ready, and ends before the end of the last turn. -/
theorem Course.turn {u : Turn} (hu : u ∈ ⟨s, bound, source⟩ :: us) {t : Task} {m : Machine}
    (hv : u.Visited t m) :
    ∃ us', Course us' u.session ∧ Ready (setting (u :: us')) t m ∧
      (t.left m).Grows (s.ended bound source) := by
  rcases List.mem_cons.1 hu with rfl | hu
  · exact ⟨us, hs, hs.ready hv, visited_ended (hs.sane_turn bound source) hv⟩
  · obtain ⟨us', h⟩ := hs.before hu
    exact ⟨us', h, h.ready hv, (hs.later hu hv).trans (grows_ended (hs.sane_turn bound source))⟩

theorem Calls.ordinary {id : Nat} {f : Closure} {t : Task} {m : Machine}
    (h : Calls (⟨s, bound, source⟩ :: us) (.function id f) t m) :
    (∃ u ∈ ⟨s, bound, source⟩ :: us, u.Visited t m) ∧ Ordinary m t.scope f.scope := by
  obtain ⟨u, hu, n, scope, callee, paren, es, m₀, m₁, hv, hf, hsp, ht⟩ := h
  refine ⟨⟨u, hu, Visited.spawned hv hsp⟩, ?_⟩
  obtain ⟨us', -, hready, -⟩ := hs.turn hu hv
  cases t with
  | evaluate => cases ht
  | execute k inner stmt => exact hready.entered hf hsp
  | loop => cases hsp

/-- All that is run in an activation stays inside the scope of the method. -/
theorem Activates.under {id : Nat} {f : Closure} {t : Task} {m : Machine}
    (h : Activates (⟨s, bound, source⟩ :: us) (.function id f) t m) :
    (∃ u ∈ ⟨s, bound, source⟩ :: us, u.Visited t m) ∧ Under m f.scope t.scope := by
  induction h with
  | body h =>
    obtain ⟨hv, ho⟩ := h.ordinary hs
    exact ⟨hv, .base ho⟩
  | part _ hsp hc ih =>
    obtain ⟨⟨u, hu, hv⟩, hunder⟩ := ih
    obtain ⟨us', -, hready, -⟩ := hs.turn hu hv
    exact ⟨⟨u, hu, Visited.spawned hv hsp⟩, hready.spawned_under hsp hc hunder⟩
  | function _ hc ih =>
    -- at the end of the turns the scope of the declaration is what it was in the declaration,
    -- and so it was when the function was called
    obtain ⟨⟨u, hu, hv⟩, hunder⟩ := ih
    obtain ⟨⟨u', hu', hv'⟩, ho⟩ := hc.ordinary hs
    obtain ⟨us₁, -, hready, hg⟩ := hs.turn hu hv
    obtain ⟨us₂, -, hready', hg'⟩ := hs.turn hu' hv'
    have hlast := (hunder.grow (hready.grows_left.trans hg)).back (hready'.grows_left.trans hg')
      (ho.lt.trans (Scopes.lt_next_of_enclosing ho.enclosing))
    exact ⟨⟨u', hu', hv'⟩, .step ho hlast⟩

/-- The scope of a method that was had holds the receiver for good. -/
theorem Obtained.receiver {v self : Value} (h : Obtained (⟨s, bound, source⟩ :: us) v self) :
    ∃ id f, v = .function id f ∧ f.scope ≠ Machine.global ∧
      (s.ended bound source).scopes.own? f.scope "this" = some self := by
  -- the machine on which the method is bound, and the one that this leaves
  obtain ⟨m, c, name, m', hbound, hglobal, hg⟩ : ∃ (m : Machine) (c : Class) (name : Token)
      (m' : Machine), m.bound c self name = .ok v m' ∧ Machine.global < m.scopes.next ∧
        m'.Grows (s.ended bound source) := by
    cases h with
    | @property u n scope id e name c m m₁ m₂ hu hv he hf hr =>
      obtain ⟨us', -, hready, hg⟩ := hs.turn hu hv
      have hst : Stands _ m scope (.expr (.get e name)) := hready.placed
      obtain ⟨-, hs₁, -⟩ := hready.first (preserves _ n) .object hst (by simp [Node.children]) he
      have hproperty := (Run.bind_ok he).symm.trans hr
      have hleft : Task.left (.evaluate (n + 1) scope (.get e name)) m = m₂ := congrArg Run.left hr
      exact ⟨m₁, c, name, m₂, (property_eq hf).symm.trans hproperty, hs₁.global, hleft ▸ hg⟩
    | @super u n scope ref name _ m m₁ hu hv hthis hr =>
      obtain ⟨us', hcourse, hready, hg⟩ := hs.turn hu hv
      obtain ⟨_, _, _, _, _, _, _, _, _, c, _, _, self', own, _, _, -, -, -, -, -, -, -, hget, heq⟩ :=
        hcourse.atSuper hv
      rw [hthis] at hget
      obtain rfl := Option.some.inj hget
      have hleft : Task.left (.evaluate (n + 1) scope (.super ref name)) m = m₁ :=
        congrArg Run.left hr
      exact ⟨m, c, name, m₁, heq.symm.trans hr, hready.sane.global, hleft ▸ hg⟩
  obtain ⟨id, f, rfl, hscope, hown⟩ := scope_of_bound hbound
  have hne : f.scope ≠ Machine.global := by
    rw [hscope]
    exact Nat.ne_of_gt hglobal
  have hlt := Scopes.lt_next_of_own (by rw [hown]; rfl)
  exact ⟨id, f, rfl, hne, (hg.reserved f.scope "this" (by simp [reservedNames]) hne hlt).trans hown⟩

/-- Whatever became of the method value in the meantime, wherever it was called from, and however
deep the functions are that were declared in its body: `this` comes to the receiver that the
method was had with. -/
theorem this_receiver {v self : Value} (ho : Obtained (⟨s, bound, source⟩ :: us) v self)
    {n scope : Nat} {ref : Reference} {m : Machine}
    (ha : Activates (⟨s, bound, source⟩ :: us) v (.evaluate (n + 1) scope (.this ref)) m) :
    Evaluation.evaluate (n + 1) scope (.this ref) m = .ok self m := by
  obtain ⟨id, f, rfl, hne, hown⟩ := ho.receiver hs
  obtain ⟨⟨u, hu, hv⟩, hunder⟩ := ha.under hs
  obtain ⟨us', hcourse, hready, hg⟩ := hs.turn hu hv
  have hkept := (hready.grows_left.trans hg).reserved f.scope "this" (by simp [reservedNames]) hne
    (hunder.lt.trans hunder.lt_next)
  obtain ⟨self', hget, heval⟩ := hcourse.atThis hv
  have hthis : m.scopes.get? scope "this" = some self := hunder.this (hkept.symm.trans hown)
  rw [hthis] at hget
  rw [heval, Option.some.inj hget]

end Activations

/-- A method declares a function, and calls it. -/
def thisText : String := "class A \x7b m() \x7b fun f() \x7b this; \x7d f(); \x7d \x7d A().m();"

def thisExpr : Expr := .this ⟨0, ⟨.word .this, "this", 1⟩⟩

def thisFunction : Function := .mk (.ofName "f" 1) [] [.expression thisExpr]

def innerCall : Expr := .call (.var ⟨1, .ofName "f" 1⟩) ⟨.mark .rightParen, ")", 1⟩ []

def thisMethod : Function :=
  .mk (.ofName "m" 1) [] [.function thisFunction, .expression innerCall]

def thisGet : Expr :=
  .get (.call (.var ⟨2, .ofName "A" 1⟩) ⟨.mark .rightParen, ")", 1⟩ []) (.ofName "m" 1)

def thisCall : Expr := .call thisGet ⟨.mark .rightParen, ")", 1⟩ []

def thisProgram : List Stmt :=
  [.class (.ofName "A" 1) none [thisMethod], .expression thisCall]

def thisClass : Class := ⟨⟨1, "A", [("m", ⟨thisMethod, 0, false⟩)]⟩, []⟩

def boundMethod : Closure := ⟨thisMethod, 1, false⟩

def innerFunction : Closure := ⟨thisFunction, 2, false⟩

def thisTurn : Turn := ⟨start 0, 9, thisText⟩

/-- The machine when the class is declared. -/
def thisMachine : Machine :=
  Run.left (Evaluation.program 9 [.class (.ofName "A" 1) none [thisMethod]]
    ((start 0).prepared thisText thisProgram).machine)

/-- The machine when the method is had. -/
def boundMachine : Machine := Run.left (Evaluation.evaluate 7 0 thisGet thisMachine)

/-- The machine when the body of the method is executed. -/
def methodMachine : Machine := Run.left (opened boundMethod [] boundMachine)

/-- The machine when the function is declared. -/
def functionMachine : Machine :=
  Run.left (Evaluation.execute 7 2 (.function thisFunction) methodMachine)

/-- The machine when the body of the function is executed. -/
def innerMachine : Machine := Run.left (opened innerFunction [] functionMachine)

theorem accepted_this : (start 0).accepted? thisText = some thisProgram := by cbv

theorem visited_thisCall : thisTurn.Visited (.evaluate 8 0 thisCall) thisMachine := by
  have hdeclared : Evaluation.program 9 [.class (.ofName "A" 1) none [thisMethod]]
      ((start 0).prepared thisText thisProgram).machine = .ok () thisMachine := by cbv
  exact ⟨[.class (.ofName "A" 1) none [thisMethod]], .expression thisCall, [], thisMachine,
    accepted_this, hdeclared, .step .expression .self⟩

theorem evaluate_thisGet :
    Evaluation.evaluate 7 0 thisGet thisMachine = .ok (.function 2 boundMethod) boundMachine := by
  cbv

theorem obtained_this : Obtained [thisTurn] (.function 2 boundMethod) (.instance 0 thisClass) := by
  have hobject : Evaluation.evaluate 6 0 (.call (.var ⟨2, .ofName "A" 1⟩)
      ⟨.mark .rightParen, ")", 1⟩ []) thisMachine =
        .ok (.instance 0 thisClass) { thisMachine with instances := #[[]] } := by cbv
  have hvisited : thisTurn.Visited (.evaluate 7 0 thisGet) thisMachine :=
    visited_thisCall.spawned .callee
  exact .property List.mem_cons_self hvisited hobject rfl evaluate_thisGet

theorem spawns_body (before : List Stmt) {stmt : Stmt} (after : List Stmt) {m : Machine}
    (hbody : thisMethod.body = before ++ stmt :: after)
    (hb : Evaluation.sequence (Evaluation.execute 7 2) before methodMachine = .ok .normal m) :
    Spawns (.evaluate 8 0 thisCall) thisMachine (.execute 7 2 stmt) m := by
  have hopened : opened boundMethod [] boundMachine = .ok 2 methodMachine := by cbv
  have hopens : Opens (.function 2 boundMethod) [] boundMachine 2 (before ++ stmt :: after)
      methodMachine := hbody ▸ .function hopened
  exact .body evaluate_thisGet rfl rfl hopens hb

theorem activates_this : Activates [thisTurn] (.function 2 boundMethod)
    (.evaluate 4 3 thisExpr) innerMachine := by
  have hdeclares := spawns_body [] [.expression innerCall] rfl rfl
  have hdeclared : Evaluation.sequence (Evaluation.execute 7 2) [.function thisFunction]
      methodMachine = .ok .normal functionMachine := by cbv
  have hcalls := spawns_body [.function thisFunction] [] rfl hdeclared
  have hcallee : Evaluation.evaluate 5 2 (.var ⟨1, .ofName "f" 1⟩) functionMachine =
      .ok (.function methodMachine.serial innerFunction) functionMachine := by cbv
  have hopened : opened innerFunction [] functionMachine = .ok 3 innerMachine := by cbv
  have hopens : Opens (.function methodMachine.serial innerFunction) [] functionMachine 3
      ([] ++ [.expression thisExpr]) innerMachine := .function hopened
  have hinner : Spawns (.evaluate 6 2 innerCall) functionMachine
      (.execute 5 3 (.expression thisExpr)) innerMachine := .body hcallee rfl rfl hopens rfl
  have hbody : Activates [thisTurn] (.function 2 boundMethod)
      (.execute 7 2 (.function thisFunction)) methodMachine :=
    .body ⟨thisTurn, List.mem_cons_self, _, _, _, _, _, _, _, visited_thisCall, evaluate_thisGet,
      hdeclares, rfl⟩
  have hvisited : thisTurn.Visited (.evaluate 6 2 innerCall) functionMachine :=
    (visited_thisCall.spawned hcalls).spawned .expression
  have hfunction : Activates [thisTurn] (.function 2 boundMethod)
      (.execute 5 3 (.expression thisExpr)) innerMachine :=
    .function hbody ⟨thisTurn, List.mem_cons_self, _, _, _, _, _, _, _, hvisited, hcallee, hinner,
      rfl⟩
  exact .part hfunction .expression fun _ => rfl

theorem this_receiver_inner :
    Evaluation.evaluate 4 3 thisExpr innerMachine = .ok (.instance 0 thisClass) innerMachine :=
  this_receiver (.start 0) obtained_this activates_this

end Lox.Session
