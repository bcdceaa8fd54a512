import Lox.Proofs.Placement.Evaluation

/-!
# Calls of initializers

A method in the table of a class is an initializer if it is named so. When one is called,
each parameter is bound to its argument and `this` to the receiver, and however the body
ends, the call comes to the receiver: what is bound to `this` never changes.
-/

set_option autoImplicit false

namespace Lox

/-- The outcome of a body that comes to `v` however it ends, unless it fails. -/
def Run.yielding (v : Value) : EStateM.Result Stop Machine Flow → EStateM.Result Stop Machine Value
  | .ok _ m => .ok v m
  | .error stop m => .error stop m

namespace Evaluation

/-- Parameters with different names keep the arguments that they are bound to. -/
theorem bound_of_defineAll {i : Nat} {ps : List Token} {vs : List Value} {m : Machine}
    (hi : i < m.scopes.next) (hlen : vs.length = ps.length) (hn : (ps.map (·.lexeme)).Nodup) :
    ∃ m', defineAll i ps vs m = .ok () m' ∧
      (∀ name ∉ ps.map (·.lexeme), m'.scopes.own? i name = m.scopes.own? i name) ∧
      List.Forall₂ (fun p v => m'.scopes.own? i p.lexeme = some v) ps vs := by
  induction ps generalizing vs m with
  | nil =>
    obtain rfl := List.length_eq_zero_iff.1 hlen
    exact ⟨m, rfl, fun _ _ => rfl, .nil⟩
  | cons p ps ih =>
    cases vs with
    | nil => cases hlen
    | cons v vs =>
      obtain ⟨hp, hn⟩ := List.nodup_cons.1 hn
      have hnext : (m.scopes.define i p.lexeme v).next = m.scopes.next := Scopes.next_define _ _ _ _
      obtain ⟨m', hd, hframe, hbound⟩ :=
        @ih vs { m with scopes := m.scopes.define i p.lexeme v } (hnext ▸ hi) (Nat.succ.inj hlen) hn
      refine ⟨m', hd, fun name hname => ?_, .cons ?_ hbound⟩
      · obtain ⟨hne, hname⟩ := not_or.1 (mt List.mem_cons.2 hname)
        exact (hframe name hname).trans (Scopes.own?_define_of_ne _ _ (.inr hne))
      · exact (hframe p.lexeme hp).trans (Scopes.own?_define_self _ _ _ hi)

theorem bound_of_opened {f : Closure} {vs : List Value} {m : Machine} (hlen : vs.length = f.arity)
    (hn : (f.declaration.params.map (·.lexeme)).Nodup) :
    ∃ i m', opened f vs m = .ok i m' ∧
      List.Forall₂ (fun p v => m'.scopes.own? i p.lexeme = some v) f.declaration.params vs := by
  have hi : m.scopes.next < (m.scopes.push (some f.scope)).next := by
    rw [Scopes.next_push]
    exact Nat.lt_succ_self _
  obtain ⟨m', hd, -, hbound⟩ :=
    @bound_of_defineAll _ _ _ { m with scopes := m.scopes.push (some f.scope) } hi hlen hn
  have hnew : Run.newScope f.scope m =
      .ok m.scopes.next { m with scopes := m.scopes.push (some f.scope) } := rfl
  exact ⟨_, m', (Run.bind_ok hnew).trans (Run.bind_ok hd), hbound⟩

end Evaluation

namespace Placement

open Scoping Evaluation

variable {S : Setting} {m m' : Machine}

theorem Method.initializes {f : Closure} (h : Method S m Function.initializerName f) :
    f.isInitializer = true := by
  rw [h.isInitializer, Function.isInitializer, h.name]
  exact beq_self_eq_true _

theorem Setting.wellScoped (S : Setting) {program : List Stmt} (hp : program ∈ S.programs) :
    WellScoped program := (faults_program (S.formed program hp)).1 (S.faultless program hp)

/-- No two parameters of a closure have the same name. -/
theorem Callable.params_nodup {f : Closure} (h : Callable S m f) :
    (f.declaration.params.map (·.lexeme)).Nodup := by
  have hnames : f.declaration.names.Nodup := by
    cases h with
    | function hp ho _ _ => exact (S.wellScoped hp).function ho
    | method _ hm =>
      obtain ⟨program, hp, p, x, r, ms, k, ho, hf, -, -⟩ := hm.placed
      exact (S.wellScoped hp).method ho _ hf
  exact (List.nodup_append.1 hnames).1

/-- An initializer has a receiver. -/
theorem Callable.receiver {f : Closure} (h : Callable S m f) (hi : f.isInitializer = true) :
    ∃ id c j, Receiver m f.scope id c j := by
  cases h with
  | function _ _ _ hf => rw [hf] at hi; cases hi
  | method hr _ => exact ⟨_, _, _, hr⟩

/-- An initializer that is looked up for an instance is bound to it. -/
theorem bound_initializer {c own : Class} {id : Nat} {name : Token} {v : Value}
    (hc : ValidClass S m c) (hname : name.lexeme = Function.initializerName)
    (hv : m.bound c (.instance id own) name = .ok v m') :
    ∃ k f, v = .function k f ∧ f.isInitializer = true ∧
      m'.scopes.own? f.scope "this" = some (.instance id own) := by
  unfold Machine.bound at hv
  rw [hname] at hv
  cases hf : c.findMethod? Function.initializerName with
  | none =>
    rw [hf] at hv
    cases hv
  | some f =>
    rw [hf] at hv
    cases hv
    exact ⟨_, _, rfl, (hc.initializer? hf).initializes, m.own?_enclose _ _ _⟩

theorem property_eq {id : Nat} {c : Class} {name : Token} (hf : m.field? id name.lexeme = none) :
    Run.property id c name m = m.bound c (.instance id c) name := by
  have hget : (get : Run Machine) m = .ok m m := rfl
  unfold Machine.field? at hf
  refine (Run.bind_ok hget).trans ?_
  simp only [hf]
  unfold Machine.bound
  cases c.findMethod? name.lexeme <;> rfl

section Calls

variable (exec : Nat → Stmt → Run Flow) {vs : List Value} (hs : Sane S m)
  (hvs : ∀ v ∈ vs, Valid S m v)

include hs hvs

/-- What an initializer comes to. -/
theorem enter_outcome {f : Closure} (hf : Callable S m f) (hi : f.isInitializer = true)
    (hlen : vs.length = f.arity) {id j : Nat} {c : Class} (hr : Receiver m f.scope id c j)
    (hb : ∀ i m', opened f vs m = .ok i m' →
      Ends S m' (ValidFlow S) (sequence (exec i) f.declaration.body m')) :
    ∃ i m', opened f vs m = .ok i m' ∧
      List.Forall₂ (fun p v => m'.scopes.own? i p.lexeme = some v) f.declaration.params vs ∧
      m'.scopes.get? i "this" = some (.instance id c) ∧
      enter exec f vs m =
        Run.yielding (.instance id c) (sequence (exec i) f.declaration.body m') := by
  obtain ⟨i, m', ho, hbound⟩ := bound_of_opened hlen hf.params_nodup
  obtain ⟨hg, -, hord, -⟩ := (Ends.opened hs hvs hf).of_ok ho
  refine ⟨i, m', ho, hbound, ?_, ?_⟩
  · rw [Scopes.get?_enclosing (hord.reserved "this" (by simp [reservedNames])) hord.enclosing]
    exact Scopes.get?_own (hr.grow hg).this
  · -- the receiver is read behind the body, and is still the same there
    rw [enter_eq, Run.bind_ok ho]
    have hends := hb i m' ho
    cases hbody : sequence (exec i) f.declaration.body m' with
    | error stop m'' => exact Run.bind_error hbody
    | ok flow m'' =>
      obtain ⟨hg', -, -⟩ := hends.of_ok hbody
      rw [Run.bind_ok hbody, if_pos hi]
      exact Run.getAt_eq rfl ((hr.grow hg).grow hg').this

/-- What the construction of an instance comes to, where there is an initializer. -/
theorem construct_outcome {c : Class} {init : Closure} (hc : ValidClass S m c)
    (hi : c.initializer? = some init) (hlen : vs.length = init.arity)
    (hb : ∀ i m', openedInitializer c init vs m = .ok i m' →
      Ends S m' (ValidFlow S) (sequence (exec i) init.declaration.body m')) :
    ∃ i m', openedInitializer c init vs m = .ok i m' ∧
      List.Forall₂ (fun p v => m'.scopes.own? i p.lexeme = some v) init.declaration.params vs ∧
      m'.scopes.get? i "this" = some (.instance m.instances.size c) ∧
      construct exec c vs m =
        Run.yielding (.instance m.instances.size c) (sequence (exec i) init.declaration.body m') := by
  let self : Value := .instance m.instances.size c
  let m₁ : Machine := { m with instances := m.instances.push [] }
  have hnew : Run.newInstance c m = .ok self m₁ := rfl
  have hbind : Run.bindMethod init self m₁ =
      .ok { init with scope := m₁.scopes.next } (m₁.enclose init.scope "this" self) := rfl
  obtain ⟨hg₁, hs₁, -, hself⟩ := (Ends.newInstance hs hc).of_ok hnew
  have hmethod := (hc.grow (.refl S) hg₁).initializer? hi
  obtain ⟨hg₂, hs₂, hcall, -⟩ := (Ends.bindMethod hs₁ hmethod hself).of_ok hbind
  have hr : Receiver (m₁.enclose init.scope "this" self) m₁.scopes.next m.instances.size c init.scope :=
    ⟨m₁.enclosing?_enclose "this" _ (hmethod.lt_next hs₁.global), m₁.own?_enclose _ _ _⟩
  have hopened {i : Nat} {m' : Machine}
      (ho : opened { init with scope := m₁.scopes.next } vs (m₁.enclose init.scope "this" self) =
        .ok i m') : openedInitializer c init vs m = .ok i m' :=
    (Run.bind_ok hnew).trans ((Run.bind_ok hbind).trans ho)
  obtain ⟨i, m', ho, hbound, hthis, henter⟩ :=
    enter_outcome exec hs₂ (fun v hv => (hvs v hv).later (hg₁.trans hg₂)) hcall
      hmethod.initializes hlen hr fun i m' ho => hb i m' (hopened ho)
  refine ⟨i, m', hopened ho, hbound, hthis, ?_⟩
  unfold construct
  rw [Run.bind_ok hnew]
  simp only [hi]
  refine (Run.bind_ok hbind).trans ?_
  cases hbody : sequence (exec i) init.declaration.body m' with
  | error stop m'' => exact Run.bind_error (henter.trans (congrArg (Run.yielding self) hbody))
  | ok flow m'' => exact Run.bind_ok (henter.trans (congrArg (Run.yielding self) hbody))

end Calls

end Placement

end Lox
