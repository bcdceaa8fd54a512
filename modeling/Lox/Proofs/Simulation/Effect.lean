import Lox.Proofs.Simulation.Step

/-!
# Instances, output and the host in step

A method that is bound becomes a closure that can be called: the scope it is bound in has
`this`, as the scopes around its declaration promise.
-/

set_option autoImplicit false

namespace Lox

namespace Machine

theorem field?_push (m : Machine) (id : Nat) (name : String) :
    { m with instances := m.instances.push [] }.field? id name = m.field? id name := by
  unfold field?
  rw [Array.getElem?_push]
  split
  · rename_i h
    rw [h]
    simp [Names.get?]
  · rfl

theorem field?_modify_of_ne (m : Machine) {id other : Nat} {name field : String} (v : Value)
    (h : other ≠ id ∨ field ≠ name) :
    { m with instances := m.instances.modify id (Names.put name v) }.field? other field =
      m.field? other field := by
  unfold field?
  rw [Array.getElem?_modify]
  by_cases hid : id = other
  · subst hid
    have hn : field ≠ name := h.resolve_left fun hne => hne rfl
    rw [if_pos rfl]
    cases m.instances[id]? with
    | none => rfl
    | some ns => exact Names.get?_put_of_ne ns v hn
  · rw [if_neg hid]

theorem field?_modify_self (m : Machine) {id : Nat} (name : String) (v : Value) :
    { m with instances := m.instances.modify id (Names.put name v) }.field? id name =
      if id < m.instances.size then some v else none := by
  unfold field?
  rw [Array.getElem?_modify, if_pos rfl]
  by_cases hid : id < m.instances.size
  · rw [if_pos hid, Array.getElem?_eq_getElem hid]
    exact Names.get?_put_self _ name v
  · rw [if_neg hid, Array.getElem?_eq_none (Nat.le_of_not_lt hid)]
    rfl

/-- Fields that correspond still do when one of them is set on both machines. -/
theorem field?_modify_rel {R : Value → Value → Prop} {m m' : Machine}
    (hsize : m'.instances.size = m.instances.size)
    (hf : ∀ id name, Option.Rel R (m.field? id name) (m'.field? id name)) (id : Nat) (name : String)
    {v v' : Value} (hv : R v v') (other : Nat) (field : String) :
    Option.Rel R ({ m with instances := m.instances.modify id (Names.put name v) }.field? other field)
      ({ m' with instances := m'.instances.modify id (Names.put name v') }.field? other field) := by
  by_cases h : other = id ∧ field = name
  · obtain ⟨rfl, rfl⟩ := h
    rw [field?_modify_self, field?_modify_self, hsize]
    split
    · exact .some hv
    · exact .none
  · have hne : other ≠ id ∨ field ≠ name := by tauto
    rw [field?_modify_of_ne _ _ hne, field?_modify_of_ne _ _ hne]
    exact hf other field

end Machine

namespace Simulation

open Scoping

/-- Sealed functions of the host answer alike, also where there is none. -/
theorem answer_of_closed {hosts : Array Host} (hclosed : ∀ f ∈ hosts, Sealed f) (i : Nat)
    {vs vs' : List Value} (hvs : List.Forall₂ Alike vs vs') :
    Answer vs vs' ((hosts[i]?.getD fun _ => .ok .nil) vs) ((hosts[i]?.getD fun _ => .ok .nil) vs') := by
  cases h : hosts[i]? with
  | none => exact .plain rfl
  | some f => exact hclosed f (Array.mem_of_getElem? h) vs vs' hvs

variable {link : Link} {w : World} {blame : Blame} {α β : Type} {m m' : Machine}
  (hm : Match link w m m')

include hm

namespace Match

theorem newInstance {c c' : Class} (hc : ClassTwin link w c c') :
    Lockstep link w blame
      (fun w' v v' => ∃ id, v = .instance id c ∧ v' = .instance id c' ∧ ClassTwin link w' c c')
      (Run.newInstance c m) (Run.newInstance c' m') := by
  apply Lockstep.ok (.refl w)
  · exact {
      hm with
      size := by simp only [Array.size_push, hm.size]
      field id name := by
        rw [Machine.field?_push, Machine.field?_push]
        exact hm.field id name }
  · exact ⟨_, rfl, by rw [hm.size], hc⟩

theorem setField (id : Nat) (name : String) {v v' : Value} (hv : ValueTwin link w v v') :
    Lockstep link w blame (fun _ _ _ => True) (Run.setField id name v m)
      (Run.setField id name v' m') := by
  apply Lockstep.ok (.refl w) _ trivial
  exact {
    hm with
    size := by simp only [Array.size_modify, hm.size]
    field := Machine.field?_modify_rel hm.size hm.field id name hv }

theorem bindMethod {c c' : Closure} (hc : MethodTwin link w c c') {self self' : Value}
    (hself : ValueTwin link w self self') :
    Lockstep link w blame
      (fun w' b b' => CallableTwin link w' b b' ∧ b.declaration = c.declaration)
      (Run.bindMethod c self m) (Run.bindMethod c' self' m') := by
  obtain ⟨rs, fs, hs, hmod, ht⟩ := hc.declared
  unfold Run.bindMethod
  rw [hc.scope]
  apply Lockstep.bind (hm.newScope hmod link.keep)
  intro w1 i i' n n' _ hw1 hn h1
  obtain ⟨rfl, hmod1⟩ := h1
  apply Lockstep.bind (hn.define hmod1 rfl (hself.mono hw1))
  intro w2 _ _ n2 n2' _ hw2 hn2 hthis
  apply hn2.pure
  apply And.intro _ rfl
  exact {
    scope := rfl
    isInitializer := hc.isInitializer
    declared := ⟨.keep :: rs, [("this", true)] :: fs, hs.single "this",
      (hmod1.mono hw2).define hthis, ht⟩
    this := fun _ => hthis }

theorem property (id : Nat) {c c' : Class} (hc : ClassTwin link w c c') {name name' : Token}
    (hn : TokenTwin link name name') :
    Lockstep link w blame (ValueTwin link) (Run.property id c name m)
      (Run.property id c' name' m') := by
  have hf := hm.field id name.lexeme
  have hmethod := hc.findMethod? name.lexeme
  apply Lockstep.bind_get
  rw [hn.lexeme]
  unfold Machine.field? at hf
  generalize m.instances[id]?.bind (·.get? name.lexeme) = o,
    m'.instances[id]?.bind (·.get? name.lexeme) = o' at hf
  generalize c.findMethod? name.lexeme = p, c'.findMethod? name.lexeme = p' at hmethod
  cases hf with
  | some hv => exact hm.pure hv
  | none =>
    cases hmethod with
    | none => exact hm.refuse hn.line _ nofun
    | some hmethod =>
      apply Lockstep.bind (hm.bindMethod hmethod (.instance hc))
      intro w' f f' n n' _ _ hn hf
      exact hn.newFunction hf.1

theorem printLine (s : String) :
    Lockstep link w blame (fun _ _ _ => True) (Run.printLine s m) (Run.printLine s m') := by
  unfold Run.printLine
  rw [hm.sink]
  split
  · exact .ok (.refl w) { hm with sink := rfl } trivial
  · exact .fault (.sink _) (fun _ _ h => by cases h) hm
  · exact .ok (.refl w) { hm with sink := rfl } trivial

theorem callHost (f : HostFunction) {vs vs' : List Value}
    (hvs : List.Forall₂ (ValueTwin link w) vs vs') {paren paren' : Token}
    (hp : TokenTwin link paren paren') :
    Lockstep link w blame (ValueTwin link) (Run.callHost f vs paren m)
      (Run.callHost f vs' paren' m') := by
  unfold Run.callHost
  cases f.code with
  | clock =>
    show Lockstep link w blame (ValueTwin link) (.ok (.number (Number.ofDecimal false m.clock (-6))) _)
      (.ok (.number (Number.ofDecimal false m'.clock (-6))) _)
    rw [hm.clock]
    exact .ok (.refl w) { hm with clock := rfl } (.plain rfl)
  | given i =>
    have ha := answer_of_closed hm.closed i (hvs.imp fun _ _ hv => hv.alike)
    simp only [hm.hosts]
    generalize (m.hosts[i]?.getD fun _ => .ok .nil) vs = r,
      (m.hosts[i]?.getD fun _ => .ok .nil) vs' = r' at ha
    cases ha with
    | message s => exact hm.refuse hp.line _ nofun
    | plain hv => exact .ok (.refl w) hm (.plain hv)
    | argument hv hv' =>
      obtain ⟨hi, rfl⟩ := List.getElem?_eq_some_iff.1 hv
      obtain ⟨hi', rfl⟩ := List.getElem?_eq_some_iff.1 hv'
      exact .ok (.refl w) hm (hvs.get hi hi')

theorem checkArity {f f' : Value} (hf : ValueTwin link w f f') {vs vs' : List Value}
    (hvs : List.Forall₂ (ValueTwin link w) vs vs') {paren paren' : Token}
    (hp : TokenTwin link paren paren') :
    Lockstep link w blame (fun _ _ _ => f.arity? = some vs.length)
      (Evaluation.checkArity f vs paren m) (Evaluation.checkArity f' vs' paren' m') := by
  unfold Evaluation.checkArity
  rw [hf.arity?, ← hvs.length_eq]
  cases f.arity? with
  | none => exact hm.refuse hp.line _ nofun
  | some n =>
    by_cases hn : vs.length = n
    · simp only [hn, if_true]
      exact hm.pure trivial
    · simp only [hn, if_false]
      exact hm.refuse hp.line _ nofun

end Match

end Simulation

end Lox
