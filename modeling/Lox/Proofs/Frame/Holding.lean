import Lox.Proofs.Frame.Reach
import Lox.Proofs.Placement.Receiver

/-!
# What a computation has at hand

A computation has at hand the scope it runs in, the global one, what it makes, and whatever these
lead to. Main statement: if the operations, on things at hand, keep an invariant and bring only
such things to hand, then so does all that is evaluated or executed, however it ends, and all
that it comes to on the way.
-/

set_option autoImplicit false

namespace Lox

/-- All that the value leads to is at hand. -/
def Value.AtHand (H : Machine → Thing → Prop) (m : Machine) (v : Value) : Prop :=
  ∀ x, v.Refers x → H m x

def Flow.AtHand (H : Machine → Thing → Prop) (m : Machine) : Flow → Prop
  | .normal => True
  | .returned v => v.AtHand H m

/-- On machines with the invariant `I` the things of `H` are at hand: the operations on these keep
the invariant and lead to machines that are `L`, on which they still are at hand. -/
structure Holding (I : Machine → Prop) (H : Machine → Thing → Prop)
    (L : Machine → Machine → Prop) : Prop where
  refl (m : Machine) : L m m
  trans {m m' m'' : Machine} (h : L m m') (h' : L m' m'') : L m m''
  later {m m' : Machine} {x : Thing} (h : L m m') (hx : H m x) : H m' x
  global {m : Machine} (hm : I m) : H m (.scope Machine.global)
  refers {m : Machine} {x y : Thing} (hm : I m) (hx : H m x) (h : m.Refers x y) : H m y
  hosts {m : Machine} (hm : I m) : ∀ code ∈ m.hosts, Simulation.Sealed code
  same {m m' : Machine} (hm : I m) (hs : m'.scopes = m.scopes) (hi : m'.instances = m.instances)
    (hh : m'.hosts = m.hosts) : L m m' ∧ I m'
  push {m : Machine} {p : Nat} (hm : I m) (hp : H m (.scope p)) :
    let m' := { m with scopes := m.scopes.push (some p) }
    (L m m' ∧ I m') ∧ H m' (.scope m.scopes.next)
  bind {m : Machine} {i : Nat} {v : Value} (name : String) (hm : I m) (hi : H m (.scope i))
    (hv : v.AtHand H m) :
    let m' := { m with scopes := m.scopes.define i name v }
    L m m' ∧ I m'
  pushInstance {m : Machine} (hm : I m) :
    let m' := { m with instances := m.instances.push [] }
    (L m m' ∧ I m') ∧ H m' (.instance m.instances.size)
  put {m : Machine} {id : Nat} {v : Value} (name : String) (hm : I m) (hid : H m (.instance id))
    (hv : v.AtHand H m) :
    let m' := { m with instances := m.instances.modify id (Names.put name v) }
    L m m' ∧ I m'

/-- How a computation may end that started on the machine `m`: on a machine that is `L` and has
the invariant, with a value for which `Q` holds there, or with none. -/
inductive Holding.Ends (I : Machine → Prop) (L : Machine → Machine → Prop) (m : Machine) {α : Type}
    (Q : Machine → α → Prop) : EStateM.Result Stop Machine α → Prop
  | ok {a : α} {m' : Machine} (hl : L m m') (hm : I m') (ha : Q m' a) : Ends I L m Q (.ok a m')
  | error {stop : Stop} {m' : Machine} (hl : L m m') (hm : I m') : Ends I L m Q (.error stop m')

namespace Value.AtHand

variable {H : Machine → Thing → Prop} {m : Machine}

theorem plain {v : Value} (hv : v.plain = true) : v.AtHand H m :=
  fun x h => absurd h (Value.not_refers_of_plain hv x)

theorem function_iff {id : Nat} {f : Closure} :
    (Value.function id f).AtHand H m ↔ H m (.scope f.scope) := by
  constructor
  · exact fun h => h _ .closure
  · rintro h _ ⟨⟩
    exact h

theorem classOf {id : Nat} {c : Class} (h : (Value.instance id c).AtHand H m) :
    (Value.class c).AtHand H m := fun x hx => h x (.classOf hx)

theorem self {id : Nat} {c : Class} (h : (Value.instance id c).AtHand H m) : H m (.instance id) :=
  h _ .self

theorem instance_mk {id : Nat} {c : Class} (hid : H m (.instance id))
    (hc : (Value.class c).AtHand H m) : (Value.instance id c).AtHand H m := by
  rintro x (_ | _ | _ | h)
  · exact hid
  · exact hc x h

theorem findMethod? {c : Class} (h : (Value.class c).AtHand H m) {name : String} {f : Closure}
    (hf : c.findMethod? name = some f) : H m (.scope f.scope) := by
  obtain ⟨b, hb, hf⟩ := List.exists_of_findSome?_eq_some hf
  exact h _ (.method hb hf)

theorem derive {b : ClassBody}
    (hb : ∀ name f, b.methods.get? name = some f → H m (.scope f.scope)) {parent : Option Class}
    (hp : ∀ c ∈ parent, (Value.class c).AtHand H m) :
    (Value.class (.derive b parent)).AtHand H m := by
  intro x hx
  cases hx with
  | method hb' hf =>
    cases parent with
    | none =>
      obtain rfl := List.mem_singleton.1 hb'
      exact hb _ _ hf
    | some c =>
      rcases List.mem_cons.1 hb' with rfl | hb'
      · exact hb _ _ hf
      · exact hp c rfl _ (.method hb' hf)

end Value.AtHand

namespace Holding

open Evaluation

variable {I : Machine → Prop} {H : Machine → Thing → Prop} {L : Machine → Machine → Prop}
  {α β : Type} {m m' : Machine} {i : Nat} {P : Machine → α → Prop} {Q : Machine → β → Prop}

/-- What there is to know of the machine after a value was had. -/
theorem Ends.of_ok {p : Run α} {a : α} (h : Ends I L m P (p m)) (hp : p m = .ok a m') :
    L m m' ∧ I m' ∧ P m' a := by
  rw [hp] at h
  cases h with
  | ok hl hm ha => exact ⟨hl, hm, ha⟩

theorem Ends.left {r : EStateM.Result Stop Machine α} (h : Ends I L m P r) :
    L m (Run.left r) ∧ I (Run.left r) := by
  cases h <;> exact ⟨‹_›, ‹_›⟩

theorem get_bind {f : Machine → Run α} (hf : Ends I L m P (f m m)) : Ends I L m P ((get >>= f) m) := hf

variable (h : Holding I H L)

include h

theorem ancestor? (hm : I m) {d a : Nat} (hi : H m (.scope i)) (ha : m.scopes.ancestor? d i = some a) :
    H m (.scope a) := by
  induction d generalizing i with
  | zero =>
    cases ha
    exact hi
  | succ d ih =>
    rw [Scopes.ancestor?] at ha
    split at ha
    · rename_i p hp
      exact ih (h.refers hm hi (.enclosing hp)) ha
    · cases ha

theorem own? (hm : I m) (hi : H m (.scope i)) {name : String} {v : Value}
    (hv : m.scopes.own? i name = some v) : v.AtHand H m :=
  fun _ hx => h.refers hm hi (.bound hv hx)

theorem atHand_later {v : Value} (hv : v.AtHand H m) (hl : L m m') : v.AtHand H m' :=
  fun x hx => h.later hl (hv x hx)

theorem after {r : EStateM.Result Stop Machine α} (hr : Ends I L m' P r) (hl : L m m') :
    Ends I L m P r := by
  cases hr with
  | ok hl' hm ha => exact .ok (h.trans hl hl') hm ha
  | error hl' hm => exact .error (h.trans hl hl') hm

theorem andThen {p : Run α} {f : α → Run β} (hp : Ends I L m P (p m))
    (hf : ∀ a m', L m m' → I m' → P m' a → Ends I L m' Q (f a m')) :
    Ends I L m Q ((p >>= f) m) := by
  cases hr : p m with
  | ok a m' =>
    obtain ⟨hl, hm, ha⟩ := hp.of_ok hr
    rw [Run.bind_ok hr]
    exact h.after (hf a m' hl hm ha) hl
  | error stop m' =>
    rw [hr] at hp
    rw [Run.bind_error hr]
    cases hp with
    | error hl hm => exact .error hl hm

section Operations

variable (hm : I m)

include hm

theorem pure {a : α} (ha : P m a) : Ends I L m P ((Pure.pure a : Run α) m) := .ok (h.refl m) hm ha

theorem fail (t : Token) (cause : RuntimeCause) : Ends I L m P ((Run.fail t cause : Run α) m) :=
  .error (h.refl m) hm

theorem exhausted : Ends I L m P ((throw .exhausted : Run α) m) := .error (h.refl m) hm

/-- The machine has changed in nothing that matters. -/
theorem unchanged {a : α} (hs : m'.scopes = m.scopes) (hi : m'.instances = m.instances)
    (hh : m'.hosts = m.hosts) (ha : P m' a) : Ends I L m P (.ok a m') :=
  .ok (h.same hm hs hi hh).1 (h.same hm hs hi hh).2 ha

theorem newId : Ends I L m (fun _ _ => True) (Run.newId m) := h.unchanged hm rfl rfl rfl trivial

theorem newScope {p : Nat} (hp : H m (.scope p)) :
    Ends I L m (fun m' i => H m' (.scope i)) (Run.newScope p m) :=
  .ok (h.push hm hp).1.1 (h.push hm hp).1.2 (h.push hm hp).2

theorem define (name : String) {v : Value} (hi : H m (.scope i)) (hv : v.AtHand H m) :
    Ends I L m (fun _ _ => True) (Run.define i name v m) :=
  .ok (h.bind name hm hi hv).1 (h.bind name hm hi hv).2 trivial

theorem getAt (hi : H m (.scope i)) (d : Nat) (name : Token) :
    Ends I L m (Value.AtHand H) (Run.getAt i d name m) := by
  unfold Run.getAt
  split
  · rename_i v hv
    obtain ⟨a, ha, hv⟩ := Option.bind_eq_some_iff.1 hv
    exact h.pure hm (h.own? hm (h.ancestor? hm hi ha) hv)
  · exact h.fail hm _ _

theorem read (hi : H m (.scope i)) (r : Reference) :
    Ends I L m (Value.AtHand H) (Run.read i r m) := by
  unfold Run.read
  split
  · exact h.getAt hm hi _ _
  · cases hv : m.scopes.get? Machine.global r.name.lexeme with
    | none => exact h.fail hm _ _
    | some v =>
      rw [Machine.global, Scopes.get?_global] at hv
      exact h.pure hm (h.own? hm (h.global hm) hv)

theorem write (hi : H m (.scope i)) (r : Reference) {v : Value} (hv : v.AtHand H m) :
    Ends I L m (fun _ _ => True) (Run.write i r v m) := by
  unfold Run.write
  split
  · rename_i a ha
    refine h.define hm _ ?_ hv
    unfold Machine.target? at ha
    split at ha
    · exact h.ancestor? hm hi ha
    · rw [Machine.global, Scopes.holder?_global] at ha
      obtain ⟨_, -, rfl⟩ := Option.map_eq_some_iff.1 ha
      exact h.global hm
  · exact h.fail hm _ _

theorem newInstance {c : Class} (hc : (Value.class c).AtHand H m) :
    Ends I L m (Value.AtHand H) (Run.newInstance c m) := by
  obtain ⟨⟨hl, hm'⟩, hid⟩ := h.pushInstance hm
  exact .ok hl hm' (.instance_mk hid (h.atHand_later hc hl))

theorem setField {id : Nat} (name : String) {v : Value} (hid : H m (.instance id))
    (hv : v.AtHand H m) : Ends I L m (fun _ _ => True) (Run.setField id name v m) :=
  .ok (h.put name hm hid hv).1 (h.put name hm hid hv).2 trivial

theorem newFunction {f : Closure} (hf : H m (.scope f.scope)) :
    Ends I L m (Value.AtHand H) (Run.newFunction f m) := by
  apply h.andThen (h.newId hm)
  intro id m₁ hl₁ hm₁ _
  exact h.pure hm₁ (Value.AtHand.function_iff.2 (h.later hl₁ hf))

theorem bindMethod {f : Closure} {self : Value} (hf : H m (.scope f.scope))
    (hself : self.AtHand H m) :
    Ends I L m (fun m' g => H m' (.scope g.scope)) (Run.bindMethod f self m) := by
  apply h.andThen (h.newScope hm hf)
  intro i m₁ hl₁ hm₁ hi
  apply h.andThen (h.define hm₁ "this" hi (h.atHand_later hself hl₁))
  intro _ m₂ hl₂ hm₂ _
  exact h.pure hm₂ (h.later hl₂ hi)

theorem property {id : Nat} {c : Class} (hc : (Value.instance id c).AtHand H m) (name : Token) :
    Ends I L m (Value.AtHand H) (Run.property id c name m) := by
  apply get_bind
  cases hv : m.instances[id]?.bind (·.get? name.lexeme) with
  | some v => exact .ok (h.refl m) hm fun _ hx => h.refers hm hc.self (.field hv hx)
  | none =>
    cases hf : c.findMethod? name.lexeme with
    | none => exact h.fail hm _ _
    | some f =>
      apply h.andThen (h.bindMethod hm (hc.classOf.findMethod? hf) hc)
      intro g m₁ _ hm₁ hg
      exact h.newFunction hm₁ hg

theorem blaming (t : Token) {r : Except RuntimeCause Value} (hr : ∀ v, r = .ok v → v.plain = true) :
    Ends I L m (Value.AtHand H) (Run.blaming t r m) := by
  cases r with
  | ok v => exact h.pure hm (.plain (hr v rfl))
  | error cause => exact h.fail hm t cause

theorem printLine (s : String) : Ends I L m (fun _ _ => True) (Run.printLine s m) := by
  unfold Run.printLine
  split
  · exact h.unchanged hm rfl rfl rfl trivial
  · exact .error (h.refl m) hm
  · exact h.unchanged hm rfl rfl rfl trivial

theorem callHost (f : HostFunction) {vs : List Value} (hvs : ∀ v ∈ vs, v.AtHand H m) (paren : Token) :
    Ends I L m (Value.AtHand H) (Run.callHost f vs paren m) := by
  rcases Run.callHost_cases (h.hosts hm) f vs paren with ⟨v, clock, heq, hv | hv⟩ | ⟨cause, heq⟩ <;>
    rw [heq]
  · exact h.unchanged hm rfl rfl rfl (.plain hv)
  · have hsame : L m { m with clock } ∧ I { m with clock } := h.same hm rfl rfl rfl
    exact .ok hsame.1 hsame.2 (h.atHand_later (hvs v hv) hsame.1)
  · exact h.fail hm _ _

theorem checkArity (f : Value) (vs : List Value) (paren : Token) :
    Ends I L m (fun _ _ => True) (Evaluation.checkArity f vs paren m) := by
  unfold Evaluation.checkArity
  cases f.arity? with
  | none => exact h.fail hm _ _
  | some n =>
    simp only
    split
    · exact h.pure hm trivial
    · exact h.fail hm _ _

theorem defineAll (hi : H m (.scope i)) (ps : List Token) {vs : List Value}
    (hvs : ∀ v ∈ vs, v.AtHand H m) :
    Ends I L m (fun _ _ => True) (Evaluation.defineAll i ps vs m) := by
  induction ps generalizing m vs with
  | nil => exact h.pure hm trivial
  | cons p ps ih =>
    cases vs with
    | nil => exact h.pure hm trivial
    | cons v vs =>
      rw [List.forall_mem_cons] at hvs
      apply h.andThen (h.define hm p.lexeme hi hvs.1)
      intro _ m₁ hl₁ hm₁ _
      exact ih hm₁ (h.later hl₁ hi) fun w hw => h.atHand_later (hvs.2 w hw) hl₁

theorem opened {f : Closure} {vs : List Value} (hf : H m (.scope f.scope))
    (hvs : ∀ v ∈ vs, v.AtHand H m) :
    Ends I L m (fun m' i => H m' (.scope i) ∧ H m' (.scope f.scope))
      (Evaluation.opened f vs m) := by
  apply h.andThen (h.newScope hm hf)
  intro i m₁ hl₁ hm₁ hi
  apply h.andThen (h.defineAll hm₁ hi _ fun v hv => h.atHand_later (hvs v hv) hl₁)
  intro _ m₂ hl₂ hm₂ _
  exact h.pure hm₂ ⟨h.later hl₂ hi, h.later (h.trans hl₁ hl₂) hf⟩

theorem openedInitializer {c : Class} {init : Closure} {vs : List Value}
    (hc : (Value.class c).AtHand H m) (hi : c.initializer? = some init)
    (hvs : ∀ v ∈ vs, v.AtHand H m) :
    Ends I L m (fun m' i => H m' (.scope i)) (Evaluation.openedInitializer c init vs m) := by
  apply h.andThen (h.newInstance hm hc)
  intro self m₁ hl₁ hm₁ hself
  apply h.andThen (h.bindMethod hm₁ ((h.atHand_later hc hl₁).findMethod? hi) hself)
  intro g m₂ hl₂ hm₂ hg
  have hopened := h.opened hm₂ hg fun v hv => h.atHand_later (hvs v hv) (h.trans hl₁ hl₂)
  cases hr : Evaluation.opened g vs m₂ with
  | ok i m₃ =>
    obtain ⟨hl₃, hm₃, hi, -⟩ := hopened.of_ok hr
    exact .ok hl₃ hm₃ hi
  | error stop m₃ =>
    rw [hr] at hopened
    cases hopened with
    | error hl₃ hm₃ => exact .error hl₃ hm₃

theorem opens {v : Value} {vs : List Value} {ss : List Stmt} (ho : Opens v vs m i ss m')
    (hv : v.AtHand H m) (hvs : ∀ v ∈ vs, v.AtHand H m) : L m m' ∧ I m' ∧ H m' (.scope i) := by
  cases ho with
  | function ho =>
    obtain ⟨hl, hm', hi, -⟩ := (h.opened hm (Value.AtHand.function_iff.1 hv) hvs).of_ok ho
    exact ⟨hl, hm', hi⟩
  | «class» hi ho => exact (h.openedInitializer hm hv hi hvs).of_ok ho

end Operations

end Holding

end Lox
