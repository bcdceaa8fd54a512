import Lox.Proofs.Evaluation.Constant
import Lox.Proofs.Placement.Valid
import Lox.Proofs.Simulation.Effect

/-!
# Operations on sane machines

No operation takes scopes or instances away, changes a link, or binds `this` or `super` in a
scope that is there already, and all values that it stores or yields are valid. A method that
is bound gets a new scope for its receiver, inside that of the methods of its class.
-/

set_option autoImplicit false

namespace Lox

/-- The machine with one more scope, inside scope `p`, that holds one value. -/
def Machine.enclose (m : Machine) (p : Nat) (name : String) (v : Value) : Machine :=
  { m with scopes := (m.scopes.push (some p)).define m.scopes.next name v }

/-- The outcome of a look-up of a method from class `c` on: the method with `self` in a new
scope around it, or the fault that there is none. -/
def Machine.bound (m : Machine) (c : Class) (self : Value) (method : Token) :
    EStateM.Result Stop Machine Value :=
  match c.findMethod? method.lexeme with
  | some f => .ok (.function m.serial { f with scope := m.scopes.next })
      { m.enclose f.scope "this" self with serial := m.serial + 1 }
  | none => .error (.fault (.runtime method.line (.undefinedProperty method.lexeme))) m

namespace Machine.Grows

variable {m m' : Machine}

/-- A scope that was there keeps what it has for `this` and `super`. -/
theorem define (h : m.Grows m') {i : Nat} {name : String} (v : Value)
    (hd : name ∉ reservedNames ∨ i = Machine.global ∨ m.scopes.next ≤ i) :
    m.Grows { m' with scopes := m'.scopes.define i name v } where
  next := by simpa only [Scopes.next_define] using h.next
  instances := h.instances
  enclosing j hj := by simpa only [Scopes.enclosing?_define] using h.enclosing j hj
  reserved j other ho hj hlt := by
    have hne : j ≠ i ∨ other ≠ name := by
      rcases hd with hd | rfl | hd
      · exact .inr fun he => hd (he ▸ ho)
      · exact .inl hj
      · exact .inl (Nat.ne_of_lt (Nat.lt_of_lt_of_le hlt hd))
    rw [Scopes.own?_define_of_ne _ _ hne]
    exact h.reserved j other ho hj hlt

theorem same (hs : m'.scopes = m.scopes) (hi : m'.instances = m.instances) : m.Grows m' where
  next := Nat.le_of_eq (congrArg Scopes.next hs.symm)
  instances := Nat.le_of_eq (congrArg Array.size hi.symm)
  enclosing _ _ := by rw [hs]
  reserved _ _ _ _ _ := by rw [hs]

theorem push (m : Machine) (e : Option Nat) : m.Grows { m with scopes := m.scopes.push e } where
  next := by simp only [Scopes.next_push, Nat.le_succ]
  instances := Nat.le_refl _
  enclosing _ hi := Scopes.enclosing?_push_of_lt _ _ hi
  reserved _ _ _ _ _ := Scopes.own?_push _ _ _ _

theorem enclose (m : Machine) (p : Nat) (name : String) (v : Value) :
    m.Grows (m.enclose p name v) :=
  (push m (some p)).define v (.inr (.inr (Nat.le_refl _)))

end Machine.Grows

theorem Machine.own?_enclose (m : Machine) (p : Nat) (name : String) (v : Value) :
    (m.enclose p name v).scopes.own? m.scopes.next name = some v := by
  apply Scopes.own?_define_self
  rw [Scopes.next_push]
  exact Nat.lt_succ_self _

theorem Machine.enclosing?_enclose (m : Machine) {p : Nat} (name : String) (v : Value)
    (hp : p < m.scopes.next) :
    (m.enclose p name v).scopes.enclosing? m.scopes.next = some p :=
  (Scopes.enclosing?_define _ _ _ _ _).trans (Scopes.enclosing?_push_self _ hp)

namespace Scopes

/-- What a scope holds is what was put there last, or what it held before. -/
theorem own?_define_cases {α : Type} {s : Scopes α} {i j : Nat} {name other : String} {v w : α}
    (h : (s.define i name v).own? j other = some w) : w = v ∨ s.own? j other = some w := by
  by_cases hne : j ≠ i ∨ other ≠ name
  · rw [own?_define_of_ne _ _ hne] at h
    exact .inr h
  · have hj : j = i := by tauto
    have ho : other = name := by tauto
    subst hj ho
    have hlt : j < s.next := by
      rw [← next_define s j other v]
      exact lt_next_of_own (by rw [h]; rfl)
    rw [own?_define_self _ _ _ hlt] at h
    exact .inl (Option.some.inj h).symm

end Scopes

/-- What a field holds is what was put there last, or what it held before. -/
theorem Machine.field?_modify_cases {m : Machine} {id other : Nat} {name field : String} {v w : Value}
    (h : { m with instances := m.instances.modify id (Names.put name v) }.field? other field =
      some w) : w = v ∨ m.field? other field = some w := by
  by_cases hne : other ≠ id ∨ field ≠ name
  · rw [field?_modify_of_ne _ _ hne] at h
    exact .inr h
  · obtain rfl : other = id := by tauto
    obtain rfl : field = name := by tauto
    rw [field?_modify_self] at h
    split at h
    · exact .inl (Option.some.inj h).symm
    · cases h

theorem Simulation.Alike.refl (v : Value) : Simulation.Alike v v := by
  cases v with
  | function => exact .function rfl rfl
  | «class» => exact .class rfl rfl rfl
  | «instance» => exact .instance rfl
  | _ => exact .plain rfl

/-- A function of the host has no values but its arguments, and only the clock goes on. -/
theorem Run.callHost_cases {m : Machine} (hh : ∀ code ∈ m.hosts, Simulation.Sealed code)
    (f : HostFunction) (vs : List Value) (paren : Token) :
    (∃ v clock, callHost f vs paren m = .ok v { m with clock } ∧ (v.plain = true ∨ v ∈ vs)) ∨
      ∃ cause, callHost f vs paren m = fail paren cause m := by
  unfold callHost
  cases f.code with
  | clock => exact .inl ⟨_, _, rfl, .inl rfl⟩
  | given i =>
    have hcode : Simulation.Sealed (m.hosts[i]?.getD fun _ => .ok .nil) := by
      cases hi : m.hosts[i]? with
      | none => exact fun _ _ _ => .plain rfl
      | some f => exact hh f (Array.mem_of_getElem? hi)
    have ha := hcode vs vs (List.forall₂_same.2 fun v _ => .refl v)
    simp only
    generalize (m.hosts[i]?.getD fun _ => .ok .nil) vs = r at ha
    cases ha with
    | message s => exact .inr ⟨_, rfl⟩
    | plain hv => exact .inl ⟨_, _, rfl, .inl hv⟩
    | argument hv => exact .inl ⟨_, _, rfl, .inr (List.mem_of_getElem? hv)⟩

namespace Placement

open Scoping Evaluation

variable {S S' : Setting} {m m' : Machine} {α β : Type}

namespace Sane

/-- A machine stays sane when only valid values are stored. -/
theorem after (h : Sane S m) (hg : m.Grows m') (hh : m'.hosts = m.hosts)
    (hn : ∀ i name v, m'.scopes.own? i name = some v →
      m.scopes.own? i name = some v ∨ Valid S m v)
    (hf : ∀ id name v, m'.field? id name = some v → m.field? id name = some v ∨ Valid S m v) :
    Sane S m' where
  global := Nat.lt_of_lt_of_le h.global hg.next
  names i name v hv := ((hn i name v hv).elim (h.names i name v) fun h => h).later hg
  fields id name v hv := ((hf id name v hv).elim (h.fields id name v) fun h => h).later hg
  hosts := hh ▸ h.hosts

/-- What is neither scope nor field does not matter. -/
theorem same (h : Sane S m) (hs : m'.scopes = m.scopes) (hi : m'.instances = m.instances)
    (hh : m'.hosts = m.hosts) : Sane S m' := by
  refine h.after (.same hs hi) hh (fun i name v hv => .inl (hs ▸ hv)) fun id name v hv => .inl ?_
  unfold Machine.field? at hv ⊢
  rwa [hi] at hv

theorem host (h : Sane S m) {code : Host} (hc : Simulation.Sealed code) :
    Sane S { m with hosts := m.hosts.push code } where
  global := h.global
  names i name v hv := (h.names i name v hv).later (.same rfl rfl)
  fields id name v hv := (h.fields id name v hv).later (.same rfl rfl)
  hosts f hf := by
    rcases Array.mem_push.1 hf with hf | rfl
    · exact h.hosts f hf
    · exact hc

theorem within (h : Sane S m) (hS : S.Within S') : Sane S' m where
  global := h.global
  names i name v hv := (h.names i name v hv).grow hS (.refl m)
  fields id name v hv := (h.fields id name v hv).grow hS (.refl m)
  hosts := h.hosts

theorem push (h : Sane S m) (e : Option Nat) : Sane S { m with scopes := m.scopes.push e } := by
  refine h.after (.push m e) rfl (fun i name v hv => .inl ?_) fun _ _ _ hv => .inl hv
  exact (Scopes.own?_push m.scopes e i name) ▸ hv

theorem define (h : Sane S m) {i : Nat} {name : String} {v : Value}
    (hd : name ∉ reservedNames ∨ i = Machine.global) (hv : Valid S m v) :
    Sane S { m with scopes := m.scopes.define i name v } := by
  refine h.after ((Machine.Grows.refl m).define v (hd.imp_right .inl)) rfl ?_ fun _ _ _ hw => .inl hw
  intro j other w hw
  rcases Scopes.own?_define_cases hw with rfl | hw
  · exact .inr hv
  · exact .inl hw

theorem enclose (h : Sane S m) (p : Nat) (name : String) {v : Value} (hv : Valid S m v) :
    Sane S (m.enclose p name v) := by
  refine h.after (.enclose m p name v) rfl ?_ fun _ _ _ hw => .inl hw
  intro j other w hw
  rcases Scopes.own?_define_cases hw with rfl | hw
  · exact .inr hv
  · exact .inl (Scopes.own?_push m.scopes (some p) j other ▸ hw)

end Sane

/-- How a computation may end that started on the machine `m`: on a later machine that is
sane, with a value for which `Q` holds there, or with none. -/
inductive Ends (S : Setting) (m : Machine) (Q : Machine → α → Prop) :
    EStateM.Result Stop Machine α → Prop
  | ok {a : α} {m' : Machine} (hg : m.Grows m') (hs : Sane S m') (ha : Q m' a) :
      Ends S m Q (.ok a m')
  | error {stop : Stop} {m' : Machine} (hg : m.Grows m') (hs : Sane S m') :
      Ends S m Q (.error stop m')

namespace Ends

variable {P Q : Machine → α → Prop} {R : Machine → β → Prop}

/-- The machine that is left is sane. -/
theorem sane_left {r : EStateM.Result Stop Machine α} (h : Ends S m Q r) : Sane S (Run.left r) := by
  cases h <;> assumption

theorem after {r : EStateM.Result Stop Machine α} (h : Ends S m' Q r) (hg : m.Grows m') :
    Ends S m Q r := by
  cases h with
  | ok h hs ha => exact .ok (hg.trans h) hs ha
  | error h hs => exact .error (hg.trans h) hs

theorem imp {r : EStateM.Result Stop Machine α} (h : Ends S m P r)
    (hQ : ∀ m' a, m.Grows m' → P m' a → Q m' a) : Ends S m Q r := by
  cases h with
  | ok hg hs ha => exact .ok hg hs (hQ _ _ hg ha)
  | error hg hs => exact .error hg hs

/-- What there is to know of the machine after a value was had. -/
theorem of_ok {p : Run α} {a : α} (h : Ends S m Q (p m)) (hp : p m = .ok a m') :
    m.Grows m' ∧ Sane S m' ∧ Q m' a := by
  rw [hp] at h
  cases h with
  | ok hg hs ha => exact ⟨hg, hs, ha⟩

theorem bind {p : Run α} {f : α → Run β} (hp : Ends S m Q (p m))
    (hf : ∀ a m', p m = .ok a m' → m.Grows m' → Sane S m' → Q m' a → Ends S m' R (f a m')) :
    Ends S m R ((p >>= f) m) := by
  cases hr : p m with
  | ok a m' =>
    obtain ⟨hg, hs, ha⟩ := hp.of_ok hr
    rw [Run.bind_ok hr]
    exact (hf a m' hr hg hs ha).after hg
  | error stop m' =>
    rw [Run.bind_error hr]
    rw [hr] at hp
    cases hp with
    | error hg hs => exact .error hg hs

theorem get_bind {f : Machine → Run β} (hf : Ends S m R (f m m)) : Ends S m R ((get >>= f) m) := hf

variable (hs : Sane S m)

include hs

theorem pure {a : α} (ha : Q m a) : Ends S m Q ((Pure.pure a : Run α) m) := .ok (.refl m) hs ha

theorem fail (t : Token) (cause : RuntimeCause) : Ends S m Q ((Run.fail t cause : Run α) m) :=
  .error (.refl m) hs

theorem exhausted : Ends S m Q ((throw .exhausted : Run α) m) := .error (.refl m) hs

/-- The machine has changed in nothing that matters. -/
theorem same {a : α} (hscopes : m'.scopes = m.scopes) (hi : m'.instances = m.instances)
    (hh : m'.hosts = m.hosts) (ha : Q m' a) : Ends S m Q (.ok a m') :=
  .ok (.same hscopes hi) (hs.same hscopes hi hh) ha

theorem blaming {t : Token} {r : Except RuntimeCause Value}
    (hr : ∀ v, r = .ok v → v.plain = true) : Ends S m (Valid S) (Run.blaming t r m) := by
  cases r with
  | ok v => exact .pure hs (.plain (hr v rfl))
  | error cause => exact .fail hs t cause

theorem newScope {p : Nat} (hp : p < m.scopes.next) :
    Ends S m (fun m' i => Ordinary m' i p) (Run.newScope p m) := by
  refine .ok (.push m (some p)) (hs.push (some p)) ⟨Scopes.enclosing?_push_self _ hp, ?_⟩
  intro name _
  refine (Scopes.own?_push _ _ _ _).trans (Option.eq_none_iff_forall_ne_some.2 fun v hv => ?_)
  exact absurd (Scopes.lt_next_of_own (by rw [hv]; rfl)) (Nat.lt_irrefl _)

theorem newId : Ends S m (fun _ _ => True) (Run.newId m) := .same hs rfl rfl rfl trivial

theorem define {i : Nat} {name : String} {v : Value}
    (hd : name ∉ reservedNames ∨ i = Machine.global) (hv : Valid S m v) :
    Ends S m (fun m' _ => m'.scopes.next = m.scopes.next) (Run.define i name v m) :=
  .ok ((Machine.Grows.refl m).define v (hd.imp_right .inl)) (hs.define hd hv)
    (Scopes.next_define _ _ _ _)

theorem getAt (i d : Nat) (name : Token) : Ends S m (Valid S) (Run.getAt i d name m) := by
  unfold Run.getAt
  split
  · rename_i v hv
    obtain ⟨a, -, hv⟩ := Option.bind_eq_some_iff.1 hv
    exact .pure hs (hs.names a _ v hv)
  · exact .fail hs _ _

theorem read (i : Nat) (r : Reference) : Ends S m (Valid S) (Run.read i r m) := by
  unfold Run.read
  split
  · exact .getAt hs i _ _
  · cases h : m.scopes.get? Machine.global r.name.lexeme with
    | none => exact .fail hs _ _
    | some v =>
      obtain ⟨a, -, hv⟩ := Option.bind_eq_some_iff.1 h
      exact .pure hs (hs.names a _ v hv)

theorem write {i : Nat} {r : Reference} {v : Value} (hn : r.name.lexeme ∉ reservedNames)
    (hv : Valid S m v) : Ends S m (fun _ _ => True) (Run.write i r v m) := by
  unfold Run.write
  split
  · exact (Ends.define hs (.inl hn) hv).imp fun _ _ _ _ => trivial
  · exact .fail hs _ _

theorem newInstance {c : Class} (hc : ValidClass S m c) :
    Ends S m (fun m' v => v = .instance m.instances.size c ∧ Valid S m' v)
      (Run.newInstance c m) := by
  have hsize : m.instances.size < (m.instances.push []).size := by
    rw [Array.size_push]
    exact Nat.lt_succ_self _
  have hg : m.Grows { m with instances := m.instances.push [] } :=
    ⟨Nat.le_refl _, Nat.le_of_lt hsize, fun _ _ => rfl, fun _ _ _ _ _ => rfl⟩
  refine .ok hg ?_ ⟨rfl, .instance hsize (hc.grow (.refl S) hg)⟩
  refine hs.after hg rfl (fun _ _ _ hv => .inl hv) fun id name v hv => .inl ?_
  exact (m.field?_push id name) ▸ hv

theorem setField {id : Nat} {name : String} {v : Value} (hv : Valid S m v) :
    Ends S m (fun _ _ => True) (Run.setField id name v m) := by
  have hg : m.Grows { m with instances := m.instances.modify id (Names.put name v) } :=
    ⟨Nat.le_refl _, by simp only [Array.size_modify, Nat.le_refl], fun _ _ => rfl,
      fun _ _ _ _ _ => rfl⟩
  refine .ok hg (hs.after hg rfl (fun _ _ _ hw => .inl hw) ?_) trivial
  intro other field w hw
  rcases Machine.field?_modify_cases hw with rfl | hw
  · exact .inr hv
  · exact .inl hw

theorem newFunction {f : Closure} (hf : Callable S m f) :
    Ends S m (Valid S) (Run.newFunction f m) := by
  apply Ends.bind (.newId hs)
  intro id m₁ _ hg₁ hs₁ _
  exact .pure hs₁ (.function (hf.grow (.refl S) hg₁))

theorem printLine (s : String) : Ends S m (fun _ _ => True) (Run.printLine s m) := by
  unfold Run.printLine
  split
  · exact .same hs rfl rfl rfl trivial
  · exact .error (.refl m) hs
  · exact .same hs rfl rfl rfl trivial

theorem callHost (f : HostFunction) {vs : List Value} (hvs : ∀ v ∈ vs, Valid S m v) (paren : Token) :
    Ends S m (Valid S) (Run.callHost f vs paren m) := by
  rcases Run.callHost_cases hs.hosts f vs paren with ⟨v, clock, heq, hv | hv⟩ | ⟨cause, heq⟩ <;>
    rw [heq]
  · exact .same hs rfl rfl rfl (.plain hv)
  · exact .same hs rfl rfl rfl ((hvs v hv).later (.same rfl rfl))
  · exact .fail hs _ _

theorem checkArity (f : Value) (vs : List Value) (paren : Token) :
    Ends S m (fun _ _ => True) (Evaluation.checkArity f vs paren m) := by
  unfold Evaluation.checkArity
  cases f.arity? with
  | none => exact .fail hs _ _
  | some n =>
    by_cases hn : vs.length = n
    · simp only [hn, if_true]
      exact .pure hs trivial
    · simp only [hn, if_false]
      exact .fail hs _ _

theorem bindMethod {name : String} {f : Closure} {id : Nat} {c : Class} (hf : Method S m name f)
    (hself : Valid S m (.instance id c)) :
    Ends S m (fun m' g => Callable S m' g ∧ g.declaration = f.declaration)
      (Run.bindMethod f (.instance id c) m) := by
  have hg := Machine.Grows.enclose m f.scope "this" (.instance id c)
  have hr : Receiver (m.enclose f.scope "this" (.instance id c)) m.scopes.next id c f.scope :=
    ⟨m.enclosing?_enclose "this" _ (hf.lt_next hs.global), m.own?_enclose _ _ _⟩
  exact .ok hg (hs.enclose f.scope "this" hself) ⟨.method hr (hf.grow (.refl S) hg), rfl⟩

theorem property {id : Nat} {c : Class} (hself : Valid S m (.instance id c)) (name : Token) :
    Ends S m (Valid S) (Run.property id c name m) := by
  apply Ends.get_bind
  cases hfield : m.instances[id]?.bind (·.get? name.lexeme) with
  | some v => exact .pure hs (hs.fields id _ v hfield)
  | none =>
    cases hf : c.findMethod? name.lexeme with
    | none => exact .fail hs _ _
    | some f =>
      apply Ends.bind (.bindMethod hs (hself.classOf.findMethod? hf) hself)
      intro g m' _ _ hs' hg
      exact .newFunction hs' hg.1

end Ends

end Placement

end Lox
