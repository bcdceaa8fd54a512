import Lox.Proofs.Frame.Holding

/-!
# What operations leave alone

A set of scopes and instances is apart on a machine if nothing outside of it refers into it, the
global scope is outside, and so is what the host answers with. Operations on what is outside
leave everything in the set as it is and come to values that do not refer into it.
-/

set_option autoImplicit false

namespace Lox

variable {D : Thing → Prop} {m m' : Machine} {α : Type}

/-- Nothing outside refers into the set `D`. -/
structure Machine.Apart (D : Thing → Prop) (m : Machine) : Prop where
  global : ¬ D (.scope Machine.global)
  outside {x y : Thing} (hx : ¬ D x) (h : m.Refers x y) : ¬ D y
  has {x : Thing} (hx : D x) : m.Has x
  hosts : ∀ code ∈ m.hosts, Simulation.Sealed code

/-- The value does not refer into the set. -/
def Value.Apart (D : Thing → Prop) (v : Value) : Prop := ∀ x, v.Refers x → ¬ D x

/-- All in the set is as it was. -/
structure Machine.Alike (D : Thing → Prop) (m m' : Machine) : Prop where
  scopes {i : Nat} (hi : D (.scope i)) : m'.scopes.cells[i]? = m.scopes.cells[i]?
  instances {id : Nat} (hid : D (.instance id)) : m'.instances[id]? = m.instances[id]?

namespace Machine.Alike

theorem refl (D : Thing → Prop) (m : Machine) : m.Alike D m := ⟨fun _ => rfl, fun _ => rfl⟩

theorem trans {m'' : Machine} (h : m.Alike D m') (h' : m'.Alike D m'') : m.Alike D m'' :=
  ⟨fun hi => (h'.scopes hi).trans (h.scopes hi),
    fun hid => (h'.instances hid).trans (h.instances hid)⟩

end Machine.Alike

namespace Machine.Apart

variable (h : m.Apart D)

include h

theorem next : ¬ D (.scope m.scopes.next) := fun hd => Nat.lt_irrefl _ (h.has hd)

theorem nextInstance : ¬ D (.instance m.instances.size) := fun hd => Nat.lt_irrefl _ (h.has hd)

/-- A machine that refers to no more than before, but to what is outside. -/
theorem after (hr : ∀ x y, m'.Refers x y → m.Refers x y ∨ ¬ D y) (hh : m'.hosts = m.hosts)
    (hs : m.scopes.next ≤ m'.scopes.next) (hi : m.instances.size ≤ m'.instances.size) :
    m'.Apart D where
  global := h.global
  outside hx hxy := (hr _ _ hxy).elim (h.outside hx) id
  has {x} hx := by
    have hm := h.has hx
    cases x with
    | scope i => exact Nat.lt_of_lt_of_le hm hs
    | «instance» id => exact Nat.lt_of_lt_of_le hm hi
  hosts := hh ▸ h.hosts

theorem same (hs : m'.scopes = m.scopes) (hi : m'.instances = m.instances) (hh : m'.hosts = m.hosts) :
    m'.Apart D :=
  h.after (fun _ _ hxy => .inl (hxy.of_same hs hi)) hh (hs ▸ Nat.le_refl _) (hi ▸ Nat.le_refl _)

theorem push {p : Nat} (hp : ¬ D (.scope p)) :
    Machine.Apart D { m with scopes := m.scopes.push (some p) } := by
  refine h.after (fun x y hxy => hxy.of_push.imp_right ?_) rfl (by simp) (Nat.le_refl _)
  rintro rfl
  exact hp

theorem define {i : Nat} {name : String} {v : Value} (hv : v.Apart D) :
    Machine.Apart D { m with scopes := m.scopes.define i name v } :=
  h.after (fun _ y hxy => hxy.of_define.imp_right (hv y)) rfl (by simp) (Nat.le_refl _)

theorem pushInstance : Machine.Apart D { m with instances := m.instances.push [] } :=
  h.after (fun _ _ hxy => .inl hxy.of_pushInstance) rfl (Nat.le_refl _) (by simp)

theorem setField {id : Nat} {name : String} {v : Value} (hv : v.Apart D) :
    Machine.Apart D { m with instances := m.instances.modify id (Names.put name v) } :=
  h.after (fun _ y hxy => hxy.of_put.imp_right (hv y)) rfl (Nat.le_refl _) (by simp)

end Machine.Apart

/-- What is outside of a set that is apart is at hand, and all in the set is as it was. -/
theorem Machine.Apart.holding (D : Thing → Prop) :
    Holding (Machine.Apart D) (fun _ x => ¬ D x) (Machine.Alike D) where
  refl m := .refl D m
  trans h h' := h.trans h'
  later _ hx := hx
  global h := h.global
  refers h hx hxy := h.outside hx hxy
  hosts h := h.hosts
  same h hs hi hh := ⟨⟨fun _ => by rw [hs], fun _ => by rw [hi]⟩, h.same hs hi hh⟩
  push {m p} h hp := by
    refine ⟨⟨⟨fun hi => ?_, fun _ => rfl⟩, h.push hp⟩, h.next⟩
    exact Array.getElem?_push_lt (h.has hi) ▸ (Array.getElem?_eq_getElem (h.has hi)).symm
  bind {m i v} name h hi hv := by
    refine ⟨⟨fun hj => ?_, fun _ => rfl⟩, h.define hv⟩
    have hne : i ≠ _ := fun he => hi (he ▸ hj)
    exact (Array.getElem?_modify ..).trans (if_neg hne)
  pushInstance h := by
    refine ⟨⟨⟨fun _ => rfl, fun hid => ?_⟩, h.pushInstance⟩, h.nextInstance⟩
    exact Array.getElem?_push_lt (h.has hid) ▸ (Array.getElem?_eq_getElem (h.has hid)).symm
  put {m id v} name h hid hv := by
    refine ⟨⟨fun _ => rfl, fun hj => ?_⟩, h.setField hv⟩
    have hne : id ≠ _ := fun he => hid (he ▸ hj)
    exact (Array.getElem?_modify ..).trans (if_neg hne)

namespace Run

/-- How a computation may end that started on the machine `m`: all in the set is as it was, and
the set is still apart. -/
inductive Left (D : Thing → Prop) (m : Machine) (P : α → Prop) : EStateM.Result Stop Machine α → Prop
  | ok {a : α} {m' : Machine} (hm : m.Alike D m') (h : m'.Apart D) (ha : P a) : Left D m P (.ok a m')
  | error {stop : Stop} {m' : Machine} (hm : m.Alike D m') (h : m'.Apart D) :
      Left D m P (.error stop m')

/-- Wherever the set is apart, the computation leaves it alone and comes to a value with `P`. -/
def Avoids (D : Thing → Prop) (P : α → Prop) (p : Run α) : Prop :=
  ∀ m : Machine, m.Apart D → Left D m P (p m)

theorem Left.alike {P : α → Prop} {r : EStateM.Result Stop Machine α} (h : Left D m P r) :
    m.Alike D (left r) := by
  cases h <;> assumption

theorem Left.of_ends {P : α → Prop} {Q : Machine → α → Prop} {r : EStateM.Result Stop Machine α}
    (h : Holding.Ends (Machine.Apart D) (Machine.Alike D) m Q r) (hQ : ∀ m' a, Q m' a → P a) :
    Left D m P r := by
  cases h with
  | ok hl hm ha => exact .ok hl hm (hQ _ _ ha)
  | error hl hm => exact .error hl hm

end Run

end Lox
