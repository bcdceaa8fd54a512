import Lox.Proofs.Evaluation.Stepwise
import Lox.Proofs.Frame.Computation
import Lox.Proofs.Scopes.Tree

/-!
# Machines whose scopes are a tree

On a closed machine the scopes are a tree, and whatever is referred to is there. Main statements:
all computations keep machines closed, come only to what is there, and leave the links of all
scopes as they are.
-/

set_option autoImplicit false

namespace Lox.Machine

variable {m m' m'' : Machine}

/-- On the later machine all scopes and instances are still there, and no link is another. -/
structure Linked (m m' : Machine) : Prop where
  next : m.scopes.next ≤ m'.scopes.next
  instances : m.instances.size ≤ m'.instances.size
  link {i : Nat} (hi : i < m.scopes.next) : m'.scopes.link? i = m.scopes.link? i

/-- The scopes are a tree, and nothing refers to what is not there. -/
structure Closed (m : Machine) : Prop where
  tree : m.scopes.Tree
  refers {x y : Thing} (h : m.Refers x y) : m.Has y
  hosts : ∀ code ∈ m.hosts, Simulation.Sealed code

namespace Linked

theorem refl (m : Machine) : m.Linked m := ⟨Nat.le_refl _, Nat.le_refl _, fun _ => rfl⟩

theorem trans (h : m.Linked m') (h' : m'.Linked m'') : m.Linked m'' where
  next := Nat.le_trans h.next h'.next
  instances := Nat.le_trans h.instances h'.instances
  link hi := (h'.link (Nat.lt_of_lt_of_le hi h.next)).trans (h.link hi)

theorem same (hs : m'.scopes = m.scopes) (hi : m'.instances = m.instances) : m.Linked m' :=
  ⟨Nat.le_of_eq (congrArg Scopes.next hs.symm), Nat.le_of_eq (congrArg Array.size hi.symm),
    fun _ => by rw [hs]⟩

theorem push (m : Machine) (p : Nat) : m.Linked { m with scopes := m.scopes.push (some p) } where
  next := by simp only [Scopes.next_push, Nat.le_succ]
  instances := Nat.le_refl _
  link hi := (Scopes.link?_push ..).trans (if_neg (Nat.ne_of_lt hi))

theorem define (m : Machine) (i : Nat) (name : String) (v : Value) :
    m.Linked { m with scopes := m.scopes.define i name v } where
  next := by simp only [Scopes.next_define, Nat.le_refl]
  instances := Nat.le_refl _
  link _ := Scopes.link?_define ..

theorem instancesOnly {instances : Array (Names Value)} (hi : m.instances.size ≤ instances.size) :
    m.Linked { m with instances } := ⟨Nat.le_refl _, hi, fun _ => rfl⟩

theorem pushInstance (m : Machine) : m.Linked { m with instances := m.instances.push [] } :=
  instancesOnly (by simp)

theorem put (m : Machine) (id : Nat) (name : String) (v : Value) :
    m.Linked { m with instances := m.instances.modify id (Names.put name v) } :=
  instancesOnly (by simp)

theorem has (h : m.Linked m') {x : Thing} (hx : m.Has x) : m'.Has x := by
  cases x with
  | scope i => exact Nat.lt_of_lt_of_le hx h.next
  | «instance» id => exact Nat.lt_of_lt_of_le hx h.instances

/-- Every operation leaves the links as they are. -/
theorem stepwise : Stepwise Linked where
  refl := refl
  trans := trans
  newId _ := same rfl rfl
  newScope p m := push m p
  define i name v m := define m i name v
  newInstance _ m := pushInstance m
  setField id name v m := put m id name v
  printLine s m := by
    unfold Run.printLine
    split <;> exact same rfl rfl
  readClock _ := same rfl rfl

end Linked

namespace Closed

theorem after (h : m.Closed) (hl : m.Linked m') (ht : m'.scopes.Tree)
    (hr : ∀ x y, m'.Refers x y → m.Refers x y ∨ m'.Has y) (hh : m'.hosts = m.hosts) : m'.Closed where
  tree := ht
  refers hxy := (hr _ _ hxy).elim (fun hxy => hl.has (h.refers hxy)) id
  hosts := hh ▸ h.hosts

theorem same (h : m.Closed) (hs : m'.scopes = m.scopes) (hi : m'.instances = m.instances)
    (hh : m'.hosts = m.hosts) : m'.Closed :=
  h.after (.same hs hi) (hs ▸ h.tree) (fun _ _ hxy => .inl (hxy.of_same hs hi)) hh

theorem push (h : m.Closed) {p : Nat} (hp : m.Has (.scope p)) :
    Closed { m with scopes := m.scopes.push (some p) } := by
  have hl := Linked.push m p
  refine h.after hl (h.tree.push hp) (fun x y hxy => hxy.of_push.imp_right ?_) rfl
  rintro rfl
  exact hl.has hp

theorem define (h : m.Closed) (i : Nat) (name : String) {v : Value} (hv : v.AtHand Has m) :
    Closed { m with scopes := m.scopes.define i name v } := by
  have hl := Linked.define m i name v
  exact h.after hl (h.tree.define i name v)
    (fun _ y hxy => hxy.of_define.imp_right fun hy => hl.has (hv y hy)) rfl

theorem pushInstance (h : m.Closed) : Closed { m with instances := m.instances.push [] } :=
  h.after (.pushInstance m) h.tree (fun _ _ hxy => .inl hxy.of_pushInstance) rfl

theorem put (h : m.Closed) (id : Nat) (name : String) {v : Value} (hv : v.AtHand Has m) :
    Closed { m with instances := m.instances.modify id (Names.put name v) } := by
  have hl := Linked.put m id name v
  exact h.after hl h.tree (fun _ y hxy => hxy.of_put.imp_right fun hy => hl.has (hv y hy)) rfl

theorem defineHost (h : m.Closed) (f : HostFunction) : (m.defineHost f).Closed :=
  (h.define global f.name (.plain rfl)).same rfl rfl rfl

theorem defineGiven (h : m.Closed) (name : String) (arity : Nat) {code : Host}
    (hc : Simulation.Sealed code) : (m.defineGiven name arity code).Closed := by
  have hdefined := h.defineHost ⟨name, arity, .given m.hosts.size⟩
  refine ⟨hdefined.tree, fun hxy => hdefined.refers (hxy.of_same rfl rfl), fun f hf => ?_⟩
  rcases Array.mem_push.1 hf with hf | rfl
  · exact h.hosts f hf
  · exact hc

theorem start (now : Nat) : (Machine.start now).Closed := by
  refine Closed.defineHost ⟨Scopes.tree_root, fun hxy => ?_, fun f hf => ?_⟩ _
  · cases hxy with
    | enclosing hp =>
      have hlt := Nat.lt_one_iff.1 (Scopes.lt_next_of_enclosing hp)
      rw [hlt] at hp
      cases hp
    | bound hv _ =>
      rw [Scopes.own?_push] at hv
      cases hv
    | field hv _ => cases hv
  · exact absurd hf (Array.not_mem_empty f)

/-- All that is there is at hand, and stays so. -/
theorem holding : Holding Closed Has Linked where
  refl := .refl
  trans h h' := h.trans h'
  later h hx := h.has hx
  global h := h.tree.global
  refers h _ hxy := h.refers hxy
  hosts h := h.hosts
  same h hs hi hh := ⟨.same hs hi, h.same hs hi hh⟩
  push {m p} h hp := ⟨⟨.push m p, h.push hp⟩, by simp [Has]⟩
  bind {m i v} name h _ hv := ⟨.define m i name v, h.define i name hv⟩
  pushInstance {m} h := ⟨⟨.pushInstance m, h.pushInstance⟩, by simp [Has]⟩
  put {m id v} name h _ hv := ⟨.put m id name v, h.put id name hv⟩

/-- From each scope that is there a way leads to the global one. -/
theorem rooted (h : m.Closed) {i : Nat} (hi : i < m.scopes.next) : ∃ path, m.scopes.Rooted i path :=
  h.tree.rooted hi

end Closed

end Lox.Machine
