import Lox.Proofs.Placement.Chain

/-!
# Values whose code is placed

Every closure that can be had has its declaration in one of the programs, and the scope it
was made in continues the chain of scopes there. A closure that is called has its receiver at
hand if it is a method, and is no initializer otherwise. A machine is sane if this holds of
all values in its scopes and instances.
-/

set_option autoImplicit false

namespace Lox.Placement

open Scoping Evaluation

variable {S S' : Setting} {m m' : Machine}

/-- A method in the table of its class, under its name. -/
structure Method (S : Setting) (m : Machine) (name : String) (f : Closure) : Prop where
  name : f.declaration.name.lexeme = name
  isInitializer : f.isInitializer = f.declaration.isInitializer
  placed : ∃ program ∈ S.programs, ∃ p x r ms k, Occurs program p (.stmt (.class x r ms)) ∧
    f.declaration ∈ ms ∧ Home S m x ms k r f.scope ∧ Chain S m p k

def ValidBody (S : Setting) (m : Machine) (b : ClassBody) : Prop :=
  ∀ name f, b.methods.get? name = some f → Method S m name f

def ValidClass (S : Setting) (m : Machine) (c : Class) : Prop :=
  ∀ b ∈ c.body :: c.ancestors, ValidBody S m b

/-- A closure that can be called: that of a function, or of a method with its receiver. -/
inductive Callable (S : Setting) (m : Machine) (f : Closure) : Prop
  | function {program : List Stmt} {p : Path} (hp : program ∈ S.programs)
      (ho : Occurs program p (.stmt (.function f.declaration))) (hc : Chain S m p f.scope)
      (hi : f.isInitializer = false)
  | method {name : String} {id j : Nat} {c : Class} (hr : Receiver m f.scope id c j)
      (hm : Method S m name { f with scope := j })

inductive Valid (S : Setting) (m : Machine) : Value → Prop
  | plain {v : Value} (hv : v.plain = true) : Valid S m v
  | function {id : Nat} {f : Closure} (hf : Callable S m f) : Valid S m (.function id f)
  | class {c : Class} (hc : ValidClass S m c) : Valid S m (.class c)
  | instance {id : Nat} {c : Class} (hid : id < m.instances.size) (hc : ValidClass S m c) :
      Valid S m (.instance id c)

structure Sane (S : Setting) (m : Machine) : Prop where
  global : Machine.global < m.scopes.next
  names (i : Nat) (name : String) (v : Value) : m.scopes.own? i name = some v → Valid S m v
  fields (id : Nat) (name : String) (v : Value) : m.field? id name = some v → Valid S m v
  hosts : ∀ code ∈ m.hosts, Simulation.Sealed code

section Growing

variable (hS : S.Within S') (hg : m.Grows m')

include hS hg

theorem Method.grow {name : String} {f : Closure} (h : Method S m name f) : Method S' m' name f := by
  obtain ⟨program, hp, p, x, r, ms, k, ho, hf, hh, hc⟩ := h.placed
  exact ⟨h.name, h.isInitializer, program, hS.programs hp, p, x, r, ms, k, ho, hf, hh.grow hS hg,
    hc.grow hS hg⟩

theorem ValidClass.grow {c : Class} (h : ValidClass S m c) : ValidClass S' m' c :=
  fun b hb name f hf => (h b hb name f hf).grow hS hg

theorem Callable.grow {f : Closure} (h : Callable S m f) : Callable S' m' f := by
  cases h with
  | function hp ho hc hi => exact .function (hS.programs hp) ho (hc.grow hS hg) hi
  | method hr hm => exact .method (hr.grow hg) (hm.grow hS hg)

theorem Valid.grow {v : Value} (h : Valid S m v) : Valid S' m' v := by
  cases h with
  | plain hv => exact .plain hv
  | function hf => exact .function (hf.grow hS hg)
  | «class» hc => exact .class (hc.grow hS hg)
  | «instance» hid hc => exact .instance (Nat.lt_of_lt_of_le hid hg.instances) (hc.grow hS hg)

end Growing

theorem Valid.later {v : Value} (h : Valid S m v) (hg : m.Grows m') : Valid S m' v :=
  h.grow (.refl S) hg

theorem Valid.classOf {id : Nat} {c : Class} (h : Valid S m (.instance id c)) : ValidClass S m c := by
  cases h with
  | plain hv => cases hv
  | «instance» _ hc => exact hc

theorem Valid.lt_size {id : Nat} {c : Class} (h : Valid S m (.instance id c)) :
    id < m.instances.size := by
  cases h with
  | plain hv => cases hv
  | «instance» hid _ => exact hid

theorem Method.lt_next {name : String} {f : Closure} (h : Method S m name f)
    (hm : Machine.global < m.scopes.next) : f.scope < m.scopes.next := by
  obtain ⟨_, _, _, _, _, _, _, _, _, hh, hc⟩ := h.placed
  exact hh.lt_next (hc.lt_next hm)

theorem ValidClass.findMethod? {c : Class} (h : ValidClass S m c) {name : String} {f : Closure}
    (hf : c.findMethod? name = some f) : Method S m name f := by
  obtain ⟨b, hb, hf⟩ := List.exists_of_findSome?_eq_some hf
  exact h b hb name f hf

theorem ValidClass.initializer? {c : Class} (h : ValidClass S m c) {f : Closure}
    (hf : c.initializer? = some f) : Method S m Function.initializerName f :=
  h.findMethod? hf

theorem ValidClass.derive {b : ClassBody} (hb : ValidBody S m b) {parent : Option Class}
    (hp : ∀ c ∈ parent, ValidClass S m c) : ValidClass S m (.derive b parent) := by
  cases parent with
  | none => exact fun b' hb' => List.mem_singleton.1 hb' ▸ hb
  | some c => exact List.forall_mem_cons.2 ⟨hb, hp c rfl⟩

/-- The names in the tree of a program that may run. -/
theorem Setting.formed_of_occurs (S : Setting) {program : List Stmt} (hp : program ∈ S.programs)
    {p : Path} {n : Node} (ho : Occurs program p n) : n.Formed Free :=
  (walked_of_occurs (S.formed program hp) ho).1

theorem formed_of_mem_methods {ok : String → Prop} {f : Function} {ms : List Function} (hf : f ∈ ms)
    (h : Function.AllFormed ok ms) : f.Formed ok := by
  induction ms with
  | nil => cases hf
  | cons g ms ih =>
    rcases List.mem_cons.1 hf with rfl | hf
    · exact h.1
    · exact ih hf h.2

theorem formed_params {ok : String → Prop} {f : Function} (h : f.Formed ok) :
    ∀ q ∈ f.params, ok q.lexeme := by
  cases f with
  | mk => exact h.2.1

/-- The parameters of a closure are identifiers, and its body stands in each new scope inside
that of the closure. -/
theorem Callable.inside {f : Closure} (h : Callable S m f) :
    (∀ q ∈ f.declaration.params, Free q.lexeme) ∧ ∀ m' i, m.Grows m' → Ordinary m' i f.scope →
      ∀ s ∈ f.declaration.body, Stands S m' i (.stmt s) := by
  cases h with
  | @function program p hp ho hc hi =>
    refine ⟨formed_params (S.formed_of_occurs hp ho), fun m' i hg hi s hs => ?_⟩
    refine ⟨program, hp, .function f.declaration :: p, ?_, .inner rfl hi (hc.grow (.refl S) hg)⟩
    exact ho.child (List.mem_map.2 ⟨s, hs, rfl⟩)
  | @method name id j c hr hm =>
    obtain ⟨program, hp, p, x, r, ms, k, ho, hf, hh, hc⟩ := hm.placed
    have hformed := formed_of_mem_methods hf (S.formed_of_occurs hp ho).2.2
    refine ⟨formed_params hformed, fun m' i hg hi s hs => ?_⟩
    refine ⟨program, hp, .method f.declaration :: .class x r :: p, ?_, ?_⟩
    · exact ho.child (List.mem_flatMap.2 ⟨f.declaration, hf, List.mem_map.2 ⟨s, hs, rfl⟩⟩)
    · exact .method hi (hr.grow hg) hf (hh.grow (.refl S) hg) (hc.grow (.refl S) hg)

/-- The scope of a closure is there. -/
theorem Callable.lt_next {f : Closure} (h : Callable S m f) (hm : Machine.global < m.scopes.next) :
    f.scope < m.scopes.next := by
  cases h with
  | function _ _ hc _ => exact hc.lt_next hm
  | method hr _ => exact Scopes.lt_next_of_enclosing hr.enclosing

end Lox.Placement
