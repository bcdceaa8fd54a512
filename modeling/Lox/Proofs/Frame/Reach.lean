import Lox.Proofs.Placement.Effect

/-!
# What can be reached

A scope or an instance refers to whatever its names or fields, or its link, lead to. What can be
reached from some values is what their code and they themselves lead to, and what can be reached
from the global scope.
-/

set_option autoImplicit false

namespace Lox

/-- The link of a scope after another was added is that of the new scope or one from before. -/
theorem Scopes.enclosing?_push_cases {α : Type} {s : Scopes α} {e : Option Nat} {i p : Nat}
    (h : (s.push e).enclosing? i = some p) : s.enclosing? i = some p ∨ e = some p := by
  rcases Nat.lt_or_ge i s.next with hi | hi
  · exact .inl (enclosing?_push_of_lt s e hi ▸ h)
  · have hlt := lt_next_of_enclosing h
    rw [next_push] at hlt
    obtain rfl : i = s.next := by omega
    unfold enclosing? push next at h
    rw [Array.getElem?_push_size] at h
    cases e with
    | none => cases h
    | some q =>
      simp only at h
      split at h
      · exact .inr h
      · cases h

/-- What a machine has by number. -/
inductive Thing where
  | scope (i : Nat)
  | instance (id : Nat)
deriving DecidableEq, Repr

/-- A value leads to the scopes of its code: a function to its own, a class to those of all
methods in its table and in those of the classes it inherits from. An instance leads to itself
and to what its class leads to. -/
inductive Value.Refers : Value → Thing → Prop
  | closure {id : Nat} {f : Closure} : Refers (.function id f) (.scope f.scope)
  | method {c : Class} {b : ClassBody} {name : String} {f : Closure}
      (hb : b ∈ c.body :: c.ancestors) (hf : b.methods.get? name = some f) :
      Refers (.class c) (.scope f.scope)
  | self {id : Nat} {c : Class} : Refers (.instance id c) (.instance id)
  | classOf {id : Nat} {c : Class} {x : Thing} (h : Refers (.class c) x) :
      Refers (.instance id c) x

theorem Value.not_refers_of_plain {v : Value} (hv : v.plain = true) (x : Thing) : ¬ v.Refers x := by
  rintro ⟨⟩ <;> cases hv

namespace Machine

variable {m : Machine} {vs : List Value} {x y : Thing}

inductive Refers (m : Machine) : Thing → Thing → Prop
  | enclosing {i p : Nat} (h : m.scopes.enclosing? i = some p) : Refers m (.scope i) (.scope p)
  | bound {i : Nat} {name : String} {v : Value} {x : Thing} (h : m.scopes.own? i name = some v)
      (hv : v.Refers x) : Refers m (.scope i) x
  | field {id : Nat} {name : String} {v : Value} {x : Thing} (h : m.field? id name = some v)
      (hv : v.Refers x) : Refers m (.instance id) x

def Has (m : Machine) : Thing → Prop
  | .scope i => i < m.scopes.next
  | .instance id => id < m.instances.size

/-- What can be reached from the values or from the global scope. -/
inductive Reaches (m : Machine) (vs : List Value) : Thing → Prop
  | global : Reaches m vs (.scope global)
  | value {v : Value} {x : Thing} (hv : v ∈ vs) (h : v.Refers x) : Reaches m vs x
  | step {x y : Thing} (h : Reaches m vs x) (hs : m.Refers x y) : Reaches m vs y

/-- Only what is there refers to something. -/
theorem Refers.has (h : m.Refers x y) : m.Has x := by
  cases h with
  | enclosing h => exact Scopes.lt_next_of_enclosing h
  | bound h => exact Scopes.lt_next_of_own (by rw [h]; rfl)
  | field h =>
    obtain ⟨ns, hns, -⟩ := Option.bind_eq_some_iff.1 h
    exact (Array.getElem?_eq_some_iff.1 hns).1

section Operations

variable {m' : Machine} {i p id : Nat} {name : String} {v : Value}

theorem Refers.of_same (h : m'.Refers x y) (hs : m'.scopes = m.scopes)
    (hi : m'.instances = m.instances) : m.Refers x y := by
  cases h with
  | enclosing hp => exact .enclosing (hs ▸ hp)
  | bound hv hx => exact .bound (hs ▸ hv) hx
  | field hv hx =>
    unfold Machine.field? at hv
    exact .field (hi ▸ hv) hx

theorem Refers.of_push (h : Refers { m with scopes := m.scopes.push (some p) } x y) :
    m.Refers x y ∨ y = .scope p := by
  cases h with
  | enclosing hq =>
    rcases Scopes.enclosing?_push_cases hq with hq | hq
    · exact .inl (.enclosing hq)
    · cases hq
      exact .inr rfl
  | bound hv hx => exact .inl (.bound (Scopes.own?_push _ _ _ _ ▸ hv) hx)
  | field hv hx => exact .inl (.field hv hx)

theorem Refers.of_define (h : Refers { m with scopes := m.scopes.define i name v } x y) :
    m.Refers x y ∨ v.Refers y := by
  cases h with
  | enclosing hp => exact .inl (.enclosing (by simpa using hp))
  | bound hw hx =>
    rcases Scopes.own?_define_cases hw with rfl | hw
    · exact .inr hx
    · exact .inl (.bound hw hx)
  | field hw hx => exact .inl (.field hw hx)

theorem Refers.of_pushInstance (h : Refers { m with instances := m.instances.push [] } x y) :
    m.Refers x y := by
  cases h with
  | enclosing hp => exact .enclosing hp
  | bound hv hx => exact .bound hv hx
  | @field id name v x hv hx => exact .field (m.field?_push id name ▸ hv) hx

theorem Refers.of_put
    (h : Refers { m with instances := m.instances.modify id (Names.put name v) } x y) :
    m.Refers x y ∨ v.Refers y := by
  cases h with
  | enclosing hp => exact .inl (.enclosing hp)
  | bound hw hx => exact .inl (.bound hw hx)
  | field hw hx =>
    rcases Machine.field?_modify_cases hw with rfl | hw
    · exact .inr hx
    · exact .inl (.field hw hx)

end Operations

/-- What there is and is not reached. -/
def Unreached (m : Machine) (vs : List Value) (x : Thing) : Prop := m.Has x ∧ ¬ m.Reaches vs x

/-- A scope is captured by a value that leads to it or to a scope inside it. -/
def Captures (m : Machine) (v : Value) (i : Nat) : Prop :=
  ∃ j, v.Refers (.scope j) ∧ ∃ d, m.scopes.ancestor? d j = some i

/-- Some value that is bound in a scope or kept in a field captures the scope. -/
def Captured (m : Machine) (i : Nat) : Prop :=
  (∃ j name v, m.scopes.own? j name = some v ∧ m.Captures v i) ∨
    ∃ id name v, m.field? id name = some v ∧ m.Captures v i

theorem Captures.enclosing {v : Value} {i p : Nat} (h : m.Captures v i)
    (hp : m.scopes.enclosing? i = some p) : m.Captures v p := by
  obtain ⟨j, hj, d, hd⟩ := h
  exact ⟨j, hj, d + 1, Scopes.ancestor?_succ hd hp⟩

/-- A function that is declared at top level captures no other scope. -/
theorem Captures.eq_global {id i : Nat} {f : Closure} (h : m.Captures (.function id f) i)
    (hf : f.scope = Machine.global) : i = Machine.global := by
  obtain ⟨j, hj, d, hd⟩ := h
  cases hj
  rw [hf] at hd
  cases d with
  | zero => exact (Option.some.inj hd).symm
  | succ d =>
    rw [Scopes.ancestor?, Machine.global, Scopes.enclosing?_global] at hd
    cases hd

theorem not_captures_of_plain {v : Value} (hv : v.plain = true) (i : Nat) : ¬ m.Captures v i :=
  fun ⟨_, hj, _⟩ => Value.not_refers_of_plain hv _ hj

/-- Besides the global scope only those are reached that something captures. -/
theorem Reaches.captured {i : Nat} (h : m.Reaches vs (.scope i)) :
    i = Machine.global ∨ (∃ v ∈ vs, m.Captures v i) ∨ m.Captured i := by
  generalize hx : Thing.scope i = x at h
  induction h generalizing i with
  | global =>
    cases hx
    exact .inl rfl
  | value hv h =>
    subst hx
    exact .inr (.inl ⟨_, hv, i, h, 0, rfl⟩)
  | step _ hs ih =>
    subst hx
    cases hs with
    | enclosing h =>
      rcases ih rfl with rfl | ⟨v, hv, hc⟩ | ⟨j, name, v, hv, hc⟩ | ⟨id, name, v, hv, hc⟩
      · exact absurd (Scopes.enclosing?_lt h) (Nat.not_lt_zero _)
      · exact .inr (.inl ⟨v, hv, hc.enclosing h⟩)
      · exact .inr (.inr (.inl ⟨j, name, v, hv, hc.enclosing h⟩))
      · exact .inr (.inr (.inr ⟨id, name, v, hv, hc.enclosing h⟩))
    | bound h hv => exact .inr (.inr (.inl ⟨_, _, _, h, i, hv, 0, rfl⟩))
    | field h hv => exact .inr (.inr (.inr ⟨_, _, _, h, i, hv, 0, rfl⟩))

end Machine

end Lox
