import Lox.Proofs.Simulation.Value

/-!
# Matching machines

Two machines match if they are the same up to twins of values and up to the renaming of
the names in each scope. Matching machines still match after the same change to both, in
a world that has grown by it.
-/

set_option autoImplicit false

namespace Lox.Simulation

open Scoping

structure Match (link : Link) (w : World) (m m' : Machine) : Prop where
  scopes : w.scopes = m.scopes
  next : m'.scopes.next = m.scopes.next
  enclosing (i : Nat) : m'.scopes.enclosing? i = m.scopes.enclosing? i
  own (i : Nat) (name : String) :
    Option.Rel (ValueTwin link w) (m.scopes.own? i name) (m'.scopes.own? i (w.names i name))
  global : Machine.global < m.scopes.next
  globalNames : w.names Machine.global = .keep
  renames (i : Nat) : link.renames (w.names i)
  size : m'.instances.size = m.instances.size
  field (id : Nat) (name : String) :
    Option.Rel (ValueTwin link w) (m.field? id name) (m'.field? id name)
  serial : m'.serial = m.serial
  depths (i j : Nat) : link.id i j → m'.depths.get? j = m.depths.get? i
  known (r : Reference) (d : Option Nat) : link.known r d → m.depths.get? r.id = d
  hosts : m'.hosts = m.hosts
  closed : ∀ f ∈ m.hosts, Sealed f
  sink : m'.sink = m.sink
  clock : m'.clock = m.clock

namespace Match

variable {link : Link} {w : World} {m m' : Machine} (hm : Match link w m m')

include hm

theorem ancestor (d i : Nat) : m'.scopes.ancestor? d i = m.scopes.ancestor? d i := by
  induction d generalizing i with
  | zero => rfl
  | succ d ih =>
    simp only [Scopes.ancestor?, hm.enclosing]
    split
    · exact ih _
    · rfl

/-- What the innermost scope declares has the new name that its scope gives it. -/
theorem ownName {rs : List Renaming} {fs : Frames} {i : Nat} (h : Models w rs fs i)
    (name : String) : ownName rs name = w.names i name := by
  cases rs with
  | nil =>
    cases fs with
    | nil =>
      have hi : i = Machine.global := h
      rw [hi, hm.globalNames]
      rfl
    | cons => exact h.elim
  | cons r rs =>
    cases fs with
    | nil => exact h.elim
    | cons f fs => exact congrArg (fun r : Renaming => r name) h.1.symm

theorem scope_lt {rs : List Renaming} {fs : Frames} {i : Nat} (h : Models w rs fs i) :
    i < m.scopes.next := by
  cases rs with
  | nil =>
    cases fs with
    | nil =>
      have hi : i = Machine.global := h
      rw [hi]
      exact hm.global
    | cons => exact h.elim
  | cons r rs =>
    cases fs with
    | nil => exact h.elim
    | cons f fs =>
      obtain ⟨-, -, p, hp, -⟩ := h
      rw [← hm.scopes]
      exact Scopes.lt_next_of_enclosing hp

theorem after_define {i : Nat} (hi : i < m.scopes.next) (name : String) {v v' : Value}
    (hv : ValueTwin link (w.define i name v) v v') :
    Match link (w.define i name v) { m with scopes := m.scopes.define i name v }
      { m' with scopes := m'.scopes.define i (w.names i name) v' } where
  scopes := congrArg (Scopes.define · i name v) hm.scopes
  next := by simp only [Scopes.next_define, hm.next]
  enclosing j := by simp only [Scopes.enclosing?_define, hm.enclosing]
  own j other := by
    have hw : w.Extends (w.define i name v) := w.extends_define name v (hm.scopes ▸ hi)
    show Option.Rel _ ((m.scopes.define i name v).own? j other)
      ((m'.scopes.define i (w.names i name) v').own? j (w.names j other))
    by_cases h : j = i ∧ other = name
    · obtain ⟨rfl, rfl⟩ := h
      rw [Scopes.own?_define_self _ _ _ hi, Scopes.own?_define_self _ _ _ (hm.next ▸ hi)]
      exact .some hv
    · have hne : j ≠ i ∨ other ≠ name := by tauto
      have hne' : j ≠ i ∨ w.names j other ≠ w.names i name := by
        by_cases hj : j = i
        · subst hj
          exact .inr fun he => hne.elim (absurd rfl) fun hn => hn ((w.names j).injective he)
        · exact .inl hj
      rw [Scopes.own?_define_of_ne _ _ hne, Scopes.own?_define_of_ne _ _ hne']
      exact (hm.own j other).imp fun _ _ h => h.mono hw
  global := by simpa only [Scopes.next_define] using hm.global
  globalNames := hm.globalNames
  renames := hm.renames
  size := hm.size
  field id other := (hm.field id other).imp fun _ _ h =>
    h.mono (w.extends_define name v (hm.scopes ▸ hi))
  serial := hm.serial
  depths := hm.depths
  known := hm.known
  hosts := hm.hosts
  closed := hm.closed
  sink := hm.sink
  clock := hm.clock

theorem after_push {p : Nat} (hp : p < m.scopes.next) {r : Renaming} (hr : link.renames r) :
    Match link (w.push p r) { m with scopes := m.scopes.push (some p) }
      { m' with scopes := m'.scopes.push (some p) } where
  scopes := congrArg (Scopes.push · (some p)) hm.scopes
  next := by simp only [Scopes.next_push, hm.next]
  enclosing j := by
    have hp' : p < m'.scopes.next := hm.next ▸ hp
    by_cases hj : j < m.scopes.next
    · have hj' : j < m'.scopes.next := hm.next ▸ hj
      rw [Scopes.enclosing?_push_of_lt _ _ hj, Scopes.enclosing?_push_of_lt _ _ hj', hm.enclosing]
    · by_cases he : j = m.scopes.next
      · have he' : j = m'.scopes.next := he.trans hm.next.symm
        rw [he, Scopes.enclosing?_push_self _ hp, ← he, he', Scopes.enclosing?_push_self _ hp']
      · have hout : ∀ s : Scopes Value, s.next = m.scopes.next →
            (s.push (some p)).enclosing? j = none := by
          intro s hs
          cases h : (s.push (some p)).enclosing? j with
          | none => rfl
          | some q =>
            have hlt := Scopes.lt_next_of_enclosing h
            rw [Scopes.next_push] at hlt
            omega
        rw [hout _ rfl, hout _ hm.next]
  own j other := by
    show Option.Rel _ ((m.scopes.push (some p)).own? j other) _
    rw [Scopes.own?_push, Scopes.own?_push]
    by_cases hj : j = w.scopes.next
    · have hnone : ∀ (s : Scopes Value) (n : String), s.next = w.scopes.next →
          s.own? j n = none := by
        intro s n hs
        by_contra h
        have hlt := Scopes.lt_next_of_own (Option.isSome_iff_ne_none.2 h)
        omega
      have hs : w.scopes.next = m.scopes.next := congrArg Scopes.next hm.scopes
      rw [hnone _ _ hs.symm, hnone _ _ (hm.next.trans hs.symm)]
      exact .none
    · have hn : (w.push p r).names j = w.names j := if_neg hj
      rw [hn]
      exact (hm.own j other).imp fun _ _ h => h.mono (w.extends_push p r)
  global := by simpa only [Scopes.next_push] using Nat.lt_succ_of_lt hm.global
  globalNames := by
    have hg : Machine.global ≠ w.scopes.next := by
      rw [hm.scopes]
      exact Nat.ne_of_lt hm.global
    exact (if_neg hg).trans hm.globalNames
  renames i := by
    show link.renames (if i = w.scopes.next then r else w.names i)
    split
    · exact hr
    · exact hm.renames i
  size := hm.size
  field id other := (hm.field id other).imp fun _ _ h => h.mono (w.extends_push p r)
  serial := hm.serial
  depths := hm.depths
  known := hm.known
  hosts := hm.hosts
  closed := hm.closed
  sink := hm.sink
  clock := hm.clock

end Match

end Lox.Simulation
