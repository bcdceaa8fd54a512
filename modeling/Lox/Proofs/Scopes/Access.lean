import Lox.Access
import Lox.Proofs.Simulation.World

/-!
# Two ways to a binding

A forest is what comes of creating scopes and of binding names in them. Main statement: to
walk from a scope to the nearest one that binds a name comes to the same as to go there by
the number of links, for reading and for changing, and a change is seen from just those
scopes of which it is the nearest binding.
-/

set_option autoImplicit false

namespace Lox

variable {α : Type}

namespace Scopes

/-- The link that is kept in a scope. -/
def link? (s : Scopes α) (i : Nat) : Option Nat := s.cells[i]?.bind (·.enclosing)

/-- Scopes that come of creating them and of binding names in them. -/
inductive Forest : Scopes α → Prop
  | empty : Forest .empty
  | push {s : Scopes α} {enclosing : Option Nat} (h : Forest s) (he : ∀ p ∈ enclosing, p < s.next) :
      Forest (s.push enclosing)
  | define {s : Scopes α} (h : Forest s) (i : Nat) (name : String) (v : α) :
      Forest (s.define i name v)
  | assign {s t : Scopes α} {i : Nat} {name : Token} {v : α} (h : Forest s)
      (ha : Access.assign i name v s = .ok () t) : Forest t
  | assignAt {s t : Scopes α} {i distance : Nat} {name : Token} {v : α} (h : Forest s)
      (ha : Access.assignAt i distance name v s = .ok () t) : Forest t

/-- `s.Up i k a`: from scope `i` it is `k` links up to scope `a`. -/
inductive Up (s : Scopes α) : Nat → Nat → Nat → Prop
  | here {i : Nat} : Up s i 0 i
  | out {i p k a : Nat} (hp : s.link? i = some p) (h : Up s p k a) : Up s i (k + 1) a

/-- From scope `i` the least number of links to a scope that binds the name is `k`, and that
scope is `a`. -/
structure Nearest (s : Scopes α) (name : String) (i k a : Nat) : Prop where
  up : s.Up i k a
  bound : (s.own? a name).isSome = true
  least (j b : Nat) : j < k → s.Up i j b → s.own? b name = none

/-- The name has the value in scope `a`, and nothing else is different. -/
structure Rebound (s t : Scopes α) (a : Nat) (name : String) (v : α) : Prop where
  next : t.next = s.next
  links (b : Nat) : t.link? b = s.link? b
  value : t.own? a name = some v
  others (b : Nat) (other : String) : b ≠ a ∨ other ≠ name → t.own? b other = s.own? b other

section Links

variable {s : Scopes α} {i p : Nat}

theorem link?_push (s : Scopes α) (enclosing : Option Nat) (i : Nat) :
    (s.push enclosing).link? i = if i = s.next then enclosing else s.link? i := by
  unfold link? push next
  rw [Array.getElem?_push]
  split <;> rfl

theorem link?_define (s : Scopes α) (i j : Nat) (name : String) (v : α) :
    (s.define i name v).link? j = s.link? j := by
  unfold link? define
  rw [Array.getElem?_modify]
  split
  · cases s.cells[j]? <;> rfl
  · rfl

end Links

end Scopes

namespace Access

variable {s t : Scopes α} {i k a : Nat} {name : Token} {v : α}
  {find : Scopes α → Option α} {change : Scopes α → Option (Scopes α)}

theorem reading_some (h : find s = some v) : reading name find s = .ok v s := by
  unfold reading
  rw [h]

theorem reading_none (h : find s = none) :
    reading name find s = .error (.runtime name.line (.undefinedVariable name.lexeme)) s := by
  unfold reading
  rw [h]
  rfl

theorem changing_some (h : change s = some t) : changing name change s = .ok () t := by
  unfold changing
  rw [h]

theorem changing_none (h : change s = none) :
    changing name change s = .error (.runtime name.line (.undefinedVariable name.lexeme)) s := by
  unfold changing
  rw [h]
  rfl

theorem eq_some_of_changing (h : changing name change s = .ok () t) : change s = some t := by
  cases hc : change s with
  | none =>
    rw [changing_none hc] at h
    cases h
  | some t' =>
    rw [changing_some hc] at h
    cases h
    rfl

theorem eq_define_of_assign (h : assign i name v s = .ok () t) :
    ∃ a, t = s.define a name.lexeme v := by
  obtain ⟨a, -, ha⟩ := Option.map_eq_some_iff.1 (eq_some_of_changing h)
  exact ⟨a, ha.symm⟩

theorem eq_define_of_assignAt (h : assignAt i k name v s = .ok () t) :
    ∃ a, t = s.define a name.lexeme v := by
  obtain ⟨a, -, ha⟩ := Option.map_eq_some_iff.1 (eq_some_of_changing h)
  exact ⟨a, ha.symm⟩

end Access

namespace Scopes

section Forest

variable {s t : Scopes α} {i j k a b p : Nat} {name : String}

/-- A link goes to a scope that was there before. -/
theorem Forest.link_lt (h : Forest s) (hp : s.link? i = some p) : p < i := by
  induction h with
  | empty => cases hp
  | @push s enclosing _ he ih =>
    rw [link?_push] at hp
    split at hp
    · rename_i hi
      exact hi ▸ he p hp
    · exact ih hp
  | define _ _ _ _ ih =>
    rw [link?_define] at hp
    exact ih hp
  | assign _ ha ih =>
    obtain ⟨_, rfl⟩ := Access.eq_define_of_assign ha
    rw [link?_define] at hp
    exact ih hp
  | assignAt _ ha ih =>
    obtain ⟨_, rfl⟩ := Access.eq_define_of_assignAt ha
    rw [link?_define] at hp
    exact ih hp

/-- All links count. -/
theorem Forest.enclosing?_eq (h : Forest s) (i : Nat) : s.enclosing? i = s.link? i := by
  have hlt {p : Nat} : s.link? i = some p → p < i := h.link_lt
  unfold link? at hlt ⊢
  unfold enclosing?
  rcases hc : s.cells[i]? with _ | ⟨names, _ | p⟩
  · rfl
  · rfl
  · rw [hc] at hlt
    exact if_pos (hlt rfl)

theorem Forest.ancestor?_eq_some_iff (h : Forest s) : s.ancestor? k i = some a ↔ s.Up i k a := by
  induction k generalizing i with
  | zero =>
    constructor
    · intro ha
      cases ha
      exact .here
    · intro hup
      cases hup
      rfl
  | succ k ih =>
    rw [ancestor?, h.enclosing?_eq]
    constructor
    · intro ha
      cases hp : s.link? i with
      | none =>
        rw [hp] at ha
        cases ha
      | some p =>
        rw [hp] at ha
        exact .out hp (ih.1 ha)
    · intro hup
      cases hup with
      | out hp hup =>
        rw [hp]
        exact ih.2 hup

theorem Up.unique (h : s.Up i k a) (h' : s.Up i k b) : a = b := by
  induction h with
  | here =>
    cases h'
    rfl
  | out hp _ ih =>
    cases h' with
    | out hp' h' =>
      rw [hp] at hp'
      cases hp'
      exact ih h'

theorem holder?_eq (s : Scopes α) (name : String) (i : Nat) :
    s.holder? name i =
      if (s.own? i name).isSome then some i else (s.enclosing? i).bind (s.holder? name) := by
  rw [holder?]
  split
  · rename_i h
    simp [h]
  · rename_i h
    split <;> simp [*]

theorem Nearest.holder? (hs : Forest s) (h : s.Nearest name i k a) : s.holder? name i = some a := by
  induction k generalizing i with
  | zero =>
    obtain ⟨hup, hbound, -⟩ := h
    cases hup
    rw [holder?_eq, if_pos hbound]
  | succ k ih =>
    obtain ⟨hup, hbound, hleast⟩ := h
    cases hup with
    | @out _ p _ _ hp hup =>
      have hi : s.own? i name = none := hleast 0 i (Nat.zero_lt_succ k) .here
      rw [holder?_eq, hi, if_neg (by simp), hs.enclosing?_eq, hp]
      exact ih ⟨hup, hbound, fun j b hj hb => hleast (j + 1) b (Nat.succ_lt_succ hj) (.out hp hb)⟩

theorem nearest_of_holder? (hs : Forest s) (h : s.holder? name i = some a) :
    ∃ k, s.Nearest name i k a := by
  induction i using Nat.strongRecOn with
  | _ i ih =>
    rw [holder?_eq] at h
    split at h
    · rename_i hi
      cases h
      exact ⟨0, .here, hi, fun j b hj _ => absurd hj (Nat.not_lt_zero j)⟩
    · rename_i hi
      rw [hs.enclosing?_eq] at h
      cases hp : s.link? i with
      | none =>
        rw [hp] at h
        cases h
      | some p =>
        rw [hp] at h
        obtain ⟨k, hup, hbound, hleast⟩ := ih p (hs.link_lt hp) h
        refine ⟨k + 1, .out hp hup, hbound, fun j b hj hb => ?_⟩
        cases hb with
        | here => simpa using hi
        | out hp' hb =>
          rw [hp] at hp'
          cases hp'
          exact hleast _ b (Nat.lt_of_succ_lt_succ hj) hb

theorem nearest_iff (hs : Forest s) :
    (∃ k, s.Nearest name i k a) ↔ s.holder? name i = some a :=
  ⟨fun ⟨_, h⟩ => h.holder? hs, nearest_of_holder? hs⟩

/-- Which scope is the nearest depends on the links and on the names that are bound. -/
theorem holder?_congr (hlinks : ∀ b, t.enclosing? b = s.enclosing? b)
    (hbound : ∀ b, (t.own? b name).isSome = (s.own? b name).isSome) (i : Nat) :
    t.holder? name i = s.holder? name i := by
  induction i using Nat.strongRecOn with
  | _ i ih =>
    rw [holder?_eq t, holder?_eq s, hbound, hlinks]
    cases hp : s.enclosing? i with
    | none => rfl
    | some p => simp only [Option.bind_some, ih p (enclosing?_lt hp)]

/-- To bind a name where it is bound already adds no binding. -/
theorem isSome_define (h : (s.own? a name).isSome = true) (v : α) (b : Nat) (other : String) :
    ((s.define a name v).own? b other).isSome = (s.own? b other).isSome := by
  by_cases hne : b ≠ a ∨ other ≠ name
  · rw [own?_define_of_ne _ _ hne]
  · obtain ⟨rfl, rfl⟩ : b = a ∧ other = name := by simpa using hne
    rw [own?_define_self _ _ _ (lt_next_of_own h), h]
    rfl

theorem holder?_define (h : (s.own? a name).isSome = true) (v : α) (other : String) (i : Nat) :
    (s.define a name v).holder? other i = s.holder? other i :=
  holder?_congr (fun b => enclosing?_define s a b name v) (fun b => isSome_define h v b other) i

end Forest

end Scopes

namespace Access

open Scopes

variable {s : Scopes α} {i k a : Nat} {name : Token} {v : α}

theorem get_of_holder (h : s.holder? name.lexeme i = some a)
    (hv : s.own? a name.lexeme = some v) : get i name s = .ok v s := by
  apply reading_some
  unfold Scopes.get?
  rw [h]
  exact hv

/-- From just the scopes of which it is the nearest binding the new value is had. -/
theorem get_define (hs : Forest s) (ha : (s.own? a name.lexeme).isSome = true) (v : α) (j : Nat) :
    ((∃ k, s.Nearest name.lexeme j k a) →
      get j name (s.define a name.lexeme v) = .ok v (s.define a name.lexeme v)) ∧
    ((¬ ∃ k, s.Nearest name.lexeme j k a) →
      (s.define a name.lexeme v).get? j name.lexeme = s.get? j name.lexeme) := by
  have hholder := holder?_define ha v name.lexeme j
  rw [nearest_iff hs]
  constructor
  · intro hj
    exact get_of_holder (hholder.trans hj) (own?_define_self _ _ _ (lt_next_of_own ha))
  · intro hj
    unfold Scopes.get?
    rw [hholder]
    cases hb : s.holder? name.lexeme j with
    | none => rfl
    | some b => exact own?_define_of_ne _ _ (.inl fun he => hj (he ▸ hb))

theorem getAt_of_nearest (hs : Forest s) (h : s.Nearest name.lexeme i k a)
    (hv : s.own? a name.lexeme = some v) : getAt i k name s = .ok v s := by
  apply reading_some
  unfold Scopes.getAt?
  rw [hs.ancestor?_eq_some_iff.2 h.up]
  exact hv

theorem assign_of_nearest (hs : Forest s) (h : s.Nearest name.lexeme i k a) (v : α) :
    assign i name v s = .ok () (s.define a name.lexeme v) := by
  apply changing_some
  unfold Scopes.assign?
  rw [h.holder? hs]
  rfl

theorem assignAt_of_nearest (hs : Forest s) (h : s.Nearest name.lexeme i k a) (v : α) :
    assignAt i k name v s = .ok () (s.define a name.lexeme v) := by
  apply changing_some
  unfold Scopes.assignAt?
  rw [hs.ancestor?_eq_some_iff.2 h.up]
  rfl

/-- To walk to the nearest scope that binds a name, and to go there by the number of links, is
the same. The binding that is found is the only one that an assignment changes, and its value
is had from just the scopes of which it is the nearest. Without one, reading and assigning
blame the occurrence and change nothing. An assignment never adds a binding. -/
theorem walk_eq_jump (hs : s.Forest) (i : Nat) (name : Token) (v : α) :
    (∀ k a, s.Nearest name.lexeme i k a →
      (get i name s = getAt i k name s ∧
        ∃ w, s.own? a name.lexeme = some w ∧ get i name s = .ok w s) ∧
      assign i name v s = assignAt i k name v s ∧
      ∃ t, assign i name v s = .ok () t ∧ Rebound s t a name.lexeme v ∧
        ∀ j, ((∃ l, s.Nearest name.lexeme j l a) → get j name t = .ok v t) ∧
          ((¬ ∃ l, s.Nearest name.lexeme j l a) →
            t.get? j name.lexeme = s.get? j name.lexeme)) ∧
    ((∀ k a, ¬ s.Nearest name.lexeme i k a) →
      get i name s = .error (.runtime name.line (.undefinedVariable name.lexeme)) s ∧
      assign i name v s = .error (.runtime name.line (.undefinedVariable name.lexeme)) s) ∧
    ∀ t, assign i name v s = .ok () t →
      ∀ b other, (t.own? b other).isSome = (s.own? b other).isSome := by
  refine ⟨fun k a h => ?_, fun hnone => ?_, fun t ht => ?_⟩
  · obtain ⟨w, hw⟩ := Option.isSome_iff_exists.1 h.bound
    have hget : get i name s = .ok w s := get_of_holder (h.holder? hs) hw
    have hassign := assign_of_nearest hs h v
    have hrebound : Rebound s (s.define a name.lexeme v) a name.lexeme v :=
      ⟨next_define .., fun b => link?_define .., own?_define_self _ _ _ (lt_next_of_own h.bound),
        fun _ _ hne => own?_define_of_ne _ _ hne⟩
    exact ⟨⟨hget.trans (getAt_of_nearest hs h hw).symm, w, hw, hget⟩,
      hassign.trans (assignAt_of_nearest hs h v).symm, _, hassign, hrebound,
      get_define hs h.bound v⟩
  · have hholder : s.holder? name.lexeme i = none := by
      cases ha : s.holder? name.lexeme i with
      | none => rfl
      | some a =>
        obtain ⟨k, h⟩ := nearest_of_holder? hs ha
        exact absurd h (hnone k a)
    constructor
    · apply reading_none
      unfold Scopes.get?
      rw [hholder]
      rfl
    · apply changing_none
      unfold Scopes.assign?
      rw [hholder]
      rfl
  · obtain ⟨a, ha, rfl⟩ := Option.map_eq_some_iff.1 (eq_some_of_changing ht)
    obtain ⟨k, h⟩ := nearest_of_holder? hs ha
    exact isSome_define h.bound v

/-- A global binding, and two scopes in the global one of which the second shadows it. -/
def shadowed : Scopes Nat :=
  ((((Scopes.empty.push none).define 0 "a" 1).push (some 0)).push (some 0)).define 2 "a" 2

theorem forest_shadowed : shadowed.Forest := by
  have hglobal : ((Scopes.empty : Scopes Nat).push none).Forest := .push .empty nofun
  have hfirst : (((Scopes.empty.push none).define 0 "a" 1).push (some 0)).Forest :=
    .push (hglobal.define 0 "a" 1) (by decide)
  exact (Forest.push hfirst (by decide)).define 2 "a" 2

theorem walk_eq_jump_shadowed : shadowed.Forest ∧ ∃ t,
    assign 1 (.ofName "a" 1) 3 shadowed = .ok () t ∧ get 0 (.ofName "a" 1) t = .ok 3 t ∧
      t.get? 2 "a" = shadowed.get? 2 "a" := by
  have hbase : shadowed.Nearest "a" 0 0 0 := ⟨.here, rfl, nofun⟩
  have hinner : shadowed.Nearest "a" 1 1 0 := by
    refine ⟨.out rfl .here, rfl, fun j b hj hb => ?_⟩
    obtain rfl : j = 0 := Nat.lt_one_iff.1 hj
    cases hb
    rfl
  have hsecond : ¬ ∃ l, shadowed.Nearest "a" 2 l 0 := by
    rintro ⟨l, hup, -, hleast⟩
    cases hup with
    | out hp hup => exact Option.some_ne_none _ (hleast 0 2 (Nat.zero_lt_succ _) .here)
  obtain ⟨-, -, t, ht, -, hget⟩ :=
    (walk_eq_jump forest_shadowed 1 (.ofName "a" 1) 3).1 1 0 hinner
  exact ⟨forest_shadowed, t, ht, (hget 0).1 ⟨0, hbase⟩, (hget 2).2 hsecond⟩

end Access

end Lox
