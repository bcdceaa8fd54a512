import Lox.Names

/-!
# Scopes

Scopes are numbered in the order of their creation. Each holds names with
values and may be enclosed by an older scope; a link to a scope that is not
older counts as none. A name is found by walking outwards to the nearest scope
that holds it, or read in the scope a known number of links up.
-/

set_option autoImplicit false

namespace Lox

structure Scope (α : Type) where
  names : Names α
  enclosing : Option Nat

structure Scopes (α : Type) where
  cells : Array (Scope α)

namespace Scopes

variable {α : Type}

def empty : Scopes α := ⟨#[]⟩

/-- The number that the next scope gets. -/
def next (s : Scopes α) : Nat := s.cells.size

/-- Create a scope without names. -/
def push (s : Scopes α) (enclosing : Option Nat) : Scopes α :=
  ⟨s.cells.push ⟨[], enclosing⟩⟩

def enclosing? (s : Scopes α) (i : Nat) : Option Nat :=
  match s.cells[i]? with
  | some ⟨_, some p⟩ => if p < i then some p else none
  | _ => none

theorem enclosing?_lt {s : Scopes α} {i p : Nat} (h : s.enclosing? i = some p) : p < i := by
  unfold enclosing? at h
  split at h
  · split at h
    · simp_all
    · simp at h
  · simp at h

/-- The value a name has in scope `i` itself. -/
def own? (s : Scopes α) (i : Nat) (name : String) : Option α :=
  s.cells[i]?.bind (·.names.get? name)

/-- Bind a name in scope `i`, over any value it has there. -/
def define (s : Scopes α) (i : Nat) (name : String) (v : α) : Scopes α :=
  ⟨s.cells.modify i fun c => { c with names := c.names.put name v }⟩

@[simp] theorem next_push (s : Scopes α) (e : Option Nat) : (s.push e).next = s.next + 1 := by
  simp [push, next]

@[simp] theorem next_define (s : Scopes α) (i : Nat) (name : String) (v : α) :
    (s.define i name v).next = s.next := by
  simp [define, next]

theorem own?_define_self (s : Scopes α) {i : Nat} (name : String) (v : α) (h : i < s.next) :
    (s.define i name v).own? i name = some v := by
  have h' : i < s.cells.size := h
  unfold own? define
  rw [Array.getElem?_modify, if_pos rfl, Array.getElem?_eq_getElem h']
  exact Names.get?_put_self _ name v

theorem own?_define_of_ne (s : Scopes α) {i j : Nat} {name other : String} (v : α)
    (h : j ≠ i ∨ other ≠ name) : (s.define i name v).own? j other = s.own? j other := by
  unfold own? define
  rw [Array.getElem?_modify]
  split
  · rename_i hij
    subst hij
    have hn : other ≠ name := h.resolve_left fun hne => hne rfl
    cases s.cells[i]? with
    | none => rfl
    | some c => exact Names.get?_put_of_ne _ v hn
  · rfl

@[simp] theorem enclosing?_define (s : Scopes α) (i j : Nat) (name : String) (v : α) :
    (s.define i name v).enclosing? j = s.enclosing? j := by
  unfold enclosing? define
  rw [Array.getElem?_modify]
  by_cases hij : i = j
  · subst hij
    rw [if_pos rfl]
    rcases s.cells[i]? with _ | ⟨_, _ | _⟩ <;> rfl
  · rw [if_neg hij]

/-- The nearest scope from `i` outwards that holds the name. -/
def holder? (s : Scopes α) (name : String) (i : Nat) : Option Nat :=
  match s.own? i name with
  | some _ => some i
  | none =>
    match _h : s.enclosing? i with
    | some p => holder? s name p
    | none => none
termination_by i
decreasing_by exact enclosing?_lt _h

/-- The value a name has from scope `i` outwards. -/
def get? (s : Scopes α) (i : Nat) (name : String) : Option α :=
  (s.holder? name i).bind fun h => s.own? h name

/-- Change the value a name has from scope `i` outwards; nothing is added. -/
def assign? (s : Scopes α) (i : Nat) (name : String) (v : α) : Option (Scopes α) :=
  (s.holder? name i).map fun h => s.define h name v

/-- The scope a number of links up from scope `i`. -/
def ancestor? (s : Scopes α) : Nat → Nat → Option Nat
  | 0, i => some i
  | d + 1, i =>
    match s.enclosing? i with
    | some p => ancestor? s d p
    | none => none

@[simp] theorem ancestor?_define (s : Scopes α) (i : Nat) (name : String) (v : α) (d j : Nat) :
    (s.define i name v).ancestor? d j = s.ancestor? d j := by
  induction d generalizing j with
  | zero => rfl
  | succ d ih => simp [ancestor?, ih]

def getAt? (s : Scopes α) (i distance : Nat) (name : String) : Option α :=
  (s.ancestor? distance i).bind fun a => s.own? a name

/-- Bind a name in the scope a number of links up. -/
def assignAt? (s : Scopes α) (i distance : Nat) (name : String) (v : α) : Option (Scopes α) :=
  (s.ancestor? distance i).map fun a => s.define a name v

end Scopes

end Lox
