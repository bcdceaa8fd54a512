import Lox.Proofs.Scoping.Receiver
import Lox.Proofs.Simulation.Value
import Lox.Proofs.Simulation.Visit

/-!
# Scopes as the program nests

The scope at hand is the innermost of scopes that follow what encloses the code: one for
each block, function and method, one for the receiver of the method, and one for the
superclass of its class, if it has one. Links and what is bound to `this` and `super` never
change again, so that a chain of scopes is one for good, and with it what values tell of the
scopes of their code.
-/

set_option autoImplicit false

namespace Lox

/-- The names that no declaration and no assignment binds. -/
def reservedNames : List String := ["this", "super"]

/-- On the later machine all scopes and instances are still there, with the same links, and
`this` and `super` are what they were. -/
structure Machine.Grows (m m' : Machine) : Prop where
  next : m.scopes.next ≤ m'.scopes.next
  instances : m.instances.size ≤ m'.instances.size
  enclosing (i : Nat) : i < m.scopes.next → m'.scopes.enclosing? i = m.scopes.enclosing? i
  reserved (i : Nat) (name : String) : name ∈ reservedNames → i ≠ Machine.global →
    i < m.scopes.next → m'.scopes.own? i name = m.scopes.own? i name

theorem Machine.Grows.refl (m : Machine) : m.Grows m :=
  ⟨Nat.le_refl _, Nat.le_refl _, fun _ _ => rfl, fun _ _ _ _ _ => rfl⟩

theorem Machine.Grows.trans {m m' m'' : Machine} (h : m.Grows m') (h' : m'.Grows m'') :
    m.Grows m'' where
  next := Nat.le_trans h.next h'.next
  instances := Nat.le_trans h.instances h'.instances
  enclosing i hi := (h'.enclosing i (Nat.lt_of_lt_of_le hi h.next)).trans (h.enclosing i hi)
  reserved i name hn hi hlt :=
    (h'.reserved i name hn hi (Nat.lt_of_lt_of_le hlt h.next)).trans (h.reserved i name hn hi hlt)

theorem Scopes.ne_global_of_enclosing {α : Type} {s : Scopes α} {i p : Nat}
    (h : s.enclosing? i = some p) : i ≠ Machine.global := by
  have hlt := Scopes.enclosing?_lt h
  exact Nat.ne_of_gt (Nat.lt_of_le_of_lt (Nat.zero_le p) hlt)

/-- A name that a scope does not hold is looked up further outwards. -/
theorem Scopes.get?_enclosing {α : Type} {s : Scopes α} {i p : Nat} {name : String}
    (hi : s.own? i name = none) (hp : s.enclosing? i = some p) : s.get? i name = s.get? p name := by
  have hholder : s.holder? name i = s.holder? name p := by
    rw [Scopes.holder?]
    split
    · rename_i ho
      rw [hi] at ho
      cases ho
    · split
      · rename_i q hq
        rw [hp] at hq
        cases hq
        rfl
      · rename_i hq
        rw [hp] at hq
        cases hq
  unfold Scopes.get?
  rw [hholder]

theorem Scopes.get?_own {α : Type} {s : Scopes α} {i : Nat} {name : String} {v : α}
    (hi : s.own? i name = some v) : s.get? i name = some v := by
  have hholder : s.holder? name i = some i := by
    rw [Scopes.holder?]
    split
    · rfl
    · rename_i ho
      rw [hi] at ho
      cases ho
  unfold Scopes.get?
  rw [hholder]
  exact hi

theorem Scopes.ancestor?_succ {α : Type} {s : Scopes α} {d i a b : Nat}
    (ha : s.ancestor? d i = some a) (hb : s.enclosing? a = some b) :
    s.ancestor? (d + 1) i = some b := by
  induction d generalizing i with
  | zero =>
    cases ha
    simp only [ancestor?, hb]
  | succ d ih =>
    rw [ancestor?] at ha ⊢
    split at ha
    · exact ih ha
    · cases ha

theorem Run.getAt_eq {i d a : Nat} {name : Token} {v : Value} {m : Machine}
    (ha : m.scopes.ancestor? d i = some a) (hv : m.scopes.own? a name.lexeme = some v) :
    getAt i d name m = .ok v m := by
  unfold getAt Scopes.getAt?
  simp only [ha, Option.bind_some, hv]

namespace Scoping

theorem Inside.trans {n m k : Node} {p q : Path} (h : Inside n p m) (hk : Inside m q k) :
    Inside n (q ++ p) k := by
  induction h with
  | here => rwa [List.append_nil]
  | child hm _ ih =>
    rw [← List.append_assoc]
    exact .child hm (ih hk)

theorem Inside.child_of {n m k : Node} {p q : Path} (h : Inside n p m) (hk : (q, k) ∈ m.children) :
    Inside n (q ++ p) k := h.trans (.child hk .here)

/-- What stands in a part of a program stands in the program. -/
theorem Occurs.child {program : List Stmt} {p q : Path} {n k : Node} (h : Occurs program p n)
    (hk : (q, k) ∈ n.children) : Occurs program (q ++ p) k := by
  obtain ⟨s, hs, hn⟩ := h
  exact ⟨s, hs, hn.child_of hk⟩

end Scoping

namespace Placement

open Scoping Evaluation

/-- The programs whose code may run, all of them accepted, and what is reached in the runs. -/
structure Setting where
  programs : List (List Stmt)
  formed : ∀ program ∈ programs, Stmt.AllFormed Free program
  faultless : ∀ program ∈ programs, faults (Scoping.program program) = []
  reached : Task → Machine → Prop
  spawned {t t' : Task} {m m' : Machine} : reached t m → Spawns t m t' m' → reached t' m'

/-- The execution of a class declaration in scope `outer` whose superclass clause came to `c`,
and which then made scope `i` for `super`. -/
structure Setting.Derives (S : Setting) (x : Token) (r : Reference) (ms : List Function)
    (outer : Nat) (c : Class) (i : Nat) (n : Nat) (m : Machine) : Prop where
  reached : S.reached (.execute (n + 1) outer (.class x (some r) ms)) m
  superclass : superclassOf outer (some r) m = .ok (some c) m
  outer : outer < m.scopes.next
  next : m.scopes.next = i

/-- A setting in which more programs run and more is reached. -/
structure Setting.Within (S S' : Setting) : Prop where
  programs : S.programs ⊆ S'.programs
  reached (t : Task) (m : Machine) : S.reached t m → S'.reached t m

theorem Setting.Within.refl (S : Setting) : S.Within S := ⟨List.Subset.refl _, fun _ _ h => h⟩

theorem Setting.Within.derives {S S' : Setting} (h : S.Within S') {x : Token} {r : Reference}
    {ms : List Function} {outer : Nat} {c : Class} {i n : Nat} {m : Machine}
    (hd : S.Derives x r ms outer c i n m) : S'.Derives x r ms outer c i n m :=
  { hd with reached := h.reached _ _ hd.reached }

/-- A scope inside scope `p` for names that are declared. -/
structure Ordinary (m : Machine) (i p : Nat) : Prop where
  enclosing : m.scopes.enclosing? i = some p
  reserved : ∀ name ∈ reservedNames, m.scopes.own? i name = none

/-- A scope inside scope `p` that holds the receiver of a method. -/
structure Receiver (m : Machine) (i id : Nat) (c : Class) (p : Nat) : Prop where
  enclosing : m.scopes.enclosing? i = some p
  this : m.scopes.own? i "this" = some (.instance id c)

/-- The scope of the methods of a class that was declared in scope `outer`: that scope itself,
or one inside it that holds what the superclass clause came to. -/
inductive Home (S : Setting) (m : Machine) (x : Token) (ms : List Function) (outer : Nat) :
    Option Reference → Nat → Prop
  | plain : Home S m x ms outer none outer
  | derived {r : Reference} {c : Class} {i n : Nat} {m₀ : Machine}
      (hd : S.Derives x r ms outer c i n m₀)
      (hs : m.scopes.own? i "super" = some (.class c)) (he : m.scopes.enclosing? i = some outer) :
      Home S m x ms outer (some r) i

/-- The scopes from `i` outwards follow what encloses the code. -/
inductive Chain (S : Setting) (m : Machine) : Path → Nat → Prop
  | global : Chain S m [] Machine.global
  | inner {l : Enclosure} {p : Path} {i j : Nat} (hl : l.isInner = true) (hi : Ordinary m i j)
      (hj : Chain S m p j) : Chain S m (l :: p) i
  | method {f : Function} {x : Token} {r : Option Reference} {ms : List Function} {p : Path}
      {i b j k id : Nat} {c : Class} (hi : Ordinary m i b) (hb : Receiver m b id c j)
      (hf : f ∈ ms) (hj : Home S m x ms k r j) (hk : Chain S m p k) :
      Chain S m (.method f :: .class x r :: p) i

/-- The place stands in a program, and scope `i` is the one at hand there. -/
def Stands (S : Setting) (m : Machine) (i : Nat) (n : Node) : Prop :=
  ∃ program ∈ S.programs, ∃ p, Occurs program p n ∧ Chain S m p i

section Growing

variable {S S' : Setting} {m m' : Machine} {i p : Nat}

theorem Ordinary.grow (hg : m.Grows m') (h : Ordinary m i p) : Ordinary m' i p where
  enclosing := (hg.enclosing i (Scopes.lt_next_of_enclosing h.enclosing)).trans h.enclosing
  reserved name hn :=
    (hg.reserved i name hn (Scopes.ne_global_of_enclosing h.enclosing)
      (Scopes.lt_next_of_enclosing h.enclosing)).trans (h.reserved name hn)

theorem Receiver.grow (hg : m.Grows m') {id : Nat} {c : Class} (h : Receiver m i id c p) :
    Receiver m' i id c p where
  enclosing := (hg.enclosing i (Scopes.lt_next_of_enclosing h.enclosing)).trans h.enclosing
  this := (hg.reserved i "this" (by simp [reservedNames])
    (Scopes.ne_global_of_enclosing h.enclosing)
    (Scopes.lt_next_of_enclosing h.enclosing)).trans h.this

variable (hS : S.Within S') (hg : m.Grows m')

include hS hg

theorem Home.grow {x : Token} {ms : List Function} {outer : Nat} {r : Option Reference}
    (h : Home S m x ms outer r i) : Home S' m' x ms outer r i := by
  cases h with
  | plain => exact .plain
  | derived hd hs he =>
    have hlt := Scopes.lt_next_of_enclosing he
    refine .derived (hS.derives hd) ?_ ((hg.enclosing i hlt).trans he)
    have hkept := hg.reserved i "super" (by simp [reservedNames])
      (Scopes.ne_global_of_enclosing he) hlt
    exact hkept.trans hs

theorem Chain.grow {p : Path} {i : Nat} (h : Chain S m p i) : Chain S' m' p i := by
  induction h with
  | global => exact .global
  | inner hl hi _ ih => exact .inner hl (hi.grow hg) ih
  | method hi hb hf hj _ ih => exact .method (hi.grow hg) (hb.grow hg) hf (hj.grow hS hg) ih

end Growing

theorem Stands.later {S : Setting} {m m' : Machine} {i : Nat} {n : Node} (h : Stands S m i n)
    (hg : m.Grows m') : Stands S m' i n := by
  obtain ⟨program, hp, p, ho, hc⟩ := h
  exact ⟨program, hp, p, ho, hc.grow (.refl S) hg⟩

/-- What stands in the same scope. -/
theorem Stands.part {S : Setting} {m m' : Machine} {i : Nat} {n k : Node} (h : Stands S m i n)
    (hk : ([], k) ∈ n.children) (hg : m.Grows m') : Stands S m' i k := by
  obtain ⟨program, hp, p, ho, hc⟩ := h
  exact ⟨program, hp, p, ho.child hk, hc.grow (.refl S) hg⟩

/-- The scope at hand is there. -/
theorem Chain.lt_next {S : Setting} {m : Machine} {p : Path} {i : Nat} (h : Chain S m p i)
    (hm : Machine.global < m.scopes.next) : i < m.scopes.next := by
  cases h with
  | global => exact hm
  | inner _ hi _ => exact Scopes.lt_next_of_enclosing hi.enclosing
  | method hi _ _ _ _ => exact Scopes.lt_next_of_enclosing hi.enclosing

theorem Stands.lt_next {S : Setting} {m : Machine} {i : Nat} {n : Node} (h : Stands S m i n)
    (hm : Machine.global < m.scopes.next) : i < m.scopes.next := by
  obtain ⟨_, _, _, _, hc⟩ := h
  exact hc.lt_next hm

theorem Home.lt_next {S : Setting} {m : Machine} {x : Token} {ms : List Function} {outer i : Nat}
    {r : Option Reference} (h : Home S m x ms outer r i) (ho : outer < m.scopes.next) :
    i < m.scopes.next := by
  cases h with
  | plain => exact ho
  | derived _ _ he => exact Scopes.lt_next_of_enclosing he

/-- The receiver of the innermost method, and the scope of the methods of its class. -/
theorem Chain.receiver {S : Setting} {m : Machine} {p q : Path} {i : Nat} {f : Function} {x : Token}
    {r : Option Reference} (h : Chain S m p i) (hp : p.home = .method f :: .class x r :: q) :
    ∃ b id c j k ms, m.scopes.ancestor? (p.level + 1) i = some b ∧ Receiver m b id c j ∧
      m.scopes.get? i "this" = some (.instance id c) ∧ f ∈ ms ∧ Home S m x ms k r j ∧
      Chain S m q k := by
  induction h with
  | global => cases hp
  | @inner l p i j hl hi hj ih =>
    have hhome : Path.home (l :: p) = p.home := List.dropWhile_cons_of_pos hl
    have hlevel : Path.level (l :: p) = p.level + 1 :=
      congrArg List.length (List.takeWhile_cons_of_pos hl)
    obtain ⟨b, id, c, j', k, ms, ha, hb, hget, hrest⟩ := ih (hhome.symm.trans hp)
    -- the scope holds no `this`, so both ways go on to the next one
    refine ⟨b, id, c, j', k, ms, ?_, hb, ?_, hrest⟩
    · rw [hlevel, Scopes.ancestor?, hi.enclosing]
      exact ha
    · rwa [Scopes.get?_enclosing (hi.reserved _ (by simp [reservedNames])) hi.enclosing]
  | @method g x' r' ms p i b j k id c hi hb hf hj hk =>
    cases hp
    refine ⟨b, id, c, j, k, ms, ?_, hb, ?_, hf, hj, hk⟩
    · have hlevel : Path.level (.method f :: .class x r :: q) = 0 := rfl
      rw [hlevel, Scopes.ancestor?, hi.enclosing]
      rfl
    · rw [Scopes.get?_enclosing (hi.reserved _ (by simp [reservedNames])) hi.enclosing]
      exact Scopes.get?_own hb.this

/-- In a class with a superclass there is also what the superclass clause came to. -/
theorem Chain.super {S : Setting} {m : Machine} {p q : Path} {i : Nat} {f : Function} {x : Token}
    {r : Reference} (h : Chain S m p i) (hp : p.home = .method f :: .class x (some r) :: q) :
    ∃ b id own j c k ms n m₀, m.scopes.ancestor? (p.level + 1) i = some b ∧
      Receiver m b id own j ∧ m.scopes.get? i "this" = some (.instance id own) ∧ f ∈ ms ∧
      S.Derives x r ms k c j n m₀ ∧ m.scopes.own? j "super" = some (.class c) := by
  obtain ⟨b, id, own, j, k, ms, hb, hr, hthis, hf, hh, -⟩ := h.receiver hp
  cases hh with
  | derived hd hs _ => exact ⟨b, id, own, j, _, k, ms, _, _, hb, hr, hthis, hf, hd, hs⟩

end Placement

end Lox
