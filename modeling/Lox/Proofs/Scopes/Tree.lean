import Lox.Machine
import Lox.Proofs.Scopes.Access

/-!
# Scopes as a tree

A forest in which all scopes but the global one have a link is a tree. Main statement: from each
scope the links lead along one path to the global scope, and no scope stands on it twice. What is
a number of links up is what stands there on the path, and the walk for a name comes to an end.
-/

set_option autoImplicit false

namespace Lox.Scopes

variable {α : Type}

/-- All scopes hang on the global one, by links to scopes that were there before. -/
structure Tree (s : Scopes α) : Prop where
  forest : s.Forest
  global : Machine.global < s.next
  root {i : Nat} (hi : i < s.next) : s.link? i = none ↔ i = Machine.global

/-- From scope `i` the links lead along the path, the scope itself first, to the global scope. -/
inductive Path (s : Scopes α) : Nat → List Nat → Prop
  | global (h : s.link? Machine.global = none) : Path s Machine.global [Machine.global]
  | out {i p : Nat} {path : List Nat} (hp : s.link? i = some p) (h : Path s p path) :
      Path s i (i :: path)

/-- The walk for a name from scope `i` along the links comes to an end: in the first scope that
binds the name, or, if there is none, in one without a link. -/
inductive Walk (s : Scopes α) (name : String) : Nat → Option Nat → Prop
  | found {i : Nat} (h : (s.own? i name).isSome = true) : Walk s name i (some i)
  | missing {i : Nat} (h : s.own? i name = none) (hi : s.link? i = none) : Walk s name i none
  | out {i p : Nat} {holder : Option Nat} (h : s.own? i name = none) (hp : s.link? i = some p)
      (hw : Walk s name p holder) : Walk s name i holder

/-- The links of the scope lead to the global one along the path, without a scope twice. On the
path stands what is some links up, and the walk for a name, which comes to an end, is all that
reading and assigning the name depend on. -/
structure Rooted (s : Scopes α) (i : Nat) (path : List Nat) : Prop where
  leads : s.Path i path
  nodup : path.Nodup
  up (d a : Nat) : s.Up i d a ↔ path[d]? = some a
  ancestor (d : Nat) : s.ancestor? d i = path[d]?
  walk (name : String) : ∃ holder, s.Walk name i holder ∧
    s.get? i name = holder.bind (s.own? · name) ∧
    ∀ v, s.assign? i name v = holder.map (s.define · name v)

section Tree

variable {s : Scopes α} {i p d a : Nat} {is : List Nat}

theorem tree_root : ((empty : Scopes α).push none).Tree where
  forest := .push .empty nofun
  global := Nat.zero_lt_one
  root {i} hi := by
    obtain rfl : i = Machine.global := Nat.lt_one_iff.1 hi
    exact iff_of_true rfl rfl

theorem Tree.push (h : s.Tree) (hp : p < s.next) : (s.push (some p)).Tree where
  forest := h.forest.push fun q hq => Option.some.inj hq ▸ hp
  global := by
    rw [next_push]
    exact Nat.lt_succ_of_lt h.global
  root {i} hi := by
    rw [next_push] at hi
    rw [link?_push]
    split
    · rename_i he
      exact iff_of_false nofun fun hg => Nat.ne_of_lt h.global (hg.symm.trans he)
    · rename_i hne
      exact h.root (Nat.lt_of_le_of_ne (Nat.le_of_lt_succ hi) hne)

theorem Tree.define (h : s.Tree) (i : Nat) (name : String) (v : α) : (s.define i name v).Tree where
  forest := h.forest.define i name v
  global := by simpa only [next_define] using h.global
  root hi := by
    rw [next_define] at hi
    rw [link?_define]
    exact h.root hi

theorem Tree.path (h : s.Tree) (hi : i < s.next) : ∃ path, s.Path i path := by
  induction i using Nat.strongRecOn with
  | _ i ih =>
    cases hp : s.link? i with
    | none =>
      obtain rfl := (h.root hi).1 hp
      exact ⟨_, .global hp⟩
    | some p =>
      have hlt := h.forest.link_lt hp
      obtain ⟨path, hpath⟩ := ih p hlt (Nat.lt_trans hlt hi)
      exact ⟨_, .out hp hpath⟩

/-- A path comes only to scopes that were there before. -/
theorem Path.le (h : s.Path i is) (hs : s.Forest) : ∀ a ∈ is, a ≤ i := by
  induction h with
  | global => exact fun a ha => Nat.le_of_eq (List.mem_singleton.1 ha)
  | out hp _ ih =>
    intro a ha
    rcases List.mem_cons.1 ha with rfl | ha
    · exact Nat.le_refl _
    · exact Nat.le_trans (ih a ha) (Nat.le_of_lt (hs.link_lt hp))

theorem Path.nodup (h : s.Path i is) (hs : s.Forest) : is.Nodup := by
  induction h with
  | global => simp
  | out hp hpath ih =>
    refine List.nodup_cons.2 ⟨fun hmem => ?_, ih⟩
    exact Nat.not_le_of_lt (hs.link_lt hp) (hpath.le hs _ hmem)

theorem up_succ_iff (hp : s.link? i = some p) : s.Up i (d + 1) a ↔ s.Up p d a := by
  constructor
  · intro h
    cases h with
    | out hp' h =>
      rw [hp] at hp'
      cases hp'
      exact h
  · exact .out hp

theorem up_zero_iff : s.Up i 0 a ↔ i = a := by
  constructor
  · intro h
    cases h
    rfl
  · rintro rfl
    exact .here

theorem Path.up_iff (h : s.Path i is) : s.Up i d a ↔ is[d]? = some a := by
  induction h generalizing d with
  | global hnone =>
    cases d with
    | zero => simpa using up_zero_iff
    | succ d =>
      refine iff_of_false (fun hup => ?_) (by simp)
      cases hup with
      | out hp _ => exact absurd (hnone.symm.trans hp) nofun
  | out hp _ ih =>
    cases d with
    | zero => simpa using up_zero_iff
    | succ d => simpa using (up_succ_iff hp).trans ih

theorem Path.walk (h : s.Path i is) (hs : s.Forest) (name : String) :
    s.Walk name i (s.holder? name i) := by
  have hfound {j : Nat} (hj : (s.own? j name).isSome = true) : s.Walk name j (s.holder? name j) := by
    rw [holder?_eq, if_pos hj]
    exact .found hj
  induction h with
  | global hnone =>
    by_cases hown : (s.own? Machine.global name).isSome = true
    · exact hfound hown
    · rw [holder?_eq, if_neg hown, hs.enclosing?_eq, hnone]
      exact .missing (by simpa using hown) hnone
  | @out i p path hp _ ih =>
    by_cases hown : (s.own? i name).isSome = true
    · exact hfound hown
    · rw [holder?_eq, if_neg hown, hs.enclosing?_eq, hp]
      exact .out (by simpa using hown) hp ih

/-- From each scope of a tree there is a way to the global one. -/
theorem Tree.rooted (h : s.Tree) (hi : i < s.next) : ∃ path, s.Rooted i path := by
  obtain ⟨path, hpath⟩ := h.path hi
  refine ⟨path, hpath, hpath.nodup h.forest, fun _ _ => hpath.up_iff, fun d => ?_,
    fun name => ⟨_, hpath.walk h.forest name, rfl, fun _ => rfl⟩⟩
  ext a
  rw [h.forest.ancestor?_eq_some_iff, hpath.up_iff]

end Tree

end Lox.Scopes
