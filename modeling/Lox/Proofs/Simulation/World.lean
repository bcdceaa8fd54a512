import Lox.Proofs.Scoping.Framed
import Lox.Proofs.Simulation.Related

/-!
# Twin values and machines

Two machines run twins side by side. A world says for each scope how its names are
renamed; the scopes around a place in the code model the scope at hand if they form the
same chain and all defined names are bound. Values are twins if they differ in the code of
closures only, and each closure is typed with the scopes its declaration was executed in.
Worlds only grow, and what holds in a world holds in all later ones.
-/

set_option autoImplicit false

namespace Lox.Scopes

variable {α : Type}

@[simp] theorem own?_push (s : Scopes α) (e : Option Nat) (i : Nat) (name : String) :
    (s.push e).own? i name = s.own? i name := by
  unfold own? push
  rw [Array.getElem?_push]
  split
  · rename_i h
    subst h
    simp [Names.get?]
  · rfl

theorem enclosing?_push_of_lt (s : Scopes α) (e : Option Nat) {i : Nat} (h : i < s.next) :
    (s.push e).enclosing? i = s.enclosing? i := by
  unfold enclosing? push
  rw [Array.getElem?_push_lt h, Array.getElem?_eq_getElem h]

theorem enclosing?_push_self (s : Scopes α) {p : Nat} (h : p < s.next) :
    (s.push (some p)).enclosing? s.next = some p := by
  unfold enclosing? push next
  rw [Array.getElem?_push_size]
  exact if_pos h

theorem lt_next_of_enclosing {s : Scopes α} {i p : Nat} (h : s.enclosing? i = some p) :
    i < s.next := by
  unfold enclosing? at h
  split at h
  · rename_i hc
    exact (Array.getElem?_eq_some_iff.1 hc).1
  · cases h

theorem lt_next_of_own {s : Scopes α} {i : Nat} {name : String} (h : (s.own? i name).isSome) :
    i < s.next := by
  unfold own? at h
  cases hc : s.cells[i]? with
  | none => simp [hc] at h
  | some c => exact (Array.getElem?_eq_some_iff.1 hc).1

theorem enclosing?_global (s : Scopes α) : s.enclosing? 0 = none := by
  cases h : s.enclosing? 0 with
  | none => rfl
  | some p => exact absurd (enclosing?_lt h) (Nat.not_lt_zero _)

/-- From the global scope on only that scope is looked at. -/
theorem holder?_global (s : Scopes α) (name : String) :
    s.holder? name 0 = (s.own? 0 name).map fun _ => 0 := by
  unfold holder?
  split
  · rename_i h
    rw [h]
    rfl
  · rename_i h
    rw [h]
    split
    · rename_i h'
      rw [enclosing?_global] at h'
      cases h'
    · rfl

theorem get?_global (s : Scopes α) (name : String) : s.get? 0 name = s.own? 0 name := by
  unfold get?
  rw [holder?_global]
  cases h : s.own? 0 name with
  | none => rfl
  | some v => exact h

end Lox.Scopes

namespace Lox

/-- A value of the language's own that holds no code. -/
def Value.plain : Value → Bool
  | .function .. | .class _ | .instance .. => false
  | _ => true

/-- The field of an instance. -/
def Machine.field? (m : Machine) (id : Nat) (name : String) : Option Value :=
  m.instances[id]?.bind (·.get? name)

end Lox

namespace Lox.Simulation

open Scoping

structure World where
  scopes : Scopes Value
  names : Nat → Renaming

namespace World

def define (w : World) (i : Nat) (name : String) (v : Value) : World :=
  { w with scopes := w.scopes.define i name v }

/-- A new scope inside scope `p`, in which names are renamed by `r`. -/
def push (w : World) (p : Nat) (r : Renaming) : World :=
  ⟨w.scopes.push (some p), fun i => if i = w.scopes.next then r else w.names i⟩

end World

structure World.Extends (w w' : World) : Prop where
  own (i : Nat) (name : String) : (w.scopes.own? i name).isSome → (w'.scopes.own? i name).isSome
  enclosing (i p : Nat) : w.scopes.enclosing? i = some p → w'.scopes.enclosing? i = some p
  next : w.scopes.next ≤ w'.scopes.next
  names (i : Nat) : i < w.scopes.next → w'.names i = w.names i

theorem World.Extends.refl (w : World) : w.Extends w :=
  ⟨fun _ _ h => h, fun _ _ h => h, Nat.le_refl _, fun _ _ => rfl⟩

theorem World.Extends.trans {w w' w'' : World} (h : w.Extends w') (h' : w'.Extends w'') :
    w.Extends w'' where
  own i name hi := h'.own i name (h.own i name hi)
  enclosing i p hi := h'.enclosing i p (h.enclosing i p hi)
  next := Nat.le_trans h.next h'.next
  names i hi := (h'.names i (Nat.lt_of_lt_of_le hi h.next)).trans (h.names i hi)

theorem World.Extends.own_none {w w' : World} (h : w.Extends w') {i : Nat} {name : String}
    (hn : w'.scopes.own? i name = none) : w.scopes.own? i name = none := by
  cases ho : w.scopes.own? i name with
  | none => rfl
  | some v =>
    have hs := h.own i name (by rw [ho]; rfl)
    rw [hn] at hs
    cases hs

theorem World.extends_define (w : World) {i : Nat} (name : String) (v : Value)
    (hi : i < w.scopes.next) : w.Extends (w.define i name v) where
  own j other hj := by
    by_cases h : j = i ∧ other = name
    · obtain ⟨rfl, rfl⟩ := h
      simp only [World.define, Scopes.own?_define_self _ _ _ hi, Option.isSome_some]
    · rw [World.define, Scopes.own?_define_of_ne _ _ (by tauto)]
      exact hj
  enclosing j p hj := by simpa only [World.define, Scopes.enclosing?_define] using hj
  next := by simp only [World.define, Scopes.next_define, Nat.le_refl]
  names _ _ := rfl

theorem World.extends_push (w : World) (p : Nat) (r : Renaming) : w.Extends (w.push p r) where
  own j other hj := by simpa only [World.push, Scopes.own?_push] using hj
  enclosing j q hj := by
    have hlt := Scopes.lt_next_of_enclosing hj
    simpa only [World.push, Scopes.enclosing?_push_of_lt _ _ hlt] using hj
  next := by simp only [World.push, Scopes.next_push, Nat.le_succ]
  names j hj := if_neg (Nat.ne_of_lt hj)

/-- The scopes around a place form the chain from scope `i` on to the global one. -/
def Models (w : World) : List Renaming → Frames → Nat → Prop
  | [], [], i => i = Machine.global
  | r :: rs, f :: fs, i =>
    w.names i = r ∧ (∀ name, f.lookup name = some true → (w.scopes.own? i name).isSome) ∧
      ∃ p, w.scopes.enclosing? i = some p ∧ Models w rs fs p
  | _, _, _ => False

theorem Models.mono {w w' : World} (hw : w.Extends w') {rs : List Renaming} {fs : Frames} {i : Nat}
    (h : Models w rs fs i) : Models w' rs fs i := by
  induction rs generalizing fs i with
  | nil =>
    cases fs with
    | nil => exact h
    | cons => exact h.elim
  | cons r rs ih =>
    cases fs with
    | nil => exact h.elim
    | cons f fs =>
      obtain ⟨hr, hf, p, hp, hm⟩ := h
      have hi := Scopes.lt_next_of_enclosing hp
      exact ⟨(hw.names i hi).trans hr, fun name hn => hw.own i name (hf name hn), p,
        hw.enclosing i p hp, ih hm⟩

theorem Models.push {w : World} {rs : List Renaming} {fs : Frames} {p : Nat}
    (h : Models w rs fs p) (hp : p < w.scopes.next) (r : Renaming) :
    Models (w.push p r) (r :: rs) ([] :: fs) w.scopes.next := by
  refine ⟨if_pos rfl, fun name hn => by simp at hn, p, ?_, h.mono (w.extends_push p r)⟩
  exact Scopes.enclosing?_push_self _ hp

theorem Models.declare {w : World} {rs : List Renaming} {fs : Frames} {i : Nat}
    (h : Models w rs fs i) (name : String) : Models w rs (declare fs name) i := by
  cases rs with
  | nil =>
    cases fs with
    | nil => exact h
    | cons => exact h.elim
  | cons r rs =>
    cases fs with
    | nil => exact h.elim
    | cons f fs =>
      obtain ⟨hr, hf, hp⟩ := h
      apply And.intro hr
      apply And.intro _ hp
      intro other ho
      by_cases hb : f.binds name = true
      · rw [if_pos hb] at ho
        exact hf other ho
      · rw [if_neg hb, List.lookup_cons] at ho
        split at ho
        · cases ho
        · exact hf other ho

theorem Models.define {w : World} {rs : List Renaming} {fs : Frames} {i : Nat}
    (h : Models w rs fs i) {name : String} (hn : (w.scopes.own? i name).isSome) :
    Models w rs (define fs name) i := by
  cases rs with
  | nil =>
    cases fs with
    | nil => exact h
    | cons => exact h.elim
  | cons r rs =>
    cases fs with
    | nil => exact h.elim
    | cons f fs =>
      obtain ⟨hr, hf, hp⟩ := h
      apply And.intro hr
      apply And.intro _ hp
      intro other ho
      by_cases he : other = name
      · rw [he]
        exact hn
      · rw [List.lookup_cons, beq_eq_false_iff_ne.2 he] at ho
        exact hf other ho

/-- A name found so many scopes up is renamed as in the scope so many links up, and bound
there if it is defined. -/
theorem Models.find {w : World} {rs : List Renaming} {fs : Frames} {i d : Nat}
    (h : Models w rs fs i) (hd : d < fs.length) :
    ∃ a f, w.scopes.ancestor? d i = some a ∧ rs[d]? = some (w.names a) ∧ fs[d]? = some f ∧
      a < w.scopes.next ∧
        ∀ name, f.lookup name = some true → (w.scopes.own? a name).isSome := by
  induction d generalizing rs fs i with
  | zero =>
    cases fs with
    | nil => simp at hd
    | cons f fs =>
      cases rs with
      | nil => exact h.elim
      | cons r rs =>
        obtain ⟨hr, hf, p, hp, -⟩ := h
        exact ⟨i, f, rfl, by simp [hr], rfl, Scopes.lt_next_of_enclosing hp, hf⟩
  | succ d ih =>
    cases fs with
    | nil => simp at hd
    | cons f fs =>
      cases rs with
      | nil => exact h.elim
      | cons r rs =>
        obtain ⟨-, -, p, hp, hm⟩ := h
        obtain ⟨a, g, ha, hr, hg, hn, hb⟩ := ih hm (by simpa using hd)
        exact ⟨a, g, by simp only [Scopes.ancestor?, hp, ha], by simpa using hr, by simpa using hg,
          hn, hb⟩

/-- Closures with the same declaration up to twins, which stands inside the scopes given
and those around. -/
structure ClosureTwin (link : Link) (w : World) (inside : Frames) (c c' : Closure) :
    Prop where
  scope : c'.scope = c.scope
  isInitializer : c'.isInitializer = c.isInitializer
  declared : ∃ rs fs, Settled fs ∧ Models w rs fs c.scope ∧
    Twin link (inside.map (fun _ => .keep) ++ rs) (inside ++ fs) (.function c.declaration)
      (.function c'.declaration)

/-- Around the declaration of a method there is a scope with `this` that is not made yet. -/
abbrev MethodTwin (link : Link) (w : World) : Closure → Closure → Prop :=
  ClosureTwin link w [[("this", true)]]

/-- Methods under the same names. -/
abbrev MethodsTwin (link : Link) (w : World) : Names Closure → Names Closure → Prop :=
  List.Forall₂ fun p p' => p'.1 = p.1 ∧ MethodTwin link w p.2 p'.2

structure ClassBodyTwin (link : Link) (w : World) (b b' : ClassBody) : Prop where
  id : b'.id = b.id
  name : b'.name = b.name
  methods : MethodsTwin link w b.methods b'.methods

structure ClassTwin (link : Link) (w : World) (c c' : Class) : Prop where
  body : ClassBodyTwin link w c.body c'.body
  ancestors : List.Forall₂ (ClassBodyTwin link w) c.ancestors c'.ancestors

/-- Closures that can be called: an initializer has its instance at hand. -/
structure CallableTwin (link : Link) (w : World) (c c' : Closure) : Prop
    extends ClosureTwin link w [] c c' where
  this : c.isInitializer = true → (w.scopes.own? c.scope "this").isSome

inductive ValueTwin (link : Link) (w : World) : Value → Value → Prop
  | plain {v : Value} (hv : v.plain = true) : ValueTwin link w v v
  | function {id : Nat} {c c' : Closure} (hc : CallableTwin link w c c') :
      ValueTwin link w (.function id c) (.function id c')
  | class {c c' : Class} (hc : ClassTwin link w c c') : ValueTwin link w (.class c) (.class c')
  | instance {id : Nat} {c c' : Class} (hc : ClassTwin link w c c') :
      ValueTwin link w (.instance id c) (.instance id c')

section Growing

variable {link link' : Link} {w w' : World} (hk : link.Within link') (hw : w.Extends w')

include hk hw

theorem ClosureTwin.grow {inside : Frames} {c c' : Closure} (h : ClosureTwin link w inside c c') :
    ClosureTwin link' w' inside c c' := by
  obtain ⟨rs, fs, hs, hm, ht⟩ := h.declared
  exact ⟨h.scope, h.isInitializer, rs, fs, hs, hm.mono hw, ht.mono hk⟩

theorem ClassBodyTwin.grow {b b' : ClassBody} (h : ClassBodyTwin link w b b') :
    ClassBodyTwin link' w' b b' where
  id := h.id
  name := h.name
  methods := h.methods.imp fun _ _ hm => ⟨hm.1, hm.2.grow hk hw⟩

theorem ClassTwin.grow {c c' : Class} (h : ClassTwin link w c c') : ClassTwin link' w' c c' where
  body := h.body.grow hk hw
  ancestors := h.ancestors.imp fun _ _ hb => hb.grow hk hw

theorem CallableTwin.grow {c c' : Closure} (h : CallableTwin link w c c') :
    CallableTwin link' w' c c' where
  toClosureTwin := h.toClosureTwin.grow hk hw
  this hi := hw.own _ _ (h.this hi)

theorem ValueTwin.grow {v v' : Value} (h : ValueTwin link w v v') : ValueTwin link' w' v v' := by
  cases h with
  | plain hv => exact .plain hv
  | function hc => exact .function (hc.grow hk hw)
  | «class» hc => exact .class (hc.grow hk hw)
  | «instance» hc => exact .instance (hc.grow hk hw)

end Growing

section Growing

variable {link : Link} {w w' : World} (hw : w.Extends w')

include hw

theorem ClosureTwin.mono {inside : Frames} {c c' : Closure} (h : ClosureTwin link w inside c c') :
    ClosureTwin link w' inside c c' := h.grow (.refl link) hw

theorem ClassTwin.mono {c c' : Class} (h : ClassTwin link w c c') : ClassTwin link w' c c' :=
  h.grow (.refl link) hw

theorem CallableTwin.mono {c c' : Closure} (h : CallableTwin link w c c') :
    CallableTwin link w' c c' := h.grow (.refl link) hw

theorem ValueTwin.mono {v v' : Value} (h : ValueTwin link w v v') : ValueTwin link w' v v' :=
  h.grow (.refl link) hw

end Growing

end Lox.Simulation
