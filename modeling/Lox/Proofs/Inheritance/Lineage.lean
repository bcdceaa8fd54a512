import Mathlib.Data.List.Induction
import Mathlib.Logic.Relation
import Lox.Proofs.Placement.Initializer

/-!
# Lineage of classes

A class is born when its declaration is executed, of the superclass that the clause comes to at
that moment, and its identity is the next number then. So the superclass is always older, whatever
the names of classes mean before and after. Main statement: the look-up of a method finds the last
function of the name in the nearest declaration that has one.
-/

set_option autoImplicit false

namespace Lox

/-- The class that a value is or is an instance of. -/
def Value.classOf? : Value → Option Class
  | .class c | .instance _ c => some c
  | _ => none

theorem Value.classOf?_of_plain {v : Value} (hv : v.plain = true) : v.classOf? = none := by
  cases v with
  | «class» | «instance» => cases hv
  | _ => rfl

/-- Some name of a scope or field of an instance has the class or an instance of it. -/
inductive Machine.Holds (m : Machine) (c : Class) : Prop
  | name {i : Nat} {name : String} {v : Value} (hv : m.scopes.own? i name = some v)
      (hc : v.classOf? = some c)
  | field {id : Nat} {name : String} {v : Value} (hv : m.field? id name = some v)
      (hc : v.classOf? = some c)

def Class.Extends (c d : Class) : Prop := c.superclass? = some d

/-- Class `d` is further up on the chain of superclasses. -/
abbrev Class.Inherits : Class → Class → Prop := Relation.TransGen Class.Extends

theorem Class.superclass?_derive (b : ClassBody) (parent : Option Class) :
    (Class.derive b parent).superclass? = parent := by
  cases parent <;> rfl

theorem Class.body_derive (b : ClassBody) (parent : Option Class) :
    (Class.derive b parent).body = b := by
  cases parent <;> rfl

theorem Class.findMethod?_derive (b : ClassBody) (parent : Option Class) (name : String) :
    (Class.derive b parent).findMethod? name =
      (b.methods.get? name).or (parent.bind (·.findMethod? name)) := by
  cases parent <;> cases h : b.methods.get? name <;>
    simp [Class.derive, Class.findMethod?, List.findSome?_cons, h]

/-- Of the functions in the list `f` is the last one with the name. -/
def Function.LastNamed (f : Function) (name : String) (fs : List Function) : Prop :=
  ∃ before after, fs = before ++ f :: after ∧ f.name.lexeme = name ∧
    ∀ g ∈ after, g.name.lexeme ≠ name

namespace Evaluation

theorem methodTable_concat (i : Nat) (ms : List Function) (f : Function) :
    methodTable i (ms ++ [f]) =
      Names.put f.name.lexeme ⟨f, i, f.isInitializer⟩ (methodTable i ms) := by
  simp only [methodTable, List.foldl_append, List.foldl_cons, List.foldl_nil]

theorem get?_methodTable_of_last {i : Nat} {ms : List Function} {name : String} {f : Function}
    (h : f.LastNamed name ms) :
    (methodTable i ms).get? name = some ⟨f, i, f.isInitializer⟩ := by
  obtain ⟨before, after, rfl, rfl, hafter⟩ := h
  induction after using List.reverseRecOn with
  | nil => rw [methodTable_concat, Names.get?_put_self]
  | append_singleton after g ih =>
    have hg : f.name.lexeme ≠ g.name.lexeme := (hafter g (by simp)).symm
    rw [← List.cons_append, ← List.append_assoc, methodTable_concat, Names.get?_put_of_ne _ _ hg]
    exact ih fun g' hg' => hafter g' (List.mem_append_left _ hg')

theorem get?_methodTable_of_unnamed {i : Nat} {ms : List Function} {name : String}
    (h : ∀ f ∈ ms, f.name.lexeme ≠ name) : (methodTable i ms).get? name = none := by
  refine Option.eq_none_iff_forall_ne_some.2 fun f hf => ?_
  obtain ⟨g, hg, hname, -⟩ := mem_methodTable hf
  exact h g hg hname

theorem lastNamed_or_unnamed (name : String) (ms : List Function) :
    (∃ f : Function, f.LastNamed name ms) ∨ ∀ f ∈ ms, f.name.lexeme ≠ name := by
  induction ms using List.reverseRecOn with
  | nil => exact .inr nofun
  | append_singleton ms f ih =>
    by_cases hf : f.name.lexeme = name
    · exact .inl ⟨f, ms, [], rfl, hf, nofun⟩
    · rcases ih with ⟨g, before, after, rfl, hg, hafter⟩ | hms
      · refine .inl ⟨g, before, after ++ [f], by simp, hg, ?_⟩
        exact List.forall_mem_append.2 ⟨hafter, List.forall_mem_singleton.2 hf⟩
      · exact .inr (List.forall_mem_append.2 ⟨hms, List.forall_mem_singleton.2 hf⟩)

end Evaluation

namespace Inheritance

open Evaluation Placement

/-- Class `c` was made at the execution of a declaration that was reached, of the class that the
superclass clause came to then, with methods `ms` in scope `inner`. Its identity is the number
that the machine gave next, and the superclass has an earlier one. -/
inductive Declares (S : Setting) : Option Class → List Function → Nat → Class → Prop
  | intro {n outer : Nat} {x : Token} {r : Option Reference} {ms : List Function} {m : Machine}
      {parent : Option Class} (reached : S.reached (.execute (n + 1) outer (.class x r ms)) m)
      (superclass : superclassOf outer r m = .ok parent m)
      (older : ∀ p ∈ parent, p.body.id < m.serial) :
      Declares S parent ms (parent.elim outer fun _ => m.scopes.next)
        (.derive ⟨m.serial, x.lexeme,
          methodTable (parent.elim outer fun _ => m.scopes.next) ms⟩ parent)

/-- A class that was declared, and so were all classes it inherits from. -/
inductive Born (S : Setting) : Class → Prop
  | intro {parent : Option Class} {ms : List Function} {inner : Nat} {c : Class}
      (hd : Declares S parent ms inner c) (hp : ∀ p, parent = some p → Born S p) : Born S c

/-- Among the declarations of the class and of those it inherits from, the nearest one with a
function of the name has `f` for the last of them, in scope `i`. -/
inductive Provides (S : Setting) (name : String) : Class → Function → Nat → Prop
  | own {parent : Option Class} {ms : List Function} {inner : Nat} {c : Class} {f : Function}
      (hd : Declares S parent ms inner c) (hf : f.LastNamed name ms) : Provides S name c f inner
  | inherited {p c : Class} {ms : List Function} {inner i : Nat} {f : Function}
      (hd : Declares S (some p) ms inner c) (hn : ∀ g ∈ ms, g.name.lexeme ≠ name)
      (hp : Provides S name p f i) : Provides S name c f i

/-- No declaration of the class and of those it inherits from has a function of the name. -/
inductive Lacks (S : Setting) (name : String) : Class → Prop
  | root {ms : List Function} {inner : Nat} {c : Class} (hd : Declares S none ms inner c)
      (hn : ∀ g ∈ ms, g.name.lexeme ≠ name) : Lacks S name c
  | inherited {p c : Class} {ms : List Function} {inner : Nat}
      (hd : Declares S (some p) ms inner c) (hn : ∀ g ∈ ms, g.name.lexeme ≠ name)
      (hp : Lacks S name p) : Lacks S name c

/-- A class on machine `m`: its chain of superclasses comes to an end, and each was made before
those that inherit from it. -/
structure Lineage (S : Setting) (m : Machine) (c : Class) : Prop where
  born : Born S c
  made : c.body.id < m.serial
  older (d : Class) : c.Inherits d → d.body.id < c.body.id
  ends : ∃ d, Relation.ReflTransGen Class.Extends c d ∧ d.superclass? = none

section Declared

variable {S S' : Setting} {parent : Option Class} {ms : List Function} {inner : Nat} {c : Class}

theorem Declares.superclass? (h : Declares S parent ms inner c) : c.superclass? = parent := by
  cases h with
  | intro => exact Class.superclass?_derive _ _

theorem Declares.older (h : Declares S parent ms inner c) : ∀ p ∈ parent, p.body.id < c.body.id := by
  cases h with
  | intro _ _ older => rwa [Class.body_derive]

theorem Declares.findMethod? (h : Declares S parent ms inner c) (name : String) :
    c.findMethod? name =
      ((methodTable inner ms).get? name).or (parent.bind (·.findMethod? name)) := by
  cases h with
  | intro => exact Class.findMethod?_derive _ _ _

theorem Declares.within (hS : S.Within S') (h : Declares S parent ms inner c) :
    Declares S' parent ms inner c := by
  cases h with
  | intro reached superclass older => exact .intro (hS.reached _ _ reached) superclass older

theorem Born.within (hS : S.Within S') (h : Born S c) : Born S' c := by
  induction h with
  | intro hd _ ih => exact .intro (hd.within hS) ih

theorem Born.older (h : Born S c) {d : Class} (hd : c.Inherits d) : d.body.id < c.body.id := by
  induction hd using Relation.TransGen.head_induction_on with
  | single hs =>
    cases h with
    | intro hdecl _ => exact hdecl.older _ (hdecl.superclass?.symm.trans hs)
  | head hs _ ih =>
    cases h with
    | intro hdecl hp =>
      have hparent := hdecl.superclass?.symm.trans hs
      exact Nat.lt_trans (ih (hp _ hparent)) (hdecl.older _ hparent)

theorem Born.ends (h : Born S c) :
    ∃ d, Relation.ReflTransGen Class.Extends c d ∧ d.superclass? = none := by
  induction h with
  | @intro parent ms inner c hd _ ih =>
    cases parent with
    | none => exact ⟨c, .refl, hd.superclass?⟩
    | some p =>
      obtain ⟨d, hchain, hend⟩ := ih p rfl
      exact ⟨d, hchain.head hd.superclass?, hend⟩

variable {name : String} {f : Function} {i : Nat}

theorem Provides.findMethod? (h : Provides S name c f i) :
    c.findMethod? name = some ⟨f, i, f.isInitializer⟩ := by
  induction h with
  | own hd hf => rw [hd.findMethod?, get?_methodTable_of_last hf, Option.some_or]
  | inherited hd hn _ ih =>
    rw [hd.findMethod?, get?_methodTable_of_unnamed hn, Option.none_or, Option.bind_some, ih]

theorem Lacks.findMethod? (h : Lacks S name c) : c.findMethod? name = none := by
  induction h with
  | root hd hn => rw [hd.findMethod?, get?_methodTable_of_unnamed hn, Option.none_or, Option.bind_none]
  | inherited hd hn _ ih =>
    rw [hd.findMethod?, get?_methodTable_of_unnamed hn, Option.none_or, Option.bind_some, ih]

/-- There is a method of the name on the chain, or none. -/
theorem Born.provides_or_lacks (h : Born S c) (name : String) :
    (∃ f i, Provides S name c f i) ∨ Lacks S name c := by
  induction h with
  | @intro parent ms inner c hd _ ih =>
    rcases lastNamed_or_unnamed name ms with ⟨f, hf⟩ | hn
    · exact .inl ⟨f, inner, .own hd hf⟩
    · cases parent with
      | none => exact .inr (.root hd hn)
      | some p =>
        rcases ih p rfl with ⟨f, i, hp⟩ | hp
        · exact .inl ⟨f, i, .inherited hd hn hp⟩
        · exact .inr (.inherited hd hn hp)

end Declared

end Inheritance

end Lox
