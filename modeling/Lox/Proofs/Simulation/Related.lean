import Mathlib.Data.List.Forall2
import Lox.Evaluation

/-!
# Classes with methods that correspond

Let closures correspond in some way. Two classes are related if they have the same names and
identities and their methods correspond. Then a method is found in both of them or in neither,
and classes that are declared alike are related.
-/

set_option autoImplicit false

namespace Option.Rel

theorem imp {α β : Type} {R S : α → β → Prop} (h : ∀ a b, R a b → S a b) {o : Option α}
    {o' : Option β} (ho : Option.Rel R o o') : Option.Rel S o o' := by
  cases ho with
  | none => exact .none
  | some hr => exact .some (h _ _ hr)

end Option.Rel

namespace Lox

variable {R S : Closure → Closure → Prop}

/-- The same names, and closures that correspond under them. -/
abbrev Names.Related (R : Closure → Closure → Prop) : Names Closure → Names Closure → Prop :=
  List.Forall₂ fun p p' => p'.1 = p.1 ∧ R p.2 p'.2

namespace Names.Related

theorem imp (h : ∀ c c', R c c' → S c c') {ns ns' : Names Closure} (hn : Names.Related R ns ns') :
    Names.Related S ns ns' :=
  List.Forall₂.imp (fun _ _ hp => ⟨hp.1, h _ _ hp.2⟩) hn

theorem get? {ns ns' : Names Closure} (h : Names.Related R ns ns') (name : String) :
    Option.Rel R (ns.get? name) (ns'.get? name) := by
  induction h with
  | nil => exact .none
  | @cons p p' ns ns' hp _ ih =>
    obtain ⟨n, c⟩ := p
    obtain ⟨n', c'⟩ := p'
    obtain rfl : n' = n := hp.1
    simp only [Names.get?, List.lookup_cons]
    split
    · exact .some hp.2
    · exact ih

theorem put {ns ns' : Names Closure} (h : Names.Related R ns ns') (name : String) {c c' : Closure}
    (hc : R c c') : Names.Related R (Names.put name c ns) (Names.put name c' ns') := by
  induction h with
  | nil => exact .cons ⟨rfl, hc⟩ .nil
  | @cons p p' ns ns' hp hns ih =>
    obtain ⟨n, b⟩ := p
    obtain ⟨n', b'⟩ := p'
    obtain rfl : n' = n := hp.1
    simp only [Names.put]
    split
    · exact .cons ⟨rfl, hc⟩ hns
    · exact .cons hp ih

/-- The tables of methods that correspond one by one. -/
theorem methodTable {i i' : Nat} {ms ms' : List Function}
    (h : List.Forall₂ (fun f f' => f'.name.lexeme = f.name.lexeme ∧
      R ⟨f, i, f.isInitializer⟩ ⟨f', i', f'.isInitializer⟩) ms ms') :
    Names.Related R (Evaluation.methodTable i ms) (Evaluation.methodTable i' ms') := by
  have hfold (ns ns' : Names Closure) (hns : Names.Related R ns ns') : Names.Related R
      (ms.foldl (fun ns f => Names.put f.name.lexeme ⟨f, i, f.isInitializer⟩ ns) ns)
      (ms'.foldl (fun ns f => Names.put f.name.lexeme ⟨f, i', f.isInitializer⟩ ns) ns') := by
    induction h generalizing ns ns' with
    | nil => exact hns
    | cons hf _ ih =>
      simp only [List.foldl_cons]
      apply ih
      rw [hf.1]
      exact hns.put _ hf.2
  exact hfold [] [] .nil

end Names.Related

structure ClassBody.Related (R : Closure → Closure → Prop) (b b' : ClassBody) : Prop where
  id : b'.id = b.id
  name : b'.name = b.name
  methods : Names.Related R b.methods b'.methods

theorem ClassBody.Related.imp (h : ∀ c c', R c c' → S c c') {b b' : ClassBody}
    (hb : ClassBody.Related R b b') : ClassBody.Related S b b' :=
  ⟨hb.id, hb.name, hb.methods.imp h⟩

structure Class.Related (R : Closure → Closure → Prop) (c c' : Class) : Prop where
  body : ClassBody.Related R c.body c'.body
  ancestors : List.Forall₂ (ClassBody.Related R) c.ancestors c'.ancestors

namespace Class.Related

theorem imp (h : ∀ f f', R f f' → S f f') {c c' : Class} (hc : Class.Related R c c') :
    Class.Related S c c' :=
  ⟨hc.body.imp h, hc.ancestors.imp fun _ _ hb => hb.imp h⟩

variable {c c' : Class}

theorem name (h : Class.Related R c c') : c'.name = c.name := h.body.name

theorem findMethod? (h : Class.Related R c c') (name : String) :
    Option.Rel R (c.findMethod? name) (c'.findMethod? name) := by
  have hbs : List.Forall₂ (ClassBody.Related R) (c.body :: c.ancestors) (c'.body :: c'.ancestors) :=
    .cons h.body h.ancestors
  unfold Class.findMethod?
  generalize c.body :: c.ancestors = bs, c'.body :: c'.ancestors = bs' at hbs
  induction hbs with
  | nil => exact .none
  | @cons b b' bs bs' hb _ ih =>
    have hm := hb.methods.get? name
    simp only [List.findSome?_cons]
    generalize b.methods.get? name = o, b'.methods.get? name = o' at hm
    cases hm with
    | none => exact ih
    | some hm => exact .some hm

theorem arity (h : Class.Related R c c') (ha : ∀ f f', R f f' → f'.arity = f.arity) :
    c'.arity = c.arity := by
  have hm := h.findMethod? Function.initializerName
  unfold Class.arity Class.initializer?
  generalize c.findMethod? Function.initializerName = o,
    c'.findMethod? Function.initializerName = o' at hm
  cases hm with
  | none => rfl
  | some hm => exact ha _ _ hm

/-- A class derived from related ones, or from none. -/
theorem derive {b b' : ClassBody} (hb : ClassBody.Related R b b') {p p' : Option Class}
    (hp : Option.Rel (Class.Related R) p p') : Class.Related R (.derive b p) (.derive b' p') := by
  cases hp with
  | none => exact ⟨hb, .nil⟩
  | some hp => exact ⟨hb, .cons hp.body hp.ancestors⟩

end Class.Related

end Lox
