import Lox.Proofs.Placement.Effect

/-!
# Calls and class declarations on sane machines

A call runs the body of its closure in a new scope, and the body stands there. A class
declaration makes its methods in the scope that holds what its superclass clause came to.
-/

set_option autoImplicit false

namespace Lox

/-- Each method of a class is one of its declarations, under its own name. -/
theorem Evaluation.mem_methodTable {scope : Nat} {ms : List Function} {name : String} {f : Closure}
    (h : (methodTable scope ms).get? name = some f) :
    ∃ g ∈ ms, g.name.lexeme = name ∧ f = ⟨g, scope, g.isInitializer⟩ := by
  have hfold (ns : Names Closure) (hns : (ms.foldl
      (fun ns f => Names.put f.name.lexeme ⟨f, scope, f.isInitializer⟩ ns) ns).get? name = some f) :
      ns.get? name = some f ∨ ∃ g ∈ ms, g.name.lexeme = name ∧ f = ⟨g, scope, g.isInitializer⟩ := by
    clear h
    induction ms generalizing ns with
    | nil => exact .inl hns
    | cons g ms ih =>
      rcases ih _ hns with hns | ⟨g', hg', hrest⟩
      · by_cases he : g.name.lexeme = name
        · rw [← he, Names.get?_put_self] at hns
          exact .inr ⟨g, List.mem_cons_self, he, (Option.some.inj hns).symm⟩
        · rw [Names.get?_put_of_ne _ _ (Ne.symm he)] at hns
          exact .inl hns
      · exact .inr ⟨g', List.mem_cons_of_mem _ hg', hrest⟩
  exact (hfold [] h).resolve_left nofun

theorem Run.eq_of_getAt {i d : Nat} {name : Token} {v : Value} {m m' : Machine}
    (h : getAt i d name m = .ok v m') : m' = m := by
  unfold getAt at h
  split at h
  · cases h
    rfl
  · cases h

theorem Run.eq_of_read {i : Nat} {r : Reference} {v : Value} {m m' : Machine}
    (h : read i r m = .ok v m') : m' = m := by
  unfold read at h
  split at h
  · exact eq_of_getAt h
  · cases ho : m.scopes.get? Machine.global r.name.lexeme with
    | none =>
      rw [ho] at h
      cases h
    | some w =>
      rw [ho] at h
      cases h
      rfl

namespace Placement

open Scoping Evaluation

variable {S : Setting} {m m' : Machine}

def ValidFlow (S : Setting) (m : Machine) : Flow → Prop
  | .normal => True
  | .returned v => Valid S m v

theorem free_notMem {name : String} (h : Free name) : name ∉ reservedNames := by
  simp only [reservedNames, List.mem_cons, List.not_mem_nil, or_false, not_or]
  exact ⟨h.ne .this, h.ne .super⟩

namespace Ends

theorem defineAll {i : Nat} {ps : List Token} {vs : List Value} (hs : Sane S m)
    (hps : ∀ p ∈ ps, Free p.lexeme) (hvs : ∀ v ∈ vs, Valid S m v) :
    Ends S m (fun _ _ => True) (Evaluation.defineAll i ps vs m) := by
  induction ps generalizing m vs with
  | nil => exact .pure hs trivial
  | cons p ps ih =>
    cases vs with
    | nil => exact .pure hs trivial
    | cons v vs =>
      rw [List.forall_mem_cons] at hps hvs
      apply Ends.bind (.define hs (.inl (free_notMem hps.1)) hvs.1)
      intro _ m₁ _ hg₁ hs₁ _
      exact ih hs₁ hps.2 fun w hw => (hvs.2 w hw).later hg₁

variable {f : Closure} {vs : List Value} (hs : Sane S m) (hvs : ∀ v ∈ vs, Valid S m v)

include hs hvs

theorem opened (hf : Callable S m f) :
    Ends S m (fun m' i => Ordinary m' i f.scope ∧
        ∀ s ∈ f.declaration.body, Stands S m' i (.stmt s)) (Evaluation.opened f vs m) := by
  obtain ⟨hps, hbody⟩ := hf.inside
  apply Ends.bind (.newScope hs (hf.lt_next hs.global))
  intro i m₁ _ hg₁ hs₁ hi
  apply Ends.bind (.defineAll hs₁ hps fun v hv => (hvs v hv).later hg₁)
  intro _ m₂ _ hg₂ hs₂ _
  exact .pure hs₂ ⟨hi.grow hg₂, hbody m₂ i (hg₁.trans hg₂) (hi.grow hg₂)⟩

theorem openedInitializer {c : Class} {init : Closure} (hc : ValidClass S m c)
    (hi : c.initializer? = some init) :
    Ends S m (fun m' i => ∀ s ∈ init.declaration.body, Stands S m' i (.stmt s))
      (Evaluation.openedInitializer c init vs m) := by
  apply Ends.bind (.newInstance hs hc)
  rintro _ m₁ _ hg₁ hs₁ ⟨rfl, hself⟩
  apply Ends.bind (.bindMethod hs₁ ((hc.grow (.refl S) hg₁).initializer? hi) hself)
  rintro g m₂ _ hg₂ hs₂ ⟨hg, hd⟩
  rw [← hd]
  exact (Ends.opened hs₂ (fun v hv => (hvs v hv).later (hg₁.trans hg₂)) hg).imp fun _ _ _ h => h.2

end Ends

/-- What a call opens. -/
theorem stands_of_opens {v : Value} {vs : List Value} {i : Nat} {body : List Stmt}
    (ho : Opens v vs m i body m') (hs : Sane S m) (hv : Valid S m v)
    (hvs : ∀ v ∈ vs, Valid S m v) :
    m.Grows m' ∧ Sane S m' ∧ ∀ s ∈ body, Stands S m' i (.stmt s) := by
  cases ho with
  | function h =>
    cases hv with
    | plain hv => cases hv
    | function hf =>
      obtain ⟨hg, hs', -, hbody⟩ := (Ends.opened hs hvs hf).of_ok h
      exact ⟨hg, hs', hbody⟩
  | «class» hi h =>
    cases hv with
    | plain hv => cases hv
    | «class» hc => exact (Ends.openedInitializer hs hvs hc hi).of_ok h

section Classes

variable (hs : Sane S m)

include hs

theorem Ends.superMethod (i : Nat) (r : Reference) (method : Token) :
    Ends S m (Valid S) (Evaluation.superMethod i r method m) := by
  apply Ends.get_bind
  cases m.depths.get? r.id with
  | none => exact .fail hs _ _
  | some depth =>
    apply Ends.bind (.getAt hs i depth r.name)
    intro v m₁ _ _ hs₁ hv
    cases v with
    | «class» c =>
      apply Ends.bind (.getAt hs₁ i (depth - 1) _)
      intro self m₂ _ hg₂ hs₂ hself
      cases self with
      | «instance» id own =>
        simp only
        cases hf : c.findMethod? method.lexeme with
        | none => exact .fail hs₂ _ _
        | some f =>
          have hc : ValidClass S m₂ c := by
            cases hv.later hg₂ with
            | plain hv => cases hv
            | «class» hc => exact hc
          apply Ends.bind (.bindMethod hs₂ (hc.findMethod? hf) hself)
          intro g m₃ _ _ hs₃ hg
          exact .newFunction hs₃ hg.1
      | _ => exact .fail hs₂ _ _
    | _ => exact .fail hs₁ _ _

/-- What a superclass clause comes to is found without changing anything. -/
theorem Ends.superclass (i : Nat) (r : Reference) :
    Ends S m (fun m' o => m' = m ∧ ∃ c, o = some c ∧ ValidClass S m' c)
      (superclassOf i (some r) m) := by
  apply Ends.bind (.read hs i r)
  intro v m₁ hv _ hs₁ hvalid
  cases hvalid with
  | plain hv =>
    cases v with
    | «class» => cases hv
    | _ => exact .fail hs₁ _ _
  | «class» hc => exact .pure hs₁ ⟨Run.eq_of_read hv, _, rfl, hc⟩
  | _ => exact .fail hs₁ _ _

/-- The class of a declaration is made in the scope of its methods. -/
theorem Ends.derive {x : Token} (hx : Free x.lexeme) {r : Option Reference} {ms : List Function}
    {program : List Stmt} {p : Path} {i inner : Nat} {parent : Option Class}
    (hp : program ∈ S.programs) (ho : Occurs program p (.stmt (.class x r ms)))
    (hc : Chain S m p i) (hh : Home S m x ms i r inner) (hparent : ∀ c ∈ parent, ValidClass S m c) :
    Ends S m (fun _ _ => True) ((do
      let id ← Run.newId
      Run.define i x.lexeme
        (.class (.derive ⟨id, x.lexeme, methodTable inner ms⟩ parent)) : Run Unit) m) := by
  apply Ends.bind (.newId hs)
  intro id m₁ _ hg₁ hs₁ _
  refine (Ends.define hs₁ (.inl (free_notMem hx)) ?_).imp fun _ _ _ _ => trivial
  refine .class (.derive (fun name f hf => ?_) fun c hc => (hparent c hc).grow (.refl S) hg₁)
  obtain ⟨g, hgm, hname, rfl⟩ := mem_methodTable hf
  exact ⟨hname, rfl, program, hp, p, x, r, ms, i, ho, hgm, hh.grow (.refl S) hg₁,
    hc.grow (.refl S) hg₁⟩

theorem Ends.methodScope {c : Class} (hc : ValidClass S m c) {i : Nat} (hi : i < m.scopes.next) :
    Ends S m (fun m' inner => inner = m.scopes.next ∧
        m'.scopes.own? inner "super" = some (.class c) ∧ m'.scopes.enclosing? inner = some i)
      (Evaluation.methodScope i (some c) m) :=
  .ok (.enclose m i "super" (.class c)) (hs.enclose i "super" (.class hc))
    ⟨rfl, m.own?_enclose i "super" _, m.enclosing?_enclose "super" _ hi⟩

theorem Ends.declareClass {x : Token} {r : Option Reference} {ms : List Function} {n i : Nat}
    (hr : S.reached (.execute (n + 1) i (.class x r ms)) m)
    (hst : Stands S m i (.stmt (.class x r ms))) :
    Ends S m (fun _ _ => True) (Evaluation.declareClass i x r ms m) := by
  obtain ⟨program, hp, p, ho, hc⟩ := hst
  have hx : Free x.lexeme := (S.formed_of_occurs hp ho).1
  have hname : x.lexeme ∉ reservedNames := free_notMem hx
  cases r with
  | none =>
    apply Ends.bind (Ends.pure hs (Q := fun m' o => m' = m ∧ o = none) ⟨rfl, rfl⟩)
    rintro _ m₁ - - - ⟨rfl, rfl⟩
    apply Ends.bind (.define hs (.inl hname) (.plain (v := .nil) rfl))
    intro _ m₂ _ hg₂ hs₂ _
    exact .derive hs₂ hx hp ho (hc.grow (.refl S) hg₂) .plain nofun
  | some r =>
    apply Ends.bind (.superclass hs i r)
    rintro _ m₁ hsup - - ⟨rfl, c, rfl, hvalid⟩
    have hd : S.Derives x r ms i c m₁.scopes.next n m₁ := ⟨hr, hsup, hc.lt_next hs.global, rfl⟩
    apply Ends.bind (.define hs (.inl hname) (.plain (v := .nil) rfl))
    intro _ m₂ _ hg₂ hs₂ hnext
    rw [← hnext] at hd
    have hclass : ValidClass S m₂ c := hvalid.grow (.refl S) hg₂
    have hchain : Chain S m₂ p i := hc.grow (.refl S) hg₂
    apply Ends.bind (.methodScope hs₂ hclass (hchain.lt_next hs₂.global))
    rintro inner m₃ - hg₃ hs₃ ⟨rfl, hsuper, hi⟩
    apply Ends.derive hs₃ hx hp ho (hchain.grow (.refl S) hg₃) (.derived hd hsuper hi)
    exact fun c' hc' => Option.some.inj hc' ▸ hclass.grow (.refl S) hg₃

end Classes

end Placement

end Lox
