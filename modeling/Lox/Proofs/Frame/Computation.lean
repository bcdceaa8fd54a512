import Lox.Proofs.Frame.Holding

/-!
# Computations and what they have at hand

The induction is on the bound: what one more level of depth has at hand comes from the scope that
it runs in, from the values below it, and from the scopes that are made for blocks and calls.
-/

set_option autoImplicit false

namespace Lox.Holding

open Evaluation

variable {I : Machine → Prop} {H : Machine → Thing → Prop} {L : Machine → Machine → Prop}
  {m m' : Machine} {n i : Nat}

/-- How the computations of a bound end. -/
structure Bounded (I : Machine → Prop) (H : Machine → Thing → Prop) (L : Machine → Machine → Prop)
    (n : Nat) : Prop where
  evaluate {m : Machine} {i : Nat} (hm : I m) (hi : H m (.scope i)) (e : Expr) :
    Ends I L m (Value.AtHand H) (Evaluation.evaluate n i e m)
  execute {m : Machine} {i : Nat} (hm : I m) (hi : H m (.scope i)) (s : Stmt) :
    Ends I L m (Flow.AtHand H) (Evaluation.execute n i s m)
  loop {m : Machine} {i : Nat} (hm : I m) (hi : H m (.scope i)) (e : Expr) (s : Stmt) :
    Ends I L m (Flow.AtHand H) (Evaluation.loop n i e s m)

variable (h : Holding I H L)

include h

theorem arguments (hn : Bounded I H L n) (hm : I m) (hi : H m (.scope i)) (es : List Expr) :
    Ends I L m (fun m' vs => ∀ v ∈ vs, v.AtHand H m')
      (Evaluation.arguments (Evaluation.evaluate n i) es m) := by
  induction es generalizing m with
  | nil => exact h.pure hm nofun
  | cons e es ih =>
    apply h.andThen (hn.evaluate hm hi e)
    intro v m₁ hl₁ hm₁ hv
    apply h.andThen (ih hm₁ (h.later hl₁ hi))
    intro vs m₂ hl₂ hm₂ hvs
    exact h.pure hm₂ (List.forall_mem_cons.2 ⟨h.atHand_later hv hl₂, hvs⟩)

theorem sequence (hn : Bounded I H L n) (hm : I m) (hi : H m (.scope i)) (ss : List Stmt) :
    Ends I L m (Flow.AtHand H) (Evaluation.sequence (Evaluation.execute n i) ss m) := by
  induction ss generalizing m with
  | nil => exact h.pure hm trivial
  | cons s ss ih =>
    apply h.andThen (hn.execute hm hi s)
    intro flow m₁ hl₁ hm₁ hflow
    cases flow with
    | normal => exact ih hm₁ (h.later hl₁ hi)
    | returned v => exact h.pure hm₁ hflow

section Calls

variable (hn : Bounded I H L n) (hm : I m) {vs : List Value} (hvs : ∀ v ∈ vs, v.AtHand H m)

include hn hm hvs

theorem enter {f : Closure} (hf : H m (.scope f.scope)) :
    Ends I L m (Value.AtHand H) (Evaluation.enter (Evaluation.execute n) f vs m) := by
  rw [enter_eq]
  apply h.andThen (h.opened hm hf hvs)
  rintro inner m₁ - hm₁ ⟨hinner, hf₁⟩
  apply h.andThen (h.sequence hn hm₁ hinner _)
  intro flow m₂ hl₂ hm₂ hflow
  split
  · exact h.getAt hm₂ (h.later hl₂ hf₁) _ _
  · cases flow with
    | normal => exact h.pure hm₂ (.plain rfl)
    | returned v => exact h.pure hm₂ hflow

theorem construct {c : Class} (hc : (Value.class c).AtHand H m) :
    Ends I L m (Value.AtHand H) (Evaluation.construct (Evaluation.execute n) c vs m) := by
  apply h.andThen (h.newInstance hm hc)
  intro self m₁ hl₁ hm₁ hself
  cases hinit : c.initializer? with
  | none => exact h.pure hm₁ hself
  | some init =>
    apply h.andThen (h.bindMethod hm₁ ((h.atHand_later hc hl₁).findMethod? hinit) hself)
    intro g m₂ hl₂ hm₂ hg
    apply h.andThen (h.enter hn hm₂ (fun v hv => h.atHand_later (hvs v hv) (h.trans hl₁ hl₂)) hg)
    intro _ m₃ hl₃ hm₃ _
    exact h.pure hm₃ (h.atHand_later hself (h.trans hl₂ hl₃))

theorem invoke {f : Value} (hf : f.AtHand H m) (paren : Token) :
    Ends I L m (Value.AtHand H) (Evaluation.invoke (Evaluation.execute n) f vs paren m) := by
  cases f with
  | function id code => exact h.enter hn hm hvs (Value.AtHand.function_iff.1 hf)
  | host id code => exact h.callHost hm _ hvs _
  | «class» c => exact h.construct hn hm hvs hf
  | _ => exact h.fail hm _ _

/-- The number of arguments is checked before the call. -/
theorem called {f : Value} (hf : f.AtHand H m) (paren : Token) :
    Ends I L m (Value.AtHand H) ((do
      Evaluation.checkArity f vs paren
      Evaluation.invoke (Evaluation.execute n) f vs paren) m) := by
  apply h.andThen (h.checkArity hm f vs paren)
  intro _ m₁ hl₁ hm₁ _
  exact h.invoke hn hm₁ (fun v hv => h.atHand_later (hvs v hv) hl₁) (h.atHand_later hf hl₁) paren

end Calls

section Classes

variable (hm : I m) (hi : H m (.scope i))

include hm hi

theorem superMethod (r : Reference) (method : Token) :
    Ends I L m (Value.AtHand H) (Evaluation.superMethod i r method m) := by
  apply get_bind
  cases m.depths.get? r.id with
  | none => exact h.fail hm _ _
  | some depth =>
    apply h.andThen (h.getAt hm hi depth r.name)
    intro v m₁ hl₁ hm₁ hv
    cases v with
    | «class» c =>
      apply h.andThen (h.getAt hm₁ (h.later hl₁ hi) (depth - 1) _)
      intro self m₂ hl₂ hm₂ hself
      cases self with
      | «instance» id own =>
        simp only
        cases hf : c.findMethod? method.lexeme with
        | none => exact h.fail hm₂ _ _
        | some f =>
          apply h.andThen (h.bindMethod hm₂ ((h.atHand_later hv hl₂).findMethod? hf) hself)
          intro g m₃ _ hm₃ hg
          exact h.newFunction hm₃ hg
      | _ => exact h.fail hm₂ _ _
    | _ => exact h.fail hm₁ _ _

theorem superclassOf (r : Option Reference) :
    Ends I L m (fun m' o => ∀ c ∈ o, (Value.class c).AtHand H m')
      (Evaluation.superclassOf i r m) := by
  cases r with
  | none => exact h.pure hm nofun
  | some r =>
    apply h.andThen (h.read hm hi r)
    intro v m₁ _ hm₁ hv
    cases v with
    | «class» c => exact h.pure hm₁ fun c' hc' => Option.some.inj hc' ▸ hv
    | _ => exact h.fail hm₁ _ _

theorem methodScope {parent : Option Class} (hp : ∀ c ∈ parent, (Value.class c).AtHand H m) :
    Ends I L m (fun m' inner => H m' (.scope inner)) (Evaluation.methodScope i parent m) := by
  cases parent with
  | none => exact h.pure hm hi
  | some c =>
    apply h.andThen (h.newScope hm hi)
    intro inner m₁ hl₁ hm₁ hinner
    apply h.andThen (h.define hm₁ "super" hinner (h.atHand_later (hp c rfl) hl₁))
    intro _ m₂ hl₂ hm₂ _
    exact h.pure hm₂ (h.later hl₂ hinner)

theorem declareClass (name : Token) (r : Option Reference) (ms : List Function) :
    Ends I L m (fun _ _ => True) (Evaluation.declareClass i name r ms m) := by
  apply h.andThen (h.superclassOf hm hi r)
  intro parent m₁ hl₁ hm₁ hp
  have hi₁ := h.later hl₁ hi
  apply h.andThen (h.define hm₁ name.lexeme hi₁ (.plain rfl))
  intro _ m₂ hl₂ hm₂ _
  have hp₂ : ∀ c ∈ parent, (Value.class c).AtHand H m₂ := fun c hc => h.atHand_later (hp c hc) hl₂
  apply h.andThen (h.methodScope hm₂ (h.later hl₂ hi₁) hp₂)
  intro inner m₃ hl₃ hm₃ hinner
  apply h.andThen (h.newId hm₃)
  intro id m₄ hl₄ hm₄ _
  have hl := h.trans hl₃ hl₄
  refine h.define hm₄ name.lexeme (h.later (h.trans hl₂ hl) hi₁) (.derive (fun x f hf => ?_) ?_)
  · obtain ⟨g, -, -, rfl⟩ := mem_methodTable hf
    exact h.later hl₄ hinner
  · exact fun c hc => h.atHand_later (hp₂ c hc) hl

end Classes

section Succ

variable (hn : Bounded I H L n) (hm : I m) (hi : H m (.scope i))

include hn hm hi

theorem evaluate_succ (e : Expr) :
    Ends I L m (Value.AtHand H) (Evaluation.evaluate (n + 1) i e m) := by
  unfold Evaluation.evaluate
  cases e with
  | literal v => exact h.pure hm (.plain (by cases v <;> rfl))
  | grouping e => exact hn.evaluate hm hi e
  | unary op e =>
    apply h.andThen (hn.evaluate hm hi e)
    intro v m₁ _ hm₁ _
    exact h.blaming hm₁ op fun _ => Simulation.unary_plain
  | binary l op r =>
    apply h.andThen (hn.evaluate hm hi l)
    intro a m₁ hl₁ hm₁ _
    apply h.andThen (hn.evaluate hm₁ (h.later hl₁ hi) r)
    intro b m₂ _ hm₂ _
    exact h.blaming hm₂ op fun _ => Simulation.binary_plain
  | logical l op r =>
    apply h.andThen (hn.evaluate hm hi l)
    intro a m₁ hl₁ hm₁ ha
    split
    · exact h.pure hm₁ ha
    · exact hn.evaluate hm₁ (h.later hl₁ hi) r
  | var r => exact h.read hm hi r
  | assign r e =>
    apply h.andThen (hn.evaluate hm hi e)
    intro v m₁ hl₁ hm₁ hv
    apply h.andThen (h.write hm₁ (h.later hl₁ hi) r hv)
    intro _ m₂ hl₂ hm₂ _
    exact h.pure hm₂ (h.atHand_later hv hl₂)
  | call f paren es =>
    apply h.andThen (hn.evaluate hm hi f)
    intro v m₁ hl₁ hm₁ hv
    apply h.andThen (h.arguments hn hm₁ (h.later hl₁ hi) es)
    intro vs m₂ hl₂ hm₂ hvs
    exact h.called hn hm₂ hvs (h.atHand_later hv hl₂) paren
  | get e name =>
    apply h.andThen (hn.evaluate hm hi e)
    intro v m₁ _ hm₁ hv
    cases v with
    | «instance» id c => exact h.property hm₁ hv name
    | _ => exact h.fail hm₁ _ _
  | set e name value =>
    apply h.andThen (hn.evaluate hm hi e)
    intro u m₁ hl₁ hm₁ hu
    cases u with
    | «instance» id c =>
      apply h.andThen (hn.evaluate hm₁ (h.later hl₁ hi) value)
      intro v m₂ hl₂ hm₂ hv
      apply h.andThen (h.setField hm₂ name.lexeme (h.later hl₂ hu.self) hv)
      intro _ m₃ hl₃ hm₃ _
      exact h.pure hm₃ (h.atHand_later hv hl₃)
    | _ => exact h.fail hm₁ _ _
  | this r => exact h.read hm hi r
  | super r method => exact h.superMethod hm hi r method

theorem execute_succ (s : Stmt) :
    Ends I L m (Flow.AtHand H) (Evaluation.execute (n + 1) i s m) := by
  unfold Evaluation.execute
  cases s with
  | expression e =>
    apply h.andThen (hn.evaluate hm hi e)
    intro v m₁ _ hm₁ _
    exact h.pure hm₁ trivial
  | print e =>
    apply h.andThen (hn.evaluate hm hi e)
    intro v m₁ _ hm₁ _
    apply h.andThen (h.printLine hm₁ v.text)
    intro _ m₂ _ hm₂ _
    exact h.pure hm₂ trivial
  | var x e =>
    have hdefine (v : Value) (m₁ : Machine) (hl₁ : L m m₁) (hm₁ : I m₁) (hv : v.AtHand H m₁) :
        Ends I L m₁ (Flow.AtHand H)
          ((Run.define i x.lexeme v >>= fun _ => (Pure.pure .normal : Run Flow)) m₁) := by
      apply h.andThen (h.define hm₁ x.lexeme (h.later hl₁ hi) hv)
      intro _ m₂ _ hm₂ _
      exact h.pure hm₂ trivial
    cases e with
    | none => exact h.andThen (h.pure hm (P := Value.AtHand H) (.plain rfl)) hdefine
    | some e => exact h.andThen (hn.evaluate hm hi e) hdefine
  | block ss =>
    apply h.andThen (h.newScope hm hi)
    intro inner m₁ _ hm₁ hinner
    exact h.sequence hn hm₁ hinner ss
  | «if» e yes no =>
    apply h.andThen (hn.evaluate hm hi e)
    intro v m₁ hl₁ hm₁ _
    split
    · exact hn.execute hm₁ (h.later hl₁ hi) yes
    · cases no with
      | none => exact h.pure hm₁ trivial
      | some no => exact hn.execute hm₁ (h.later hl₁ hi) no
  | «while» e body => exact hn.loop hm hi e body
  | function f =>
    apply h.andThen (h.newFunction (f := ⟨f, i, false⟩) hm hi)
    intro v m₁ hl₁ hm₁ hv
    apply h.andThen (h.define hm₁ f.name.lexeme (h.later hl₁ hi) hv)
    intro _ m₂ _ hm₂ _
    exact h.pure hm₂ trivial
  | «return» t e =>
    cases e with
    | none => exact h.pure hm (.plain rfl)
    | some e =>
      apply h.andThen (hn.evaluate hm hi e)
      intro v m₁ _ hm₁ hv
      exact h.pure hm₁ hv
  | «class» x r ms =>
    apply h.andThen (h.declareClass hm hi x r ms)
    intro _ m₁ _ hm₁ _
    exact h.pure hm₁ trivial

theorem loop_succ (e : Expr) (s : Stmt) :
    Ends I L m (Flow.AtHand H) (Evaluation.loop (n + 1) i e s m) := by
  unfold Evaluation.loop
  apply h.andThen (hn.evaluate hm hi e)
  intro v m₁ hl₁ hm₁ _
  split
  · apply h.andThen (hn.execute hm₁ (h.later hl₁ hi) s)
    intro flow m₂ hl₂ hm₂ hflow
    cases flow with
    | normal => exact hn.loop hm₂ (h.later (h.trans hl₁ hl₂) hi) e s
    | returned v => exact h.pure hm₂ hflow
  · exact h.pure hm₁ trivial

end Succ

theorem bounded (n : Nat) : Bounded I H L n := by
  induction n with
  | zero => constructor <;> intros <;> exact h.exhausted ‹_›
  | succ n ih => exact ⟨h.evaluate_succ ih, h.execute_succ ih, h.loop_succ ih⟩

theorem program (n : Nat) (hm : I m) (ss : List Stmt) :
    Ends I L m (fun _ _ => True) (Evaluation.program n ss m) := by
  induction ss generalizing m with
  | nil => exact h.pure hm trivial
  | cons s ss ih =>
    apply h.andThen ((h.bounded n).execute hm (h.global hm) s)
    intro _ m₁ _ hm₁ _
    exact ih hm₁

/-- Where a task is started that another one spawns. -/
theorem spawned {t t' : Task} (hs : Spawns t m t' m') (hm : I m) (ht : H m (.scope t.scope)) :
    L m m' ∧ I m' ∧ H m' (.scope t'.scope) := by
  -- the same scope is at hand on the later machine
  have hsame {m₁ : Machine} (hl : L m m₁) (hm₁ : I m₁) :
      L m m₁ ∧ I m₁ ∧ H m₁ (.scope t.scope) := ⟨hl, hm₁, h.later hl ht⟩
  cases hs with
  | right he | undecided he _ | field he | yes he _ | no he _ | loopBody he _ =>
    obtain ⟨hl₁, hm₁, -⟩ := ((h.bounded _).evaluate hm ht _).of_ok he
    exact hsame hl₁ hm₁
  | argument hf hvs =>
    obtain ⟨hl₁, hm₁, -⟩ := ((h.bounded _).evaluate hm ht _).of_ok hf
    obtain ⟨hl₂, hm₂, -⟩ := (h.arguments (h.bounded _) hm₁ (h.later hl₁ ht) _).of_ok hvs
    exact hsame (h.trans hl₁ hl₂) hm₂
  | body hf hvs ha ho hs =>
    obtain ⟨hl₁, hm₁, hv⟩ := ((h.bounded _).evaluate hm ht _).of_ok hf
    obtain ⟨hl₂, hm₂, hvs⟩ := (h.arguments (h.bounded _) hm₁ (h.later hl₁ ht) _).of_ok hvs
    obtain ⟨hl₃, hm₃, -⟩ := (h.checkArity hm₂ _ _ _).of_ok ha
    have hv₃ := h.atHand_later hv (h.trans hl₂ hl₃)
    obtain ⟨hl₄, hm₄, hinner⟩ := h.opens hm₃ ho hv₃ fun v hv => h.atHand_later (hvs v hv) hl₃
    obtain ⟨hl₅, hm₅, -⟩ := (h.sequence (h.bounded _) hm₄ hinner _).of_ok hs
    exact ⟨h.trans (h.trans (h.trans hl₁ hl₂) (h.trans hl₃ hl₄)) hl₅, hm₅, h.later hl₅ hinner⟩
  | inner hnew hs =>
    obtain ⟨hl₁, hm₁, hinner⟩ := (h.newScope hm ht).of_ok hnew
    obtain ⟨hl₂, hm₂, -⟩ := (h.sequence (h.bounded _) hm₁ hinner _).of_ok hs
    exact ⟨h.trans hl₁ hl₂, hm₂, h.later hl₂ hinner⟩
  | again he _ hb =>
    obtain ⟨hl₁, hm₁, -⟩ := ((h.bounded _).evaluate hm ht _).of_ok he
    obtain ⟨hl₂, hm₂, -⟩ := ((h.bounded _).execute hm₁ (h.later hl₁ ht) _).of_ok hb
    exact hsame (h.trans hl₁ hl₂) hm₂
  | _ => exact hsame (h.refl m) hm

theorem visited {t t' : Task} (hv : Visits t m t' m') (hm : I m) (ht : H m (.scope t.scope)) :
    L m m' ∧ I m' ∧ H m' (.scope t'.scope) := by
  induction hv with
  | self => exact ⟨h.refl _, hm, ht⟩
  | step hs _ ih =>
    obtain ⟨hl₁, hm₁, ht₁⟩ := h.spawned hs hm ht
    obtain ⟨hl₂, hm₂, ht₂⟩ := ih hm₁ ht₁
    exact ⟨h.trans hl₁ hl₂, hm₂, ht₂⟩

/-- However a task ends. -/
theorem task (hm : I m) (t : Task) (ht : H m (.scope t.scope)) : L m (t.left m) ∧ I (t.left m) := by
  cases t with
  | evaluate n i e => exact ((h.bounded n).evaluate hm ht e).left
  | execute n i s => exact ((h.bounded n).execute hm ht s).left
  | loop n i e s => exact ((h.bounded n).loop hm ht e s).left

end Lox.Holding
