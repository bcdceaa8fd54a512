import Lox.Proofs.Placement.Initializer
import Lox.Proofs.Session.Super

/-!
# Construction of instances

Whenever a run calls a class, the number of arguments is right if and only if it is that of
the parameters of the nearest initializer. Main statement: the initializer then runs with
each parameter bound to its argument and `this` to a new instance, which the call comes to;
and also where an initializer is called by itself, the call comes to the receiver, however
the body ends.
-/

set_option autoImplicit false

namespace Lox

/-- The initializer nearest to a class on its chain of superclasses, if there is any. -/
inductive Class.Nearest (c : Class) : Option Closure → Prop
  | none (h : ∀ b ∈ c.body :: c.ancestors, b.methods.get? "init" = none) : c.Nearest none
  | some {before after : List ClassBody} {b : ClassBody} {f : Closure}
      (hc : c.body :: c.ancestors = before ++ b :: after) (hf : b.methods.get? "init" = some f)
      (hb : ∀ b' ∈ before, b'.methods.get? "init" = none) : c.Nearest (some f)

theorem Class.nearest (c : Class) : c.Nearest c.initializer? := by
  cases h : c.initializer? with
  | none => exact .none (List.findSome?_eq_none_iff.1 h)
  | some f =>
    obtain ⟨before, b, after, hc, hf, hb⟩ := List.findSome?_eq_some_iff.1 h
    exact .some hc hf hb

/-- The instance is none of the arguments, and none of the values on the machine. -/
structure Machine.Unused (m : Machine) (id : Nat) (vs : List Value) : Prop where
  names (i : Nat) (name : String) (c : Class) : m.scopes.own? i name ≠ some (.instance id c)
  fields (k : Nat) (name : String) (c : Class) : m.field? k name ≠ some (.instance id c)
  arguments (c : Class) : .instance id c ∉ vs

namespace Evaluation

theorem checkArity_eq {f : Value} {n : Nat} (hf : f.arity? = some n) (vs : List Value) (paren : Token)
    (m : Machine) : checkArity f vs paren m =
      if vs.length = n then .ok () m
      else .error (.fault (.runtime paren.line (.arity n vs.length))) m := by
  unfold checkArity
  rw [hf]
  by_cases hn : vs.length = n
  · simp only [hn, if_true]
    rfl
  · simp only [hn, if_false]
    rfl

theorem checkArity_iff {f : Value} {n : Nat} (hf : f.arity? = some n) (vs : List Value)
    (paren : Token) (m : Machine) : checkArity f vs paren m = .ok () m ↔ vs.length = n := by
  rw [checkArity_eq hf]
  by_cases hn : vs.length = n <;> simp [hn]

/-- A call whose number of arguments is right. -/
theorem evaluate_call {n scope : Nat} {callee : Expr} {paren : Token} {es : List Expr} {v : Value}
    {vs : List Value} {m m₁ m₂ : Machine} (hf : evaluate n scope callee m = .ok v m₁)
    (hvs : arguments (evaluate n scope) es m₁ = .ok vs m₂)
    (ha : checkArity v vs paren m₂ = .ok () m₂) :
    evaluate (n + 1) scope (.call callee paren es) m = invoke (execute n) v vs paren m₂ :=
  (Run.bind_ok hf).trans ((Run.bind_ok hvs).trans (Run.bind_ok ha))

end Evaluation

namespace Placement

open Evaluation

variable {S : Setting} {m : Machine}

theorem unused_of_sane (hs : Sane S m) {vs : List Value} (hvs : ∀ v ∈ vs, Valid S m v) :
    m.Unused m.instances.size vs := by
  have hinvalid {c : Class} (h : Valid S m (.instance m.instances.size c)) : False := by
    cases h with
    | plain hv => cases hv
    | «instance» hid => exact Nat.lt_irrefl _ hid
  exact ⟨fun i name c h => hinvalid (hs.names i name _ h),
    fun k name c h => hinvalid (hs.fields k name _ h), fun c h => hinvalid (hvs _ h)⟩

end Placement

namespace Session

open Scoping Evaluation Placement

/-- A call of `v` runs the body of initializer `f`, with each parameter bound to its argument
and `this` to `self`, and comes to `self` if the body does not fail. -/
def Initialized (n : Nat) (v : Value) (f : Function) (vs : List Value) (self : Value) (m : Machine)
    (outcome : EStateM.Result Stop Machine Value) : Prop :=
  ∃ i m', Opens v vs m i f.body m' ∧
    List.Forall₂ (fun p w => m'.scopes.own? i p.lexeme = some w) f.params vs ∧
    m'.scopes.get? i "this" = some self ∧
    outcome = Run.yielding self (sequence (Evaluation.execute n i) f.body m')

section Calls

variable {S : Setting} {n scope : Nat} {callee : Expr} {paren : Token} {es : List Expr}
  {vs : List Value} {m m₁ m₂ : Machine}
  (h : Ready S (.evaluate (n + 1) scope (.call callee paren es)) m)
  (hvs : arguments (Evaluation.evaluate n scope) es m₁ = .ok vs m₂)

include h hvs

theorem call_class {c : Class} (hf : Evaluation.evaluate n scope callee m = .ok (.class c) m₁)
    (hlen : vs.length = c.arity) :
    (c.initializer? = none → Evaluation.evaluate (n + 1) scope (.call callee paren es) m =
        .ok (.instance m₂.instances.size c) { m₂ with instances := m₂.instances.push [] }) ∧
      ∀ f, c.initializer? = some f →
        Initialized n (.class c) f.declaration vs (.instance m₂.instances.size c) m₂
          (Evaluation.evaluate (n + 1) scope (.call callee paren es) m) := by
  obtain ⟨-, -, hs₂, hv, hvalid⟩ := h.arguments (preserves S n) hf (List.append_nil es).symm hvs
  have ha : checkArity (.class c) vs paren m₂ = .ok () m₂ := (checkArity_iff rfl vs paren m₂).2 hlen
  rw [evaluate_call hf hvs ha]
  constructor
  · intro hi
    show construct (Evaluation.execute n) c vs m₂ = _
    unfold construct
    rw [hi]
    rfl
  · intro f hi
    have hc : ValidClass S m₂ c := by
      cases hv with
      | plain hv => cases hv
      | «class» hc => exact hc
    have hlen : vs.length = f.arity := by
      rw [hlen, Class.arity, hi]
      rfl
    obtain ⟨i, m', ho, hbound, hthis, houtcome⟩ := construct_outcome
      (Evaluation.execute n) hs₂ hvalid hc hi hlen
      fun i m' ho => (preserves S n).body h hf hvs ha (.class hi ho)
    exact ⟨i, m', .class hi ho, hbound, hthis, houtcome⟩

theorem call_initializer {k : Nat} {f : Closure}
    (hf : Evaluation.evaluate n scope callee m = .ok (.function k f) m₁)
    (hi : f.isInitializer = true) :
    ∃ id own, m₁.scopes.own? f.scope "this" = some (.instance id own) ∧
      (vs.length = f.arity → Initialized n (.function k f) f.declaration vs (.instance id own) m₂
        (Evaluation.evaluate (n + 1) scope (.call callee paren es) m)) := by
  obtain ⟨-, -, hv⟩ :=
    h.first (preserves S n) .callee h.placed (by simp [Node.children]) hf
  have hcall : Callable S m₁ f := by
    cases hv with
    | plain hv => cases hv
    | function hf => exact hf
  obtain ⟨id, own, j, hr⟩ := hcall.receiver hi
  refine ⟨id, own, hr.this, fun hlen => ?_⟩
  obtain ⟨-, hg₂, hs₂, -, hvalid⟩ :=
    h.arguments (preserves S n) hf (List.append_nil es).symm hvs
  have ha : checkArity (.function k f) vs paren m₂ = .ok () m₂ :=
    (checkArity_iff rfl vs paren m₂).2 hlen
  obtain ⟨i, m', ho, hbound, hthis, houtcome⟩ := enter_outcome
    (Evaluation.execute n) hs₂ hvalid (hcall.grow (.refl S) hg₂) hi hlen (hr.grow hg₂)
    fun i m' ho => (preserves S n).body h hf hvs ha (.function ho)
  rw [evaluate_call hf hvs ha]
  exact ⟨i, m', .function ho, hbound, hthis, houtcome⟩

/-- An initializer that is called on an instance, or as that of the superclass. -/
theorem call_bound {v : Value} {c own : Class} {id : Nat} {name : Token} {m₀ : Machine}
    (hf : Evaluation.evaluate n scope callee m = .ok v m₁) (hc : ValidClass S m₀ c)
    (hname : name.lexeme = "init") (hv : m₀.bound c (.instance id own) name = .ok v m₁) :
    ∃ k f, v = .function k f ∧
      (vs.length = f.arity → Initialized n v f.declaration vs (.instance id own) m₂
        (Evaluation.evaluate (n + 1) scope (.call callee paren es) m)) := by
  obtain ⟨k, f, rfl, hi, hthis⟩ := bound_initializer hc hname hv
  obtain ⟨id', own', hthis', hcall⟩ := call_initializer h hvs hf hi
  rw [hthis] at hthis'
  cases hthis'
  exact ⟨k, f, rfl, hcall⟩

end Calls

/-- A call of a class takes as many arguments as its nearest initializer has parameters, none
if there is no initializer, and comes to a new instance, on which the initializer was run. A
call of an initializer, also as that of an instance or of the superclass, comes to its
receiver. In each case it does not matter how the body ends. -/
theorem construction {us : List Turn} {s : Session} (hs : Course us s) {bound n scope : Nat}
    {source : String} {callee : Expr} {paren : Token} {es : List Expr} {v : Value} {vs : List Value}
    {m m₁ m₂ : Machine}
    (hv : s.Visited bound source (.evaluate (n + 1) scope (.call callee paren es)) m)
    (hf : Evaluation.evaluate n scope callee m = .ok v m₁)
    (hvs : arguments (Evaluation.evaluate n scope) es m₁ = .ok vs m₂) :
    (∀ c, v = .class c → ∃ init, c.Nearest init ∧
      (checkArity v vs paren m₂ = .ok () m₂ ↔
        vs.length = init.elim 0 fun f => f.declaration.params.length) ∧
      (checkArity v vs paren m₂ = .ok () m₂ → m₂.Unused m₂.instances.size vs ∧
        (init = none → Evaluation.evaluate (n + 1) scope (.call callee paren es) m =
          .ok (.instance m₂.instances.size c) { m₂ with instances := m₂.instances.push [] }) ∧
        ∀ f, init = some f →
          Initialized n v f.declaration vs (.instance m₂.instances.size c) m₂
            (Evaluation.evaluate (n + 1) scope (.call callee paren es) m))) ∧
    (∀ k f, v = .function k f → f.isInitializer = true →
      ∃ self, m₁.scopes.own? f.scope "this" = some self ∧
        (vs.length = f.arity → Initialized n v f.declaration vs self m₂
          (Evaluation.evaluate (n + 1) scope (.call callee paren es) m))) ∧
    (∀ k e name id c m₀, n = k + 1 → callee = .get e name → name.lexeme = "init" →
      Evaluation.evaluate k scope e m = .ok (.instance id c) m₀ → m₀.field? id "init" = none →
        ∃ j f, v = .function j f ∧
          (vs.length = f.arity → Initialized n v f.declaration vs (.instance id c) m₂
            (Evaluation.evaluate (n + 1) scope (.call callee paren es) m))) ∧
    ∀ ref method, callee = .super ref method → method.lexeme = "init" →
      ∃ self j f, m.scopes.get? scope "this" = some self ∧ v = .function j f ∧
        (vs.length = f.arity → Initialized n v f.declaration vs self m₂
          (Evaluation.evaluate (n + 1) scope (.call callee paren es) m)) := by
  have h := hs.ready hv
  refine ⟨?_, ?_, ?_, ?_⟩
  · rintro c rfl
    have harity : checkArity (.class c) vs paren m₂ = .ok () m₂ ↔ vs.length = c.arity :=
      checkArity_iff rfl vs paren m₂
    refine ⟨c.initializer?, c.nearest, ?_, fun ha => ?_⟩
    · rw [harity, Class.arity]
      cases c.initializer? <;> rfl
    · obtain ⟨-, -, hs₂, -, hvalid⟩ :=
        h.arguments (preserves _ n) hf (List.append_nil es).symm hvs
      exact ⟨unused_of_sane hs₂ hvalid, call_class h hvs hf (harity.1 ha)⟩
  · rintro k f rfl hi
    obtain ⟨id, own, hthis, hcall⟩ := call_initializer h hvs hf hi
    exact ⟨_, hthis, hcall⟩
  · rintro k e name id c m₀ rfl rfl hname he hfield
    have hget := h.spawned (fun n _ => preserves _ n) .callee
    obtain ⟨-, -, hself⟩ :=
      hget.first (preserves _ k) .object hget.placed (by simp [Node.children]) he
    have hproperty : Evaluation.evaluate (k + 1) scope (.get e name) m = Run.property id c name m₀ :=
      Run.bind_ok he
    rw [hproperty, property_eq (hname ▸ hfield)] at hf
    have hf' : Evaluation.evaluate (k + 1) scope (.get e name) m = .ok v m₁ := by
      rw [hproperty, property_eq (hname ▸ hfield), hf]
    exact call_bound h hvs hf' hself.classOf hname hf
  · rintro ref method rfl hname
    cases n with
    | zero => cases hf
    | succ k =>
      obtain ⟨-, -, -, -, -, -, -, -, -, c, i, -, self, own, -, -, -, -, -, -, hsuper, -, -, hthis,
        heq⟩ := hs.atSuper (hv.spawned .callee)
      have hc : ValidClass (setting (⟨s, bound, source⟩ :: us)) m c := by
        cases h.sane.names i "super" _ hsuper with
        | plain hv => cases hv
        | «class» hc => exact hc
      obtain ⟨j, f, rfl, hcall⟩ := call_bound h hvs hf hc hname (heq.symm.trans hf)
      exact ⟨_, j, f, hthis, rfl, hcall⟩

/-- The initializer of a class returns early. -/
def constructionText : String := "class A \x7b init(x) \x7b return; \x7d \x7d A(nil);"

def constructionInit : Function :=
  .mk (.ofName "init" 1) [.ofName "x" 1] [.return ⟨.word .return, "return", 1⟩ none]

def constructionClasses : List Stmt := [.class (.ofName "A" 1) none [constructionInit]]

def constructionCall : Expr :=
  .call (.var ⟨0, .ofName "A" 1⟩) ⟨.mark .rightParen, ")", 1⟩ [.literal .nil]

theorem accepted_construction : (start 0).accepted? constructionText =
    some (constructionClasses ++ [.expression constructionCall]) := by
  cbv

/-- The machine when the class is declared. -/
def constructionMachine : Machine :=
  Run.left (Evaluation.program 5 constructionClasses ((start 0).prepared constructionText
    (constructionClasses ++ [.expression constructionCall])).machine)

def constructedClass : Class := ⟨⟨1, "A", [("init", ⟨constructionInit, 0, true⟩)]⟩, []⟩

theorem construction_bareReturn :
    ∃ init, constructedClass.Nearest init ∧
      ([Value.nil].length = init.elim 0 fun f => f.declaration.params.length) ∧
      constructionMachine.Unused constructionMachine.instances.size [.nil] := by
  have hdeclared : Evaluation.program 5 constructionClasses
      ((start 0).prepared constructionText
        (constructionClasses ++ [.expression constructionCall])).machine =
          .ok () constructionMachine := by cbv
  have hv : (start 0).Visited 5 constructionText (.evaluate 4 0 constructionCall)
      constructionMachine :=
    ⟨constructionClasses, .expression constructionCall, [], constructionMachine,
      accepted_construction, hdeclared, .step .expression .self⟩
  have hf : Evaluation.evaluate 3 0 (.var ⟨0, .ofName "A" 1⟩) constructionMachine =
      .ok (.class constructedClass) constructionMachine := by cbv
  have ha : checkArity (.class constructedClass) [.nil] ⟨.mark .rightParen, ")", 1⟩
      constructionMachine = .ok () constructionMachine := rfl
  obtain ⟨init, hnearest, harity, hcall⟩ := (construction (.start 0) hv hf rfl).1 _ rfl
  exact ⟨init, hnearest, harity.1 ha, (hcall ha).1⟩

end Session

end Lox
