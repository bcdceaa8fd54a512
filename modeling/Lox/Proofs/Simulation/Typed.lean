import Lox.Proofs.Simulation.Program

/-!
# Tasks typed with the scopes around them

A task is typed on a machine if its code stands inside scopes that form the chain from the
scope at hand on, with all names bound that are defined there. What a typed task spawns is
typed on the machine of that moment, also the bodies of closures that were made long
before. So a reference with a known depth always finds the scope that declares it.
-/

set_option autoImplicit false

namespace Lox

/-- The expressions that an expression has evaluated in its own scope. -/
def Expr.operands : Expr → List Expr
  | .literal _ | .var _ | .this _ | .super _ _ => []
  | .grouping e | .unary _ e | .assign _ e | .get e _ => [e]
  | .binary l _ r | .logical l _ r => [l, r]
  | .call callee _ args => callee :: args
  | .set object _ value => [object, value]

/-- `e.Inside e'`: expression `e` stands in expression `e'`. -/
inductive Expr.Inside : Expr → Expr → Prop
  | self {e : Expr} : e.Inside e
  | operand {e p e' : Expr} (h : p.Inside e') (he : e ∈ p.operands) : e.Inside e'

namespace Scoping

/-- A name is declared in the innermost scope. -/
theorem depth?_declared {fs : Frames} {name : String} {d : Nat}
    (h : depth? (declare fs name) name = some d) : d = 0 := by
  cases fs with
  | nil => cases h
  | cons f fs =>
    have hb : (if f.binds name then f else (name, false) :: f).binds name = true := by
      split
      · assumption
      · simp [Frame.binds]
    rw [declare, depth?_cons, if_pos hb] at h
    exact (Option.some.inj h).symm

end Scoping

namespace Simulation

open Scoping Evaluation

/-- A place with scopes around it is not global. -/
theorem Models.ne_global {w : World} {rs : List Renaming} {fs : Frames} {i d : Nat} {name : String}
    (h : Models w rs fs i) (hd : depth? fs name = some d) : i ≠ Machine.global := by
  cases fs with
  | nil => cases hd
  | cons f fs =>
    cases rs with
    | nil => exact h.elim
    | cons r rs =>
      obtain ⟨-, -, p, hp, -⟩ := h
      intro hi
      rw [hi] at hp
      exact absurd (Scopes.enclosing?_lt hp) (Nat.not_lt_zero p)

/-- The variables that are being declared: where, and with which initializer. -/
abbrev Declaring := Nat → Token → Expr → Prop

/-- The scopes around an expression define all of their names, but that of a variable in
whose initializer the expression stands. -/
inductive Surrounds (D : Declaring) (scope : Nat) (e : Expr) : Frames → Prop
  | settled {fs : Frames} (hs : Settled fs) : Surrounds D scope e fs
  | initial {fs : Frames} {x : Token} {init : Expr} (hs : Settled fs) (hd : D scope x init)
      (he : e.Inside init) : Surrounds D scope e (declare fs x.lexeme)

theorem Surrounds.operand {D : Declaring} {scope : Nat} {e p : Expr} {fs : Frames}
    (h : Surrounds D scope p fs) (he : e ∈ p.operands) : Surrounds D scope e fs := by
  cases h with
  | settled hs => exact .settled hs
  | initial hs hd hp => exact .initial hs hd (.operand hp he)

inductive Typed (link : Link) (D : Declaring) : Task → Machine → Prop
  | expr {w : World} {m : Machine} {rs : List Renaming} {fs : Frames} {n scope : Nat}
      {e : Expr} (hm : Match link w m m) (hmod : Models w rs fs scope)
      (hs : Surrounds D scope e fs) (ht : Twin link rs fs (.expr e) (.expr e)) :
      Typed link D (.evaluate n scope e) m
  | stmt {w : World} {m : Machine} {rs : List Renaming} {fs : Frames} {n scope : Nat}
      {s : Stmt} (hm : Match link w m m) (hmod : Models w rs fs scope) (hs : Settled fs)
      (ht : Twin link rs fs (.stmt s) (.stmt s)) : Typed link D (.execute n scope s) m
  | loop {w : World} {m : Machine} {rs : List Renaming} {fs : Frames} {n scope : Nat}
      {e : Expr} {s : Stmt} (hm : Match link w m m) (hmod : Models w rs fs scope)
      (hs : Settled fs) (he : Twin link rs fs (.expr e) (.expr e))
      (ht : Twin link rs fs (.stmt s) (.stmt s)) (hp : s.plain = true) :
      Typed link D (.loop n scope e s) m

variable {link : Link} {w : World} {m m₁ : Machine} {rs : List Renaming} {fs : Frames}
  {n scope : Nat} {D : Declaring} {blame : Blame}

/-- A computation in step with itself that succeeds leaves a machine that matches itself. -/
theorem Lockstep.succeeded {α : Type} {Q : World → α → α → Prop} {r : Outcome α} {a : α}
    (h : Lockstep link w blame Q r r) (hr : r = .ok a m₁) :
    ∃ w₁, w.Extends w₁ ∧ Match link w₁ m₁ m₁ ∧ Q w₁ a a := by
  rw [hr] at h
  cases h with
  | ok hw hm hq => exact ⟨_, hw, hm, hq⟩

/-- Where it does not matter who is blamed. -/
abbrev Blame.anyone : Blame := fun _ _ => True

/-- What stands in a typed expression is typed once more of the world is known. -/
theorem Typed.operand {w₁ : World} {e p : Expr} (hm : Match link w₁ m₁ m₁) (hw : w.Extends w₁)
    (hmod : Models w rs fs scope) (hs : Surrounds D scope p fs)
    (ht : Twin link rs fs (.expr e) (.expr e)) (he : e ∈ p.operands) :
    Typed link D (.evaluate n scope e) m₁ :=
  .expr hm (hmod.mono hw) (hs.operand he) ht

namespace Match

variable (hm : Match link w m m) (hmod : Models w rs fs scope)

include hm hmod

theorem evaluated {e : Expr} {v : Value} (ht : Twin link rs fs (.expr e) (.expr e))
    (hv : evaluate n scope e m = .ok v m₁) :
    ∃ w₁, w.Extends w₁ ∧ Match link w₁ m₁ m₁ ∧ ValueTwin link w₁ v v :=
  ((simulates link n).expr hm hmod ht).succeeded hv

theorem evaluatedAll {es : List Expr} {vs : List Value}
    (ht : Twin link rs fs (.exprs es) (.exprs es))
    (hvs : arguments (evaluate n scope) es m = .ok vs m₁) :
    ∃ w₁, w.Extends w₁ ∧ Match link w₁ m₁ m₁ ∧ List.Forall₂ (ValueTwin link w₁) vs vs := by
  have h : Lockstep link w .anyone (fun w' => List.Forall₂ (ValueTwin link w'))
      (arguments (evaluate n scope) es m) (arguments (evaluate n scope) es m) :=
    (simulates link n).arguments hm hmod ht fun _ _ _ _ _ _ _ _ _ _ => trivial
  exact h.succeeded hvs

/-- Up to any argument of a call. -/
theorem evaluatedBefore {before after : List Expr} {e : Expr} {vs : List Value}
    (ht : Twin link rs fs (.exprs (before ++ e :: after)) (.exprs (before ++ e :: after)))
    (hvs : arguments (evaluate n scope) before m = .ok vs m₁) :
    ∃ w₁, w.Extends w₁ ∧ Match link w₁ m₁ m₁ ∧ Twin link rs fs (.expr e) (.expr e) := by
  induction before generalizing w m vs with
  | nil =>
    cases hvs
    cases ht with
    | moreExprs he _ => exact ⟨w, .refl w, hm, he⟩
  | cons e₀ before ih =>
    cases ht with
    | moreExprs he hes =>
      obtain ⟨v, m₂, hv, hvs⟩ := Run.ok_of_bind hvs
      obtain ⟨vs', m₃, hvs', hvs⟩ := Run.ok_of_bind hvs
      cases hvs
      obtain ⟨w₂, hw₂, hm₂, -⟩ := hm.evaluated hmod he hv
      obtain ⟨w₁, hw₁, hm₁, ht⟩ := ih hm₂ (hmod.mono hw₂) hes hvs'
      exact ⟨w₁, hw₂.trans hw₁, hm₁, ht⟩

/-- Up to any statement of a sequence. -/
theorem executedBefore {before after : List Stmt} {s : Stmt} (hs : Settled fs)
    (ht : Twin link rs fs (.stmts (before ++ s :: after)) (.stmts (before ++ s :: after)))
    (hb : sequence (execute n scope) before m = .ok .normal m₁) :
    Typed link D (.execute n scope s) m₁ := by
  induction before generalizing fs w m with
  | nil =>
    cases hb
    cases ht with
    | moreStmts h _ => exact .stmt hm hmod hs h
  | cons s₀ before ih =>
    obtain ⟨m₂, hs₀, hb⟩ := normal_of_sequence hb
    cases ht with
    | moreStmts h hss =>
      obtain ⟨w₂, -, hm₂, -, hafter⟩ := ((simulates link n).stmt hm hmod hs h).succeeded hs₀
      exact ih hm₂ (hafter rfl) (hs.after s₀) hss hb

end Match

theorem Match.initializer {c : Class} {init : Closure} (hc : ClassTwin link w c c)
    (hi : c.initializer? = some init) : MethodTwin link w init init := by
  have hf := hc.findMethod? Function.initializerName
  unfold Class.initializer? at hi
  rw [hi] at hf
  cases hf with
  | some hf => exact hf

/-- The body that a call runs stands inside the scope that is opened for it. -/
theorem Match.openedBody {v : Value} {vs : List Value} {inner : Nat} {ss : List Stmt}
    (hm : Match link w m m) (hv : ValueTwin link w v v)
    (hvs : List.Forall₂ (ValueTwin link w) vs vs) (hlen : v.arity? = some vs.length)
    (ho : Opens v vs m inner ss m₁) :
    ∃ w₁ rs fs, Match link w₁ m₁ m₁ ∧ Settled fs ∧ Models w₁ rs fs inner ∧
      Twin link rs fs (.stmts ss) (.stmts ss) := by
  have hopened {w₂ : World} {m₂ : Machine} {c : Closure} (hm₂ : Match link w₂ m₂ m₂)
      (hc : CallableTwin link w₂ c c) (hvs : List.Forall₂ (ValueTwin link w₂) vs vs)
      (hlen : vs.length = c.arity) (h : Evaluation.opened c vs m₂ = .ok inner m₁) :
      ∃ w₁ rs fs, Match link w₁ m₁ m₁ ∧ Settled fs ∧ Models w₁ rs fs inner ∧
        Twin link rs fs (.stmts c.declaration.body) (.stmts c.declaration.body) := by
    obtain ⟨w₁, -, hm₁, -, rs, fs, hs, hmod, ht⟩ :=
      (hm₂.opened hc hvs hlen : Lockstep link w₂ .anyone _ _ _).succeeded h
    exact ⟨w₁, rs, fs, hm₁, hs, hmod, ht⟩
  cases ho with
  | function h =>
    cases hv with
    | plain hv => cases hv
    | function hc => exact hopened hm hc hvs (Option.some.inj hlen).symm h
  | @«class» c init _ _ _ _ hi h =>
    cases hv with
    | plain hv => cases hv
    | «class» hc =>
      obtain ⟨self, m₂, hself, hrest⟩ := Run.ok_of_bind h
      obtain ⟨b, m₃, hb, hopen⟩ := Run.ok_of_bind hrest
      obtain ⟨w₂, hw₂, hm₂, id, rfl, -, hc₂⟩ :=
        (hm.newInstance hc : Lockstep link w .anyone _ _ _).succeeded hself
      have hself₂ : ValueTwin link w₂ (.instance id c) (.instance id c) := .instance hc₂
      obtain ⟨w₃, hw₃, hm₃, hcall, hdecl⟩ :=
        (hm₂.bindMethod (Match.initializer hc₂ hi) hself₂ :
          Lockstep link w₂ .anyone _ _ _).succeeded hb
      have hlen₃ : vs.length = b.arity := by
        have harity : c.arity = init.arity := by
          rw [Class.arity, hi]
          rfl
        rw [Closure.arity, hdecl]
        exact (Option.some.inj hlen).symm.trans harity
      rw [← hdecl]
      exact hopened hm₃ hcall (hvs.imp fun _ _ h => h.mono (hw₂.trans hw₃)) hlen₃ hopen

namespace Typed

/-- Up to any statement of the body that a call runs. -/
theorem body {f : Expr} {paren : Token} {es : List Expr} {v : Value} {vs : List Value}
    {inner : Nat} {before after : List Stmt} {s : Stmt} {m₂ m₃ m₄ m₅ : Machine}
    (ht : Typed link D (.evaluate (n + 1) scope (.call f paren es)) m)
    (hf : evaluate n scope f m = .ok v m₁)
    (hvs : arguments (evaluate n scope) es m₁ = .ok vs m₂)
    (ha : checkArity v vs paren m₂ = .ok () m₃)
    (ho : Opens v vs m₃ inner (before ++ s :: after) m₄)
    (hs : sequence (execute n inner) before m₄ = .ok .normal m₅) :
    Typed link D (.execute n inner s) m₅ := by
  cases ht with
  | expr hm hmod _ ht =>
    cases ht with
    | call hp hft hes =>
      obtain ⟨w₁, hw₁, hm₁, hv₁⟩ := hm.evaluated hmod hft hf
      obtain ⟨w₂, hw₂, hm₂, hvs₂⟩ := hm₁.evaluatedAll (hmod.mono hw₁) hes hvs
      obtain ⟨w₃, hw₃, hm₃, hlen⟩ :=
        (hm₂.checkArity (hv₁.mono hw₂) hvs₂ hp : Lockstep link w₂ .anyone _ _ _).succeeded ha
      have hv₃ := hv₁.mono (hw₂.trans hw₃)
      obtain ⟨w₄, rs, fs, hm₄, hset, hmod₄, hbody⟩ :=
        hm₃.openedBody hv₃ (hvs₂.imp fun _ _ h => h.mono hw₃) hlen ho
      exact hm₄.executedBefore hmod₄ hset hbody hs

/-- What a typed expression spawns is typed. -/
theorem evaluates {e : Expr} {t : Task} (ht : Typed link D (.evaluate n scope e) m)
    (hs : Spawns (.evaluate n scope e) m t m₁) : Typed link D t m₁ := by
  cases ht with
  | @expr w _ rs fs n scope e hm hmod hsur ht =>
    cases hs with
    | grouping =>
      cases ht with
      | grouping he => exact .operand hm (.refl w) hmod hsur he (.head _)
    | operand =>
      cases ht with
      | unary _ he => exact .operand hm (.refl w) hmod hsur he (.head _)
    | left =>
      cases ht with
      | binary _ hl _ => exact .operand hm (.refl w) hmod hsur hl (.head _)
    | right ha =>
      cases ht with
      | binary _ hl hr =>
        obtain ⟨w₁, hw₁, hm₁, -⟩ := hm.evaluated hmod hl ha
        exact .operand hm₁ hw₁ hmod hsur hr (.tail _ (.head _))
    | decider =>
      cases ht with
      | logical _ hl _ => exact .operand hm (.refl w) hmod hsur hl (.head _)
    | undecided ha _ =>
      cases ht with
      | logical _ hl hr =>
        obtain ⟨w₁, hw₁, hm₁, -⟩ := hm.evaluated hmod hl ha
        exact .operand hm₁ hw₁ hmod hsur hr (.tail _ (.head _))
    | assigned =>
      cases ht with
      | assign _ he => exact .operand hm (.refl w) hmod hsur he (.head _)
    | callee =>
      cases ht with
      | call _ hf _ => exact .operand hm (.refl w) hmod hsur hf (.head _)
    | argument hf hvs =>
      cases ht with
      | call _ hft hes =>
        obtain ⟨w₁, hw₁, hm₁, -⟩ := hm.evaluated hmod hft hf
        obtain ⟨w₂, hw₂, hm₂, he⟩ := hm₁.evaluatedBefore (hmod.mono hw₁) hes hvs
        exact .operand hm₂ (hw₁.trans hw₂) hmod hsur he (by simp [Expr.operands])
    | body hf hvs ha ho hs => exact Typed.body (.expr hm hmod hsur ht) hf hvs ha ho hs
    | object =>
      cases ht with
      | get _ he => exact .operand hm (.refl w) hmod hsur he (.head _)
    | target =>
      cases ht with
      | set _ he _ => exact .operand hm (.refl w) hmod hsur he (.head _)
    | field ho =>
      cases ht with
      | set _ he hv =>
        obtain ⟨w₁, hw₁, hm₁, -⟩ := hm.evaluated hmod he ho
        exact .operand hm₁ hw₁ hmod hsur hv (.tail _ (.head _))

theorem executes {s : Stmt} {t : Task} (ht : Typed link D (.execute n scope s) m)
    (hs : Spawns (.execute n scope s) m t m₁)
    (hd : ∀ x init, s = .var x (some init) → D scope x init) : Typed link D t m₁ := by
  cases ht with
  | @stmt w _ rs fs n scope s hm hmod hset ht =>
    cases hs with
    | expression =>
      cases ht with
      | expression he => exact .expr hm hmod (.settled hset) he
    | printed =>
      cases ht with
      | print he => exact .expr hm hmod (.settled hset) he
    | initial =>
      cases ht with
      | varWith _ he =>
        exact .expr hm (hmod.declare _) (.initial hset (hd _ _ rfl) .self) he
    | inner hn hs =>
      cases ht with
      | block hr hss =>
        obtain ⟨w₁, -, hm₁, -, hmod₁⟩ :=
          (hm.newScope hmod hr : Lockstep link w .anyone _ _ _).succeeded hn
        exact hm₁.executedBefore hmod₁ hset.push hss hs
    | condition =>
      cases ht with
      | ifThen he | ifElse he => exact .expr hm hmod (.settled hset) he
    | yes hv _ =>
      cases ht with
      | ifThen he hy _ | ifElse he hy _ _ _ =>
        obtain ⟨w₁, hw₁, hm₁, -⟩ := hm.evaluated hmod he hv
        exact .stmt hm₁ (hmod.mono hw₁) hset hy
    | no hv _ =>
      cases ht with
      | ifElse he _ _ hno _ =>
        obtain ⟨w₁, hw₁, hm₁, -⟩ := hm.evaluated hmod he hv
        exact .stmt hm₁ (hmod.mono hw₁) hset hno
    | «while» =>
      cases ht with
      | «while» he hb hp => exact .loop hm hmod hset he hb hp
    | returned =>
      cases ht with
      | returnWith _ he => exact .expr hm hmod (.settled hset) he
    | superclass =>
      cases ht with
      | subclass _ _ hr hd => exact .expr hm hmod (.settled hset) (.var hr hd)

theorem loops {e : Expr} {s : Stmt} {t : Task} (ht : Typed link D (.loop n scope e s) m)
    (hs : Spawns (.loop n scope e s) m t m₁) : Typed link D t m₁ := by
  cases ht with
  | @loop w _ rs fs n scope e s hm hmod hset he hb hp =>
    cases hs with
    | loopCondition => exact .expr hm hmod (.settled hset) he
    | loopBody hv _ =>
      obtain ⟨w₁, hw₁, hm₁, -⟩ := hm.evaluated hmod he hv
      exact .stmt hm₁ (hmod.mono hw₁) hset hb
    | again hv _ hf =>
      obtain ⟨w₁, hw₁, hm₁, -⟩ := hm.evaluated hmod he hv
      have hmod₁ := hmod.mono hw₁
      obtain ⟨w₂, hw₂, hm₂, -⟩ := ((simulates link _).stmt hm₁ hmod₁ hset hb).succeeded hf
      exact .loop hm₂ (hmod₁.mono hw₂) hset he hb hp

/-- What a typed task spawns is typed. -/
theorem spawned {t t₁ : Task} (ht : Typed link D t m) (hs : Spawns t m t₁ m₁)
    (hd : ∀ n scope x init, t = .execute n scope (.var x (some init)) → D scope x init) :
    Typed link D t₁ m₁ := by
  cases t with
  | evaluate => exact ht.evaluates hs
  | execute n scope s => exact ht.executes hs fun x init he => hd n scope x init (by rw [he])
  | loop => exact ht.loops hs

/-- What is visited from a typed task on is typed. -/
theorem visited {t t₁ : Task} (hv : Visits t m t₁ m₁) (ht : Typed link D t m)
    (hd : ∀ n scope x init m₂, Visits t m (.execute n scope (.var x (some init))) m₂ →
      D scope x init) : Typed link D t₁ m₁ := by
  induction hv with
  | self => exact ht
  | step h hs ih =>
    apply ih (ht.spawned h _)
    · exact fun n scope x init m₂ hv => hd n scope x init m₂ (.step h hv)
    · rintro n scope x init rfl
      exact hd n scope x init _ .self

/-- A reference is looked up with the depth that is known of it. As many links up there is
the scope that declares the name, and it binds the name unless the name is assigned to in
the initializer of its declaration. -/
theorem lookup {e : Expr} {r : Reference} (ht : Typed link D (.evaluate n scope e) m)
    (hr : looksUp e = some r) :
    link.known r (m.depths.get? r.id) ∧ ∀ d, m.depths.get? r.id = some d →
      ∃ a, m.scopes.ancestor? d scope = some a ∧ ((m.scopes.own? a r.name.lexeme).isSome ∨
        (a = scope ∧ scope ≠ Machine.global ∧ (∃ v, e = .assign r v) ∧
          ∃ x init, D scope x init ∧ x.lexeme = r.name.lexeme ∧ e.Inside init)) := by
  cases ht with
  | @expr _ _ rs fs _ _ _ hm hmod hsur ht =>
    have hfound (hr : RefTwin link rs fs r r) {d : Nat} (hd : m.depths.get? r.id = some d)
        (hdef : Defined fs r.name.lexeme) :
        ∃ a, m.scopes.ancestor? d scope = some a ∧ (m.scopes.own? a r.name.lexeme).isSome := by
      rw [hm.known _ _ hr.known] at hd
      obtain ⟨f, hf, hl⟩ := hdef d hd
      obtain ⟨a, ha, -, -, ho⟩ := hm.find hmod hf
      exact ⟨a, ha, ho _ hl⟩
    have hknown (hr : RefTwin link rs fs r r) : link.known r (m.depths.get? r.id) := by
      rw [hm.known _ _ hr.known]
      exact hr.known
    cases ht with
    | var hrt hdef | this hrt hdef =>
      cases hr
      refine ⟨hknown hrt, fun d hd => ?_⟩
      obtain ⟨a, ha, ho⟩ := hfound hrt hd hdef
      exact ⟨a, ha, .inl ho⟩
    | @assign _ _ _ _ v _ hrt =>
      cases hr
      refine ⟨hknown hrt, fun d hd => ?_⟩
      cases hsur with
      | settled hs =>
        obtain ⟨a, ha, ho⟩ := hfound hrt hd hs.defined
        exact ⟨a, ha, .inl ho⟩
      | @initial _ x init hs hD he =>
        by_cases hx : r.name.lexeme = x.lexeme
        · have hdepth := (hm.known _ _ hrt.known).symm.trans hd
          rw [hx] at hdepth
          obtain rfl := depth?_declared hdepth
          exact ⟨scope, rfl, .inr ⟨rfl, hmod.ne_global hdepth, ⟨v, rfl⟩, x, init, hD, hx.symm, he⟩⟩
        · obtain ⟨a, ha, ho⟩ := hfound hrt hd (hs.declared hx)
          exact ⟨a, ha, .inl ho⟩
    | _ => cases hr

end Typed

/-- Up to any statement of a program. -/
theorem Match.programBefore {before after : List Stmt} {s : Stmt} (hm : Match link w m m)
    (ht : Twin link [] [] (.stmts (before ++ s :: after)) (.stmts (before ++ s :: after)))
    (hb : Evaluation.program n before m = .ok () m₁) :
    Typed link D (.execute n Machine.global s) m₁ := by
  induction before generalizing w m with
  | nil =>
    cases hb
    cases ht with
    | moreStmts h _ => exact .stmt hm (models_global w) .nil h
  | cons s₀ before ih =>
    obtain ⟨f, m₂, hs₀, hb⟩ := Run.ok_of_bind hb
    cases ht with
    | moreStmts h hss =>
      rw [after_nil] at hss
      obtain ⟨w₂, -, hm₂, -⟩ := ((simulates link n).stmt hm (models_global w) .nil h).succeeded hs₀
      exact ih hm₂ hss hb

end Simulation

end Lox
