import Lox.Proofs.Simulation.Effect
import Lox.Proofs.Simulation.Visit

/-!
# Sequences, calls and classes in step

What the evaluator does around single expressions and statements stays in step if these
do. A fault is blamed on a reference without a known depth that was visited on the way.
-/

set_option autoImplicit false

namespace Lox.Simulation

open Scoping Evaluation

/-- A reference that is looked up in the course of a task while it has no known depth and
its name is not global. -/
def Culprit (t : Task) (m : Machine) (line : Nat) (name : String) : Prop :=
  ∃ n scope e r m', Visits t m (.evaluate n scope e) m' ∧ looksUp e = some r ∧
    r.name.line = line ∧ r.name.lexeme = name ∧ m'.depths.get? r.id = none ∧
    m'.scopes.own? Machine.global name = none

theorem Culprit.spawned {t t' : Task} {m m' : Machine} {line : Nat} {name : String}
    (h : Spawns t m t' m') (hc : Culprit t' m' line name) : Culprit t m line name := by
  obtain ⟨n, scope, e, r, m'', hv, hr⟩ := hc
  exact ⟨n, scope, e, r, m'', .step h hv, hr⟩

inductive FlowTwin (link : Link) (w : World) : Flow → Flow → Prop
  | normal : FlowTwin link w .normal .normal
  | returned {v v' : Value} (hv : ValueTwin link w v v') :
      FlowTwin link w (.returned v) (.returned v')

/-- Within this bound twins are evaluated and executed in step. -/
structure Simulates (link : Link) (n : Nat) : Prop where
  expr {w : World} {m m' : Machine} {rs : List Renaming} {fs : Frames} {scope : Nat} {e e' : Expr}
    (hm : Match link w m m') (hmod : Models w rs fs scope)
    (ht : Twin link rs fs (.expr e) (.expr e')) :
    Lockstep link w (Culprit (.evaluate n scope e) m) (ValueTwin link)
      (evaluate n scope e m) (evaluate n scope e' m')
  stmt {w : World} {m m' : Machine} {rs : List Renaming} {fs : Frames} {scope : Nat} {s s' : Stmt}
    (hm : Match link w m m') (hmod : Models w rs fs scope) (hs : Settled fs)
    (ht : Twin link rs fs (.stmt s) (.stmt s')) :
    Lockstep link w (Culprit (.execute n scope s) m)
      (fun w' f f' => FlowTwin link w' f f' ∧ (f = .normal → Models w' rs (after fs s) scope))
      (execute n scope s m) (execute n scope s' m')
  loop {w : World} {m m' : Machine} {rs : List Renaming} {fs : Frames} {scope : Nat} {e e' : Expr}
    {s s' : Stmt} (hm : Match link w m m') (hmod : Models w rs fs scope) (hs : Settled fs)
    (he : Twin link rs fs (.expr e) (.expr e')) (ht : Twin link rs fs (.stmt s) (.stmt s'))
    (hp : s.plain = true) :
    Lockstep link w (Culprit (.loop n scope e s) m) (FlowTwin link)
      (Evaluation.loop n scope e s m) (Evaluation.loop n scope e' s' m')

variable {link : Link} {n : Nat} (hn : Simulates link n) {w : World} {m m' : Machine}
  {blame : Blame}

section

include hn

theorem Simulates.arguments {rs : List Renaming} {fs : Frames} {scope : Nat} {es es' : List Expr}
    (hm : Match link w m m') (hmod : Models w rs fs scope)
    (ht : Twin link rs fs (.exprs es) (.exprs es'))
    (hb : ∀ before e after vs m₁, es = before ++ e :: after →
      Evaluation.arguments (evaluate n scope) before m = .ok vs m₁ →
      ∀ line name, Culprit (.evaluate n scope e) m₁ line name → blame line name) :
    Lockstep link w blame (fun w' => List.Forall₂ (ValueTwin link w'))
      (Evaluation.arguments (evaluate n scope) es m)
      (Evaluation.arguments (evaluate n scope) es' m') := by
  induction es generalizing es' w m m' with
  | nil =>
    cases ht with
    | noExprs => exact hm.pure .nil
  | cons e es ih =>
    cases ht with
    | moreExprs he hes =>
      have hfirst := hb [] e es [] m rfl rfl
      apply Lockstep.bind ((hn.expr hm hmod he).imp hfirst fun _ _ _ _ h => h)
      intro w1 v v' m1 m1' hv hw1 hm1 hvv
      have hrest : ∀ before e₁ after vs m₂, es = before ++ e₁ :: after →
          Evaluation.arguments (evaluate n scope) before m1 = .ok vs m₂ →
          ∀ line name, Culprit (.evaluate n scope e₁) m₂ line name → blame line name := by
        intro before e₁ after vs m₂ hes hvs
        apply hb (e :: before) e₁ after (v :: vs) m₂ (by rw [hes]; rfl)
        exact (Run.bind_ok hv).trans (Run.bind_ok hvs)
      apply Lockstep.bind (ih hm1 (hmod.mono hw1) hes hrest)
      intro w2 vs vs' m2 m2' _ hw2 hm2 hvs
      exact hm2.pure (.cons (hvv.mono hw2) hvs)

theorem Simulates.sequence {rs : List Renaming} {fs : Frames} {scope : Nat} {ss ss' : List Stmt}
    (hm : Match link w m m') (hmod : Models w rs fs scope) (hs : Settled fs)
    (ht : Twin link rs fs (.stmts ss) (.stmts ss'))
    (hb : ∀ before s after m₁, ss = before ++ s :: after →
      Evaluation.sequence (execute n scope) before m = .ok .normal m₁ →
      ∀ line name, Culprit (.execute n scope s) m₁ line name → blame line name) :
    Lockstep link w blame (FlowTwin link)
      (Evaluation.sequence (execute n scope) ss m)
      (Evaluation.sequence (execute n scope) ss' m') := by
  induction ss generalizing ss' fs w m m' with
  | nil =>
    cases ht with
    | noStmts => exact hm.pure .normal
  | cons s ss ih =>
    cases ht with
    | moreStmts h hss =>
      have hfirst := hb [] s ss m rfl rfl
      apply Lockstep.bind ((hn.stmt hm hmod hs h).imp hfirst fun _ _ _ _ h => h)
      intro w1 f f' m1 m1' hf hw1 hm1 hff
      obtain ⟨hff, hafter⟩ := hff
      cases hff with
      | normal =>
        apply ih hm1 (hafter rfl) (hs.after s) hss
        intro before s₁ after m₂ hss hvs
        apply hb (s :: before) s₁ after m₂ (by rw [hss]; rfl)
        exact (Run.bind_ok hf).trans hvs
      | returned hv => exact hm1.pure (.returned hv)

end

theorem Match.defineAll {r : Renaming} {rs : List Renaming} {fs : Frames} {scope : Nat}
    {ps ps' : List Token} {vs vs' : List Value} (hm : Match link w m m')
    (hmod : Models w (r :: rs) fs scope) (hp : ParamsTwin link r ps ps')
    (hvs : List.Forall₂ (ValueTwin link w) vs vs') (hlen : vs.length = ps.length) :
    Lockstep link w blame (fun w' _ _ => Models w' (r :: rs) (parameters fs ps).1 scope)
      (Evaluation.defineAll scope ps vs m) (Evaluation.defineAll scope ps' vs' m') := by
  induction ps generalizing ps' vs vs' fs w m m' with
  | nil =>
    cases ps' with
    | nil =>
      cases hvs with
      | nil => exact hm.pure hmod
      | cons => cases hlen
    | cons => cases hp
  | cons p ps ih =>
    cases ps' with
    | nil => cases hp
    | cons p' ps' =>
      cases hvs with
      | nil => cases hlen
      | @cons v v' vs vs' hv hvs =>
        obtain ⟨hp, hps⟩ := List.forall₂_cons.1 hp
        apply Lockstep.bind (hm.define hmod hp.lexeme hv)
        intro w1 _ _ m1 m1' _ hw1 hm1 hown
        apply ih hm1 (((hmod.mono hw1).declare p.lexeme).define hown) hps
        · exact hvs.imp fun _ _ h => h.mono hw1
        · exact Nat.succ.inj hlen

theorem Match.opened {c c' : Closure} {vs vs' : List Value} (hm : Match link w m m')
    (hc : CallableTwin link w c c') (hvs : List.Forall₂ (ValueTwin link w) vs vs')
    (hlen : vs.length = c.arity) :
    Lockstep link w blame
      (fun w' i i' => i' = i ∧ ∃ rs fs, Settled fs ∧ Models w' rs fs i ∧
        Twin link rs fs (.stmts c.declaration.body) (.stmts c'.declaration.body))
      (Evaluation.opened c vs m) (Evaluation.opened c' vs' m') := by
  obtain ⟨rs, fs, hs, hmod, ht⟩ := hc.declared
  obtain ⟨⟨x, ps, ss⟩, i, b⟩ := c
  obtain ⟨⟨x', ps', ss'⟩, i', b'⟩ := c'
  obtain rfl : i' = i := hc.scope
  cases ht with
  | function hr hx hp hss =>
    apply Lockstep.bind (hm.newScope hmod hr)
    intro w1 j j' m1 m1' _ hw1 hm1 h1
    obtain ⟨rfl, hmod1⟩ := h1
    have hvs1 := hvs.imp fun _ _ h => h.mono hw1
    apply Lockstep.bind (hm1.defineAll hmod1 hp hvs1 hlen)
    intro w2 _ _ m2 m2' _ hw2 hm2 hmod2
    exact hm2.pure ⟨rfl, _, _, hs.push.parameters ps, hmod2, hss⟩

section

include hn

/-- A call that runs its body in step. An initializer then yields the instance that it
was bound to. -/
theorem Simulates.enter {c c' : Closure} {vs vs' : List Value} (hm : Match link w m m')
    (hc : CallableTwin link w c c') (hvs : List.Forall₂ (ValueTwin link w) vs vs')
    (hlen : vs.length = c.arity)
    (hb : ∀ inner before s after m₁ m₂, c.declaration.body = before ++ s :: after →
      Evaluation.opened c vs m = .ok inner m₁ →
      Evaluation.sequence (execute n inner) before m₁ = .ok .normal m₂ →
      ∀ line name, Culprit (.execute n inner s) m₂ line name → blame line name) :
    Lockstep link w blame (ValueTwin link) (Evaluation.enter (execute n) c vs m)
      (Evaluation.enter (execute n) c' vs' m') := by
  rw [enter_eq, enter_eq]
  apply Lockstep.bind (hm.opened hc hvs hlen)
  intro w1 i i' m1 m1' ho hw1 hm1 h1
  obtain ⟨rfl, rs, fs, hs, hmod, ht⟩ := h1
  apply Lockstep.bind (hn.sequence hm1 hmod hs ht fun before s after m₂ hss hbefore =>
    hb i' before s after m1 m₂ hss ho hbefore)
  intro w2 f f' m2 m2' _ hw2 hm2 hf
  rw [hc.isInitializer]
  by_cases hi : c.isInitializer = true
  · rw [if_pos hi, if_pos hi, hc.scope]
    have hthis : (m2.scopes.own? c.scope "this").isSome := by
      rw [← hm2.scopes]
      exact hw2.own _ _ (hw1.own _ _ (hc.this hi))
    exact hm2.getAt rfl (w2.names c.scope).apply_this.symm hthis
  · rw [if_neg hi, if_neg hi]
    cases hf with
    | normal => exact hm2.pure (.plain rfl)
    | returned hv => exact hm2.pure hv

theorem Simulates.construct {c c' : Class} {vs vs' : List Value} (hm : Match link w m m')
    (hc : ClassTwin link w c c') (hvs : List.Forall₂ (ValueTwin link w) vs vs')
    (hlen : vs.length = c.arity)
    (hb : ∀ init inner before s after m₁ m₂, c.initializer? = some init →
      init.declaration.body = before ++ s :: after →
      openedInitializer c init vs m = .ok inner m₁ →
      Evaluation.sequence (execute n inner) before m₁ = .ok .normal m₂ →
      ∀ line name, Culprit (.execute n inner s) m₂ line name → blame line name) :
    Lockstep link w blame (ValueTwin link) (Evaluation.construct (execute n) c vs m)
      (Evaluation.construct (execute n) c' vs' m') := by
  have hinit := hc.findMethod? Function.initializerName
  unfold Evaluation.construct
  apply Lockstep.bind (hm.newInstance hc)
  intro w1 self self' m1 m1' hself hw1 hm1 h1
  obtain ⟨id, rfl, rfl, hc1⟩ := h1
  unfold Class.arity Class.initializer? at hlen
  unfold Class.initializer? at hb ⊢
  generalize c.findMethod? Function.initializerName = o,
    c'.findMethod? Function.initializerName = o' at hinit hlen hb
  cases hinit with
  | none => exact hm1.pure (.instance hc1)
  | @some init init' hinit =>
    have hcall : Lockstep link w1 blame (ValueTwin link)
        ((Run.bindMethod init (.instance id c) >>= fun b => Evaluation.enter (execute n) b vs) m1)
        ((Run.bindMethod init' (.instance id c') >>= fun b =>
          Evaluation.enter (execute n) b vs') m1') := by
      apply Lockstep.bind (hm1.bindMethod (hinit.mono hw1) (.instance hc1))
      intro w2 b b' m2 m2' hb2 hw2 hm2 h2
      obtain ⟨hcall, hdecl⟩ := h2
      have hlen2 : vs.length = b.arity := by
        rw [Closure.arity, hdecl]
        exact hlen
      have hvs2 := hvs.imp fun _ _ h => h.mono (hw1.trans hw2)
      apply hn.enter hm2 hcall hvs2 hlen2
      intro inner before s after m₁ m₂ hbody ho hbefore
      apply hb init inner before s after m₁ m₂ rfl (hdecl ▸ hbody) _ hbefore
      exact (Run.bind_ok hself).trans ((Run.bind_ok hb2).trans ho)
    simp only [← bind_assoc]
    apply Lockstep.bind hcall
    intro w2 _ _ m2 m2' _ hw2 hm2 _
    exact hm2.pure (.instance (hc1.mono hw2))

theorem Simulates.invoke {v v' : Value} {vs vs' : List Value} {paren paren' : Token}
    (hm : Match link w m m') (hp : TokenTwin link paren paren') (hv : ValueTwin link w v v')
    (hvs : List.Forall₂ (ValueTwin link w) vs vs') (hlen : v.arity? = some vs.length)
    (hb : ∀ inner before s after m₁ m₂, Opens v vs m inner (before ++ s :: after) m₁ →
      Evaluation.sequence (execute n inner) before m₁ = .ok .normal m₂ →
      ∀ line name, Culprit (.execute n inner s) m₂ line name → blame line name) :
    Lockstep link w blame (ValueTwin link) (Evaluation.invoke (execute n) v vs paren m)
      (Evaluation.invoke (execute n) v' vs' paren' m') := by
  cases hv with
  | plain hv =>
    cases v with
    | host id f => exact hm.callHost f hvs hp
    | _ => first | exact hm.refuse hp.line _ nofun | cases hv
  | @function id c c' hc =>
    apply hn.enter hm hc hvs (Option.some.inj hlen).symm
    intro inner before s after m₁ m₂ hbody ho
    exact hb inner before s after m₁ m₂ (hbody ▸ .function ho)
  | «class» hc =>
    apply hn.construct hm hc hvs (Option.some.inj hlen).symm
    intro init inner before s after m₁ m₂ hi hbody ho
    exact hb inner before s after m₁ m₂ (hbody ▸ .class hi ho)
  | «instance» => exact hm.refuse hp.line _ nofun

end

end Lox.Simulation
