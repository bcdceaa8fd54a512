import Lox.Proofs.Layout.Effect

/-!
# Evaluation does not depend on the layout

A program runs in step with itself in any layout, within any bound. The induction is on the
bound. Where only one side opens a scope, the places on the two sides stay the same but for an
empty scope; what may be declared there is nothing, for such a block and a loop hold only
statements that declare nothing.
-/

set_option autoImplicit false

namespace Lox.Layout

open Scoping

inductive FlowTwin (l : Layout) (w : World) : Flow → Flow → Prop
  | normal : FlowTwin l w .normal .normal
  | returned {v v' : Value} (hv : ValueTwin l w v v') : FlowTwin l w (.returned v) (.returned v')

/-- Within this bound both sides evaluate and execute in step. -/
structure Simulates (l : Layout) (next n : Nat) : Prop where
  expr {w : World} {m m' : Machine} {ctx : Context} {fs fs' : Frames} {i i' : Nat} {e : Expr}
    (hm : Match l next w m m') (hs : Site w ctx fs fs' i i') (hf : e.Formed Free)
    (ha : Fit w (Scoping.expr ctx fs e) (Scoping.expr ctx fs' e)) :
    Lockstep l next w (ValueTwin l) (Evaluation.evaluate n i e m) (l.evaluate n i' e m')
  stmt {w : World} {m m' : Machine} {ctx : Context} {fs fs' : Frames} {i i' : Nat} {s : Stmt}
    (hm : Match l next w m m') (hs : Site w ctx fs fs' i i')
    (hl : s.plain = false → Level w fs fs' i i') (hf : s.Formed Free)
    (ha : Fit w (Scoping.stmt ctx fs s).2 (l.stmt ctx fs' s)) :
    Lockstep l next w (FlowTwin l) (Evaluation.execute n i s m) (l.execute n i' s m')
  loop {w : World} {m m' : Machine} {ctx : Context} {fs fs' : Frames} {i i' : Nat} {e : Expr}
    {s : Stmt} (hm : Match l next w m m') (hs : Site w ctx fs fs' i i') (he : e.Formed Free)
    (hf : s.Formed Free) (hp : s.plain = true)
    (ha : Fit w (Scoping.expr ctx fs e) (Scoping.expr ctx fs' e))
    (hb : Fit w (Scoping.stmt ctx fs s).2 (l.stmt ctx fs' s)) :
    Lockstep l next w (FlowTwin l) (Evaluation.loop n i e s m) (l.loop n i' e s m')

namespace Simulates

variable {l : Layout} {next n : Nat} (hn : Simulates l next n) {w : World} {m m' : Machine}
  {ctx : Context} {fs fs' : Frames} {i i' : Nat} (hm : Match l next w m m')

include hn hm

theorem arguments {es : List Expr} (hs : Site w ctx fs fs' i i') (hf : Expr.AllFormed Free es)
    (ha : Fit w (Scoping.exprs ctx fs es) (Scoping.exprs ctx fs' es)) :
    Lockstep l next w (fun w' => List.Forall₂ (ValueTwin l w'))
      (Evaluation.arguments (Evaluation.evaluate n i) es m)
      (Evaluation.arguments (l.evaluate n i') es m') := by
  induction es generalizing w m m' with
  | nil => exact hm.pure .nil
  | cons e es ih =>
    obtain ⟨he, hes⟩ := Fit.append ha
    apply Lockstep.bind (hn.expr hm hs hf.1 he)
    intro w1 v v' m1 m1' hw1 hm1 hv
    apply Lockstep.bind (ih hm1 (hs.mono hw1) hf.2 (hes.mono hw1))
    intro w2 vs vs' m2 m2' hw2 hm2 hvs
    exact hm2.pure (.cons (hv.mono hw2) hvs)

theorem sequence {ss : List Stmt} (hs : Site w ctx fs fs' i i')
    (hl : Level w fs fs' i i' ∨ ∀ s ∈ ss, s.plain = true) (hf : Stmt.AllFormed Free ss)
    (ha : Fit w (Scoping.stmts ctx fs ss).2 (l.stmts ctx fs' ss)) :
    Lockstep l next w (FlowTwin l) (Evaluation.sequence (Evaluation.execute n i) ss m)
      (Evaluation.sequence (l.execute n i') ss m') := by
  induction ss generalizing fs fs' w m m' with
  | nil => exact hm.pure .normal
  | cons s ss ih =>
    obtain ⟨hfirst, hrest⟩ := Fit.append ha
    rw [stmt_frames ctx fs s hf.1] at hrest
    have hlevel : s.plain = false → Level w fs fs' i i' := by
      intro hp
      apply hl.resolve_right
      intro hall
      rw [hall s List.mem_cons_self] at hp
      cases hp
    apply Lockstep.bind (hn.stmt hm hs hlevel hf.1 hfirst)
    intro w1 f f' m1 m1' hw1 hm1 hff
    cases hff with
    | normal =>
      apply ih hm1 ((hs.after hlevel hf.1).mono hw1) _ hf.2 (hrest.mono hw1)
      exact hl.imp (fun h => (h.after s).mono hw1) fun h => (List.forall_mem_cons.1 h).2
    | returned hv => exact hm1.pure (.returned hv)

/-- A call that runs its body in step. An initializer then yields the instance that it was
bound to. -/
theorem enter {c c' : Closure} {vs vs' : List Value} (hc : ClosureTwin l w [] c c')
    (hvs : List.Forall₂ (ValueTwin l w) vs vs') :
    Lockstep l next w (ValueTwin l) (Evaluation.enter (Evaluation.execute n) c vs m)
      (Evaluation.enter (l.execute n) c' vs' m') := by
  obtain ⟨⟨x, ps, ss⟩, i, init⟩ := c
  obtain ⟨f', i', init'⟩ := c'
  obtain rfl : f' = ⟨x, ps, ss⟩ := hc.declaration
  obtain rfl : init' = init := hc.isInitializer
  obtain ⟨-, hps, hss⟩ := hc.formed
  obtain ⟨ctx, body, fs, fs', hl, ha, ha', hf⟩ := hc.declared
  obtain ⟨-, hbody⟩ := Fit.append hf
  apply Lockstep.bind (hm.newScope hl.around)
  intro w1 j j' m1 m1' hw1 hm1 hj
  have hlevel := (hj []).parameters ps
  apply Lockstep.bind (hm1.defineAll (hm1.pair hlevel) ps (hvs.imp fun _ _ h => h.mono hw1))
  intro w2 _ _ m2 m2' hw2 hm2 _
  have hsite : Site w2 { ctx with body } (parameters ([] :: fs) ps).1 (parameters ([] :: fs') ps).1
      j j' :=
    ⟨hlevel.around.mono hw2, ha.push.parameters hps, ha'.push.parameters hps⟩
  apply Lockstep.bind
    (hn.sequence hm2 hsite (.inl (hlevel.mono hw2)) hss (hbody.mono (hw1.trans hw2)))
  intro w3 f f' m3 m3' hw3 hm3 hff
  cases init' with
  | true =>
    have hpair := ((hw1.trans hw2).trans hw3).pair _ _ (hm.pair hl)
    exact hm3.getAt rfl rfl hpair _
  | false =>
    cases hff with
    | normal => exact hm3.pure (.plain rfl)
    | returned hv => exact hm3.pure hv

theorem construct {c c' : Class} {vs vs' : List Value} (hc : Class.Related (MethodTwin l w) c c')
    (hvs : List.Forall₂ (ValueTwin l w) vs vs') :
    Lockstep l next w (ValueTwin l) (Evaluation.construct (Evaluation.execute n) c vs m)
      (Evaluation.construct (l.execute n) c' vs' m') := by
  have hinit := hc.findMethod? Function.initializerName
  unfold Evaluation.construct
  apply Lockstep.bind (hm.newInstance hc)
  intro w1 self self' m1 m1' hw1 hm1 h1
  obtain ⟨id, rfl, rfl, hc1⟩ := h1
  unfold Class.initializer?
  generalize c.findMethod? Function.initializerName = o,
    c'.findMethod? Function.initializerName = o' at hinit
  cases hinit with
  | none => exact hm1.pure (.instance hc1)
  | @some init init' hinit =>
    dsimp only
    apply Lockstep.bind (hm1.bindMethod (hinit.mono hw1) (.instance hc1))
    intro w2 b b' m2 m2' hw2 hm2 hb
    apply Lockstep.bind (hn.enter hm2 hb.1 (hvs.imp fun _ _ h => h.mono (hw1.trans hw2)))
    intro w3 _ _ m3 m3' hw3 hm3 _
    exact hm3.pure (.instance (related_mono (hw2.trans hw3) hc1))

theorem invoke {v v' : Value} {vs vs' : List Value} (paren : Token) (hv : ValueTwin l w v v')
    (hvs : List.Forall₂ (ValueTwin l w) vs vs') :
    Lockstep l next w (ValueTwin l) (Evaluation.invoke (Evaluation.execute n) v vs paren m)
      (Evaluation.invoke (l.execute n) v' vs' paren m') := by
  cases hv with
  | plain hv =>
    cases v with
    | host id f => exact hm.callHost f hvs paren
    | _ => first | exact hm.fail paren _ | cases hv
  | function hc => exact hn.enter hm hc hvs
  | «class» hc => exact hn.construct hm hc hvs
  | «instance» => exact hm.fail paren _

section Expressions

variable (hs : Site w ctx fs fs' i i')

include hs

theorem call {f : Expr} {paren : Token} {es : List Expr} (hf : (Expr.call f paren es).Formed Free)
    (ha : Fit w (Scoping.expr ctx fs (.call f paren es)) (Scoping.expr ctx fs' (.call f paren es))) :
    Lockstep l next w (ValueTwin l) (Evaluation.evaluate (n + 1) i (.call f paren es) m)
      (l.evaluate (n + 1) i' (.call f paren es) m') := by
  obtain ⟨hcallee, hargs⟩ := Fit.append ha
  apply Lockstep.bind (hn.expr hm hs hf.1 hcallee)
  intro w1 v v' m1 m1' hw1 hm1 hv
  apply Lockstep.bind (hn.arguments hm1 (hs.mono hw1) hf.2 (hargs.mono hw1))
  intro w2 vs vs' m2 m2' hw2 hm2 hvs
  apply Lockstep.bind (hm2.checkArity (hv.mono hw2) hvs paren)
  intro w3 _ _ m3 m3' hw3 hm3 _
  exact hn.invoke hm3 paren ((hv.mono hw2).mono hw3) (hvs.imp fun _ _ h => h.mono hw3)

theorem set {e v : Expr} {name : Token} (hf : (Expr.set e name v).Formed Free)
    (ha : Fit w (Scoping.expr ctx fs (.set e name v)) (Scoping.expr ctx fs' (.set e name v))) :
    Lockstep l next w (ValueTwin l) (Evaluation.evaluate (n + 1) i (.set e name v) m)
      (l.evaluate (n + 1) i' (.set e name v) m') := by
  obtain ⟨hvalue, hobject⟩ := Fit.append ha
  apply Lockstep.bind (hn.expr hm hs hf.1 hobject)
  intro w1 o o' m1 m1' hw1 hm1 ho
  cases ho with
  | plain hv =>
    cases o with
    | «instance» => cases hv
    | _ => exact hm1.fail name _
  | function => exact hm1.fail name _
  | «class» => exact hm1.fail name _
  | «instance» hc =>
    apply Lockstep.bind (hn.expr hm1 (hs.mono hw1) hf.2 (hvalue.mono hw1))
    intro w2 u u' m2 m2' hw2 hm2 hu
    apply Lockstep.bind (hm2.setField _ name.lexeme hu)
    intro w3 _ _ m3 m3' hw3 hm3 _
    exact hm3.pure (hu.mono hw3)

theorem exprSucc {e : Expr} (hf : e.Formed Free)
    (ha : Fit w (Scoping.expr ctx fs e) (Scoping.expr ctx fs' e)) :
    Lockstep l next w (ValueTwin l) (Evaluation.evaluate (n + 1) i e m)
      (l.evaluate (n + 1) i' e m') := by
  cases e with
  | literal v => exact hm.pure (.plain (by cases v <;> rfl))
  | grouping e => exact hn.expr hm hs hf ha
  | unary op e =>
    apply Lockstep.bind (hn.expr (e := e) hm hs hf ha)
    intro w1 v v' m1 m1' _ hm1 hv
    rw [hv.alike.unary]
    exact hm1.blaming op fun _ => Simulation.unary_plain
  | binary a op b =>
    obtain ⟨ha, hb⟩ := Fit.append ha
    apply Lockstep.bind (hn.expr hm hs hf.1 ha)
    intro w1 v v' m1 m1' hw1 hm1 hv
    apply Lockstep.bind (hn.expr hm1 (hs.mono hw1) hf.2 (hb.mono hw1))
    intro w2 u u' m2 m2' hw2 hm2 hu
    rw [(hv.mono hw2).alike.binary _ hu.alike]
    exact hm2.blaming op fun _ => Simulation.binary_plain
  | logical a op b =>
    obtain ⟨ha, hb⟩ := Fit.append ha
    apply Lockstep.bind (hn.expr hm hs hf.1 ha)
    intro w1 v v' m1 m1' hw1 hm1 hv
    have hdec : Operation.decides op.kind v' = Operation.decides op.kind v :=
      congrArg (· == (op.kind == .word .or)) hv.alike.truthy
    rw [hdec]
    by_cases hd : Operation.decides op.kind v = true
    · rw [if_pos hd, if_pos hd]
      exact hm1.pure hv
    · rw [if_neg hd, if_neg hd]
      exact hn.expr hm1 (hs.mono hw1) hf.2 (hb.mono hw1)
  | var r => exact hm.read hs.around ha.left.read.2 ha.right.read.2
  | assign r e =>
    obtain ⟨ha, hr⟩ := Fit.append ha
    apply Lockstep.bind (hn.expr hm hs hf.2 ha)
    intro w1 v v' m1 m1' hw1 hm1 hv
    have hr1 := hr.mono hw1
    apply Lockstep.bind (hm1.write (hs.mono hw1).around hr1.left.lookup hr1.right.lookup hv)
    intro w2 _ _ m2 m2' hw2 hm2 _
    exact hm2.pure (hv.mono hw2)
  | call f paren es => exact hn.call hm hs hf ha
  | get e name =>
    apply Lockstep.bind (hn.expr (e := e) hm hs hf ha)
    intro w1 v v' m1 m1' _ hm1 hv
    cases hv with
    | plain hv =>
      cases v with
      | «instance» => cases hv
      | _ => exact hm1.fail name _
    | function => exact hm1.fail name _
    | «class» => exact hm1.fail name _
    | «instance» hc => exact hm1.property _ hc name
  | set e name v => exact hn.set hm hs hf ha
  | this r =>
    have hk : w.known r (depth? fs r.name.lexeme) ∧ w.known' r (depth? fs' r.name.lexeme) := by
      unfold Scoping.expr thisFindings at ha
      cases hc : ctx.family with
      | none =>
        rw [hc] at ha
        exact absurd ha.left not_accepts_fault
      | «class» | subclass =>
        rw [hc] at ha
        exact ⟨ha.left.lookup, ha.right.lookup⟩
    exact hm.read hs.around hk.1 hk.2
  | super r method =>
    obtain ⟨hfault, hr⟩ := Fit.append ha
    have hc : ctx.family = .subclass := by
      cases hc : ctx.family with
      | none | «class» =>
        rw [hc] at hfault
        exact absurd hfault.left not_accepts_fault
      | subclass => rfl
    exact hm.superMethod hs hc hf hr.left.lookup hr.right.lookup method

end Expressions

section Statements

variable (hs : Site w ctx fs fs' i i')

include hs

theorem block {ss : List Stmt} (hf : Stmt.AllFormed Free ss)
    (ha : Fit w (Scoping.stmt ctx fs (.block ss)).2 (l.stmt ctx fs' (.block ss))) :
    Lockstep l next w (FlowTwin l) (Evaluation.execute (n + 1) i (.block ss) m)
      (l.execute (n + 1) i' (.block ss) m') := by
  have ha : Fit w (Scoping.stmts ctx ([] :: fs) ss).2
      (l.stmts ctx (within (l.opensBlock ss) fs') ss) := ha
  simp only [execute]
  cases ho : l.opensBlock ss with
  | true =>
    rw [ho] at ha
    apply Lockstep.bind (hm.newScope hs.around)
    intro w1 j j' m1 m1' hw1 hm1 hj
    have hsite : Site w1 ctx ([] :: fs) ([] :: fs') j j' :=
      ⟨(hj []).around, hs.aware.push, hs.aware'.push⟩
    exact hn.sequence hm1 hsite (.inl (hj [])) hf (ha.mono hw1)
  | false =>
    rw [ho] at ha
    have hp := (hm.scope_lt hs.around).1
    have hw1 := w.extends_link m.scopes.next i
    have hsite : Site (w.link m.scopes.next i) ctx ([] :: fs) fs' m.scopes.next i' :=
      ⟨.left (.inr ⟨rfl, rfl⟩) (hs.around.mono hw1), hs.aware.push, hs.aware'⟩
    exact (hn.sequence (hm.after_link hp) hsite (.inr (l.declares ss ho)) hf (ha.mono hw1)).later hw1

theorem «while» {e : Expr} {s : Stmt} (hf : (Stmt.while e s).Formed Free)
    (ha : Fit w (Scoping.stmt ctx fs (.while e s)).2 (l.stmt ctx fs' (.while e s))) :
    Lockstep l next w (FlowTwin l) (Evaluation.execute (n + 1) i (.while e s) m)
      (l.execute (n + 1) i' (.while e s) m') := by
  obtain ⟨he, hb, hp⟩ := hf
  obtain ⟨hcondition, hbody⟩ := Fit.append ha
  simp only [execute]
  cases ho : l.opensLoop e s with
  | false =>
    rw [ho] at hcondition hbody
    exact hn.loop hm hs he hb hp hcondition hbody
  | true =>
    rw [ho] at hcondition hbody
    have hlt := (hm.scope_lt hs.around).2
    have hw1 := w.extends_link' m'.scopes.next i'
    have hsite : Site (w.link' m'.scopes.next i') ctx fs ([] :: fs') i m'.scopes.next :=
      ⟨.right (.inr ⟨rfl, rfl⟩) (hs.around.mono hw1), hs.aware, hs.aware'.push⟩
    exact (hn.loop (hm.after_link' hlt) hsite he hb hp (hcondition.mono hw1) (hbody.mono hw1)).later
      hw1

theorem stmtSucc {s : Stmt} (hl : s.plain = false → Level w fs fs' i i') (hf : s.Formed Free)
    (ha : Fit w (Scoping.stmt ctx fs s).2 (l.stmt ctx fs' s)) :
    Lockstep l next w (FlowTwin l) (Evaluation.execute (n + 1) i s m)
      (l.execute (n + 1) i' s m') := by
  cases s with
  | expression e =>
    apply Lockstep.bind (hn.expr (e := e) hm hs hf ha)
    intro w1 _ _ m1 m1' _ hm1 _
    exact hm1.pure .normal
  | print e =>
    apply Lockstep.bind (hn.expr (e := e) hm hs hf ha)
    intro w1 v v' m1 m1' _ hm1 hv
    rw [hv.alike.text]
    apply Lockstep.bind (hm1.printLine v.text)
    intro w2 _ _ m2 m2' _ hm2 _
    exact hm2.pure .normal
  | var x e =>
    have hlevel := hl rfl
    have hdefine {w1 : World} {m1 m1' : Machine} {v v' : Value} (hw : w.Extends w1)
        (hm1 : Match l next w1 m1 m1') (hv : ValueTwin l w1 v v') :
        Lockstep l next w1 (FlowTwin l)
          ((do Run.define i x.lexeme v; return .normal : Run Flow) m1)
          ((do Run.define i' x.lexeme v'; return .normal : Run Flow) m1') := by
      apply Lockstep.bind (hm1.define (hw.pair _ _ (hm.pair hlevel)) x.lexeme hv)
      intro w2 _ _ m2 m2' _ hm2 _
      exact hm2.pure .normal
    cases e with
    | none => exact hdefine (.refl w) hm (.plain (v := .nil) rfl)
    | some e =>
      obtain ⟨-, he⟩ := Fit.append ha
      apply Lockstep.bind (hn.expr (e := e) hm (hs.declare hlevel hf.1) (hf.2 e rfl) he)
      intro w1 v v' m1 m1' hw1 hm1 hv
      exact hdefine hw1 hm1 hv
  | block ss => exact hn.block hm hs hf ha
  | «if» e yes no =>
    obtain ⟨he, hy, hp, hno⟩ := hf
    obtain ⟨ha, hn'⟩ := Fit.append ha
    obtain ⟨hcondition, hyes⟩ := Fit.append ha
    rw [stmt_frames ctx fs yes hy, after_plain hp] at hn'
    apply Lockstep.bind (hn.expr hm hs he hcondition)
    intro w1 v v' m1 m1' hw1 hm1 hv
    rw [hv.alike.truthy]
    by_cases htrue : v.truthy = true
    · rw [if_pos htrue, if_pos htrue]
      exact hn.stmt hm1 (hs.mono hw1) (by simp [hp]) hy (hyes.mono hw1)
    · rw [if_neg htrue, if_neg htrue]
      cases no with
      | none => exact hm1.pure .normal
      | some s => exact hn.stmt hm1 (hs.mono hw1) (by simp [hno.2]) hno.1 (hn'.mono hw1)
  | «while» e body => exact hn.while hm hs hf ha
  | function f =>
    have hl := hl rfl
    have hname : Free f.name.lexeme := by
      cases f with
      | mk => exact hf.1
    obtain ⟨-, hbody⟩ := Fit.append ha
    have hnamed := hs.binding hl hname
    have hclosure : ClosureTwin l w [] ⟨f, i, false⟩ ⟨f, i', false⟩ := {
      declaration := rfl
      isInitializer := rfl
      formed := hf
      declared := ⟨ctx, .function, _, _, hl.binding _, hnamed.aware, hnamed.aware', hbody⟩ }
    apply Lockstep.bind (hm.newFunction hclosure)
    intro w1 v v' m1 m1' hw1 hm1 hv
    apply Lockstep.bind (hm1.define (hw1.pair _ _ (hm.pair hl)) f.name.lexeme hv)
    intro w2 _ _ m2 m2' _ hm2 _
    exact hm2.pure .normal
  | «return» t e =>
    cases e with
    | none => exact hm.pure (.returned (.plain rfl))
    | some e =>
      obtain ⟨-, he⟩ := Fit.append ha
      apply Lockstep.bind (hn.expr (e := e) hm hs (hf e rfl) he)
      intro w1 v v' m1 m1' _ hm1 hv
      exact hm1.pure (.returned hv)
  | «class» x superclass ms =>
    apply Lockstep.bind (hm.declareClass hs (hl rfl) hf ha)
    intro w1 _ _ m1 m1' _ hm1 _
    exact hm1.pure .normal

theorem loopSucc {e : Expr} {s : Stmt} (he : e.Formed Free) (hf : s.Formed Free)
    (hp : s.plain = true) (ha : Fit w (Scoping.expr ctx fs e) (Scoping.expr ctx fs' e))
    (hb : Fit w (Scoping.stmt ctx fs s).2 (l.stmt ctx fs' s)) :
    Lockstep l next w (FlowTwin l) (Evaluation.loop (n + 1) i e s m) (l.loop (n + 1) i' e s m') := by
  apply Lockstep.bind (hn.expr hm hs he ha)
  intro w1 v v' m1 m1' hw1 hm1 hv
  rw [hv.alike.truthy]
  have hs1 := hs.mono hw1
  by_cases htrue : v.truthy = true
  · rw [if_pos htrue, if_pos htrue]
    apply Lockstep.bind (hn.stmt hm1 hs1 (by simp [hp]) hf (hb.mono hw1))
    intro w2 f f' m2 m2' hw2 hm2 hff
    cases hff with
    | normal =>
      have hw := hw1.trans hw2
      exact hn.loop hm2 (hs.mono hw) he hf hp (ha.mono hw) (hb.mono hw)
    | returned hv => exact hm2.pure (.returned hv)
  · rw [if_neg htrue, if_neg htrue]
    exact hm1.pure .normal

end Statements

end Simulates

/-- Within any bound. -/
theorem simulates (l : Layout) (next n : Nat) : Simulates l next n := by
  induction n with
  | zero =>
    exact ⟨fun _ _ _ _ => .exhausted, fun _ _ _ _ _ => .exhausted, fun _ _ _ _ _ _ _ => .exhausted⟩
  | succ n ih =>
    exact {
      expr := fun hm hs hf ha => ih.exprSucc hm hs hf ha
      stmt := fun hm hs hl hf ha => ih.stmtSucc hm hs hl hf ha
      loop := fun hm hs he hf hp ha hb => ih.loopSucc hm hs he hf hp ha hb }

/-- Programs run in step. -/
theorem Match.program {l : Layout} {next n : Nat} {w : World} {m m' : Machine} {ss : List Stmt}
    (hm : Match l next w m m') (hf : Stmt.AllFormed Free ss)
    (ha : Fit w (Scoping.program ss) (l.found ss)) :
    Lockstep l next w (fun _ _ _ => True) (Evaluation.program n ss m) (l.program n ss m') := by
  have hsite {w : World} : Site w {} [] [] Machine.global Machine.global := ⟨.global, nofun, nofun⟩
  unfold Scoping.program found at ha
  induction ss generalizing w m m' with
  | nil => exact hm.pure trivial
  | cons s ss ih =>
    obtain ⟨hfirst, hrest⟩ := Fit.append ha
    rw [stmt_frames {} [] s hf.1, Simulation.after_nil] at hrest
    apply Lockstep.bind ((simulates l next n).stmt hm hsite (fun _ => .global) hf.1 hfirst)
    intro w1 _ _ m1 m1' hw1 hm1 _
    exact ih hm1 hf.2 (hrest.mono hw1)

end Lox.Layout
