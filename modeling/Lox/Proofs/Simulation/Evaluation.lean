import Lox.Proofs.Simulation.Class

/-!
# Evaluation in step

Twins evaluate and execute in step on matching machines, within any bound. The induction
is on the bound; behind a statement the scope at hand models the scopes that the statement
leaves, as long as it ends normally.
-/

set_option autoImplicit false

namespace Lox.Simulation

open Scoping Evaluation

theorem Lockstep.through {link : Link} {w : World} {α β : Type} {Q : World → α → β → Prop}
    {r : Outcome α} {r' : Outcome β} {t t' : Task} {m m' : Machine} (hs : Spawns t m t' m')
    (h : Lockstep link w (Culprit t' m') Q r r') : Lockstep link w (Culprit t m) Q r r' :=
  h.imp (fun _ _ hc => hc.spawned hs) fun _ _ _ _ hq => hq

namespace Simulates

variable {link : Link} {n : Nat} (hn : Simulates link n) {w : World} {m m' : Machine}
  {rs : List Renaming} {fs : Frames} {scope : Nat} (hm : Match link w m m')
  (hmod : Models w rs fs scope)

include hn hm hmod

theorem call {f f' : Expr} {paren paren' : Token} {es es' : List Expr}
    (hp : TokenTwin link paren paren') (hf : Twin link rs fs (.expr f) (.expr f')) (hes : Twin link rs fs (.exprs es) (.exprs es')) :
    Lockstep link w (Culprit (.evaluate (n + 1) scope (.call f paren es)) m) (ValueTwin link)
      (evaluate (n + 1) scope (.call f paren es) m)
      (evaluate (n + 1) scope (.call f' paren' es') m') := by
  apply Lockstep.bind ((hn.expr hm hmod hf).through .callee)
  intro w1 v v' m1 m1' hv hw1 hm1 hvv
  apply Lockstep.bind (hn.arguments hm1 (hmod.mono hw1) hes
    fun before e after vs m₁ hbefore hvs line name hc => by
      subst hbefore
      exact hc.spawned (.argument hv hvs))
  intro w2 vs vs' m2 m2' hvs hw2 hm2 hvvs
  apply Lockstep.bind (hm2.checkArity (hvv.mono hw2) hvvs hp)
  intro w3 _ _ m3 m3' ha hw3 hm3 hlen
  apply hn.invoke hm3 hp ((hvv.mono hw2).mono hw3) (hvvs.imp fun _ _ h => h.mono hw3) hlen
  intro inner before s after m₁ m₂ ho hbefore line name hc
  exact hc.spawned (.body hv hvs ha ho hbefore)

theorem get {e e' : Expr} {name name' : Token} (hname : TokenTwin link name name') (he : Twin link rs fs (.expr e) (.expr e')) :
    Lockstep link w (Culprit (.evaluate (n + 1) scope (.get e name)) m) (ValueTwin link)
      (evaluate (n + 1) scope (.get e name) m) (evaluate (n + 1) scope (.get e' name') m') := by
  apply Lockstep.bind ((hn.expr hm hmod he).through .object)
  intro w1 v v' m1 m1' _ _ hm1 hv
  cases hv with
  | plain hv =>
    cases v with
    | «instance» => cases hv
    | _ => exact hm1.refuse hname.line _ nofun
  | function => exact hm1.refuse hname.line _ nofun
  | «class» => exact hm1.refuse hname.line _ nofun
  | «instance» hc => exact hm1.property _ hc hname

theorem set {e e' v v' : Expr} {name name' : Token} (hname : TokenTwin link name name')
    (he : Twin link rs fs (.expr e) (.expr e'))
    (hv : Twin link rs fs (.expr v) (.expr v')) :
    Lockstep link w (Culprit (.evaluate (n + 1) scope (.set e name v)) m) (ValueTwin link)
      (evaluate (n + 1) scope (.set e name v) m) (evaluate (n + 1) scope (.set e' name' v') m') := by
  apply Lockstep.bind ((hn.expr hm hmod he).through .target)
  intro w1 o o' m1 m1' ho hw1 hm1 hoo
  cases hoo with
  | plain hv =>
    cases o with
    | «instance» => cases hv
    | _ => exact hm1.refuse hname.line _ nofun
  | function => exact hm1.refuse hname.line _ nofun
  | «class» => exact hm1.refuse hname.line _ nofun
  | «instance» hc =>
    apply Lockstep.bind ((hn.expr hm1 (hmod.mono hw1) hv).through (.field ho))
    intro w2 u u' m2 m2' _ _ hm2 hu
    rw [hname.lexeme]
    apply Lockstep.bind (hm2.setField _ name.lexeme hu)
    intro w3 _ _ m3 m3' _ hw3 hm3 _
    exact hm3.pure (hu.mono hw3)

theorem assign {r r' : Reference} {e e' : Expr} (hr : RefTwin link rs fs r r')
    (he : Twin link rs fs (.expr e) (.expr e')) :
    Lockstep link w (Culprit (.evaluate (n + 1) scope (.assign r e)) m) (ValueTwin link)
      (evaluate (n + 1) scope (.assign r e) m) (evaluate (n + 1) scope (.assign r' e') m') := by
  apply Lockstep.bind ((hn.expr hm hmod he).through .assigned)
  intro w1 v v' m1 m1' _ hw1 hm1 hv
  apply Lockstep.bind (hm1.write (hmod.mono hw1) hr hv fun hnone hown => by
    rw [hm1.known _ _ hr.known, ← hm.known _ _ hr.known] at hnone
    rw [← hm1.scopes] at hown
    have hown := hw1.own_none hown
    rw [hm.scopes] at hown
    exact ⟨_, _, _, r, m, .self, rfl, rfl, rfl, hnone, hown⟩)
  intro w2 _ _ m2 m2' _ hw2 hm2 _
  exact hm2.pure (hv.mono hw2)

theorem exprSucc {e e' : Expr} (ht : Twin link rs fs (.expr e) (.expr e')) :
    Lockstep link w (Culprit (.evaluate (n + 1) scope e) m) (ValueTwin link)
      (evaluate (n + 1) scope e m) (evaluate (n + 1) scope e' m') := by
  cases ht with
  | @literal _ _ v => exact hm.pure (.plain (by cases v <;> rfl))
  | grouping he => exact (hn.expr hm hmod he).through .grouping
  | @unary _ _ op op' e e' ho he =>
    apply Lockstep.bind ((hn.expr hm hmod he).through .operand)
    intro w1 v v' m1 m1' _ _ hm1 hv
    rw [ho.kind, hv.unary]
    exact hm1.blaming ho.line (fun _ => unary_plain) (unary_names op.kind v)
  | @binary _ _ op op' l l' r r' ho hl hr =>
    apply Lockstep.bind ((hn.expr hm hmod hl).through .left)
    intro w1 a a' m1 m1' ha hw1 hm1 haa
    apply Lockstep.bind ((hn.expr hm1 (hmod.mono hw1) hr).through (.right ha))
    intro w2 b b' m2 m2' _ hw2 hm2 hb
    rw [ho.kind, (haa.mono hw2).binary _ hb]
    exact hm2.blaming ho.line (fun _ => binary_plain) (binary_names op.kind a b)
  | @logical _ _ op op' l l' r r' ho hl hr =>
    apply Lockstep.bind ((hn.expr hm hmod hl).through .decider)
    intro w1 a a' m1 m1' ha hw1 hm1 haa
    have hdec : Operation.decides op'.kind a' = Operation.decides op.kind a := by
      rw [ho.kind]
      exact congrArg (· == (op.kind == .word .or)) haa.truthy
    rw [hdec]
    by_cases hd : Operation.decides op.kind a = true
    · rw [if_pos hd, if_pos hd]
      exact hm1.pure haa
    · rw [if_neg hd, if_neg hd]
      exact (hn.expr hm1 (hmod.mono hw1) hr).through (.undecided ha (Bool.eq_false_iff.2 hd))
  | var hr hd =>
    exact hm.read hmod hr hd fun hnone hown => ⟨_, _, _, _, m, .self, rfl, rfl, rfl, hnone, hown⟩
  | assign hr he => exact hn.assign hm hmod hr he
  | call hp hf hes => exact hn.call hm hmod hp hf hes
  | get hname he => exact hn.get hm hmod hname he
  | set hname he hv => exact hn.set hm hmod hname he hv
  | this hr hd =>
    exact hm.read hmod hr hd fun hnone hown => ⟨_, _, _, _, m, .self, rfl, rfl, rfl, hnone, hown⟩
  | super hr hname hd hs hmeth => exact hm.superMethod hmod hr hname hd hs hmeth

/-- A branch leaves the scopes around as they are. -/
theorem branch {s s' : Stmt} (hs : Settled fs) (ht : Twin link rs fs (.stmt s) (.stmt s'))
    (hp : s.plain = true) :
    Lockstep link w (Culprit (.execute n scope s) m)
      (fun w' f f' => FlowTwin link w' f f' ∧ (f = .normal → Models w' rs fs scope))
      (execute n scope s m) (execute n scope s' m') := by
  have hrun := hn.stmt hm hmod hs ht
  rw [after_plain hp] at hrun
  exact hrun

theorem ifSucc {e e' : Expr} {yes yes' : Stmt} {no no' : Option Stmt} (hs : Settled fs)
    (ht : Twin link rs fs (.stmt (.if e yes no)) (.stmt (.if e' yes' no'))) :
    Lockstep link w (Culprit (.execute (n + 1) scope (.if e yes no)) m)
      (fun w' f f' => FlowTwin link w' f f' ∧ (f = .normal → Models w' rs fs scope))
      (execute (n + 1) scope (.if e yes no) m) (execute (n + 1) scope (.if e' yes' no') m') := by
  have hcondition : Twin link rs fs (.expr e) (.expr e') := by
    cases ht with
    | ifThen he | ifElse he => exact he
  have hyes : Twin link rs fs (.stmt yes) (.stmt yes') ∧ yes.plain = true := by
    cases ht with
    | ifThen _ hy hp | ifElse _ hy hp => exact ⟨hy, hp⟩
  apply Lockstep.bind ((hn.expr hm hmod hcondition).through .condition)
  intro w1 v v' m1 m1' hv hw1 hm1 hvv
  rw [hvv.truthy]
  have hmod1 := hmod.mono hw1
  by_cases htrue : v.truthy = true
  · rw [if_pos htrue, if_pos htrue]
    exact (hn.branch hm1 hmod1 hs hyes.1 hyes.2).through (.yes hv htrue)
  · rw [if_neg htrue, if_neg htrue]
    cases ht with
    | ifThen => exact hm1.pure ⟨.normal, fun _ => hmod1⟩
    | ifElse _ _ _ hno hq =>
      exact (hn.branch hm1 hmod1 hs hno hq).through (.no hv (Bool.eq_false_iff.2 htrue))

theorem stmtSucc {s s' : Stmt} (hs : Settled fs) (ht : Twin link rs fs (.stmt s) (.stmt s')) :
    Lockstep link w (Culprit (.execute (n + 1) scope s) m)
      (fun w' f f' => FlowTwin link w' f f' ∧ (f = .normal → Models w' rs (after fs s) scope))
      (execute (n + 1) scope s m) (execute (n + 1) scope s' m') := by
  cases s with
  | expression e =>
    cases ht with
    | expression he =>
      apply Lockstep.bind ((hn.expr hm hmod he).through .expression)
      intro w1 _ _ m1 m1' _ hw1 hm1 _
      exact hm1.pure ⟨.normal, fun _ => hmod.mono hw1⟩
  | print e =>
    cases ht with
    | print he =>
      apply Lockstep.bind ((hn.expr hm hmod he).through .printed)
      intro w1 v v' m1 m1' _ hw1 hm1 hv
      rw [hv.text]
      apply Lockstep.bind (hm1.printLine v.text)
      intro w2 _ _ m2 m2' _ hw2 hm2 _
      exact hm2.pure ⟨.normal, fun _ => hmod.mono (hw1.trans hw2)⟩
  | var x e =>
    cases ht with
    | bareVar hx =>
      simp only [execute, pure_bind]
      apply Lockstep.bind (hm.define hmod hx.lexeme (.plain (by rfl)))
      intro w1 _ _ m1 m1' _ hw1 hm1 hown
      exact hm1.pure ⟨.normal, fun _ => ((hmod.mono hw1).declare x.lexeme).define hown⟩
    | varWith hx he =>
      apply Lockstep.bind ((hn.expr hm (hmod.declare x.lexeme) he).through .initial)
      intro w1 v v' m1 m1' _ hw1 hm1 hv
      have hmod1 := hmod.mono hw1
      apply Lockstep.bind (hm1.define hmod1 hx.lexeme hv)
      intro w2 _ _ m2 m2' _ hw2 hm2 hown
      exact hm2.pure ⟨.normal, fun _ => ((hmod1.mono hw2).declare x.lexeme).define hown⟩
  | block ss =>
    cases ht with
    | block hr hss =>
      apply Lockstep.bind (hm.newScope hmod hr)
      intro w1 i i' m1 m1' hi hw1 hm1 h1
      obtain ⟨rfl, hmod1⟩ := h1
      have hblame (before : List Stmt) (s : Stmt) (after : List Stmt) (m₁ : Machine)
          (hbefore : ss = before ++ s :: after)
          (hrun : Evaluation.sequence (execute n i') before m1 = .ok .normal m₁) (line : Nat)
          (name : String) (hc : Culprit (.execute n i' s) m₁ line name) :
          Culprit (.execute (n + 1) scope (.block ss)) m line name := by
        subst hbefore
        exact hc.spawned (.inner hi hrun)
      apply (hn.sequence hm1 hmod1 hs.push hss hblame).imp fun _ _ h => h
      intro w2 f f' hw2 hf
      exact ⟨hf, fun _ => (hmod.mono hw1).mono hw2⟩
  | «if» e yes no =>
    cases ht with
    | ifThen he hy hp => exact hn.ifSucc hm hmod hs (.ifThen he hy hp)
    | ifElse he hy hp hno hq => exact hn.ifSucc hm hmod hs (.ifElse he hy hp hno hq)
  | «while» e body =>
    cases ht with
    | «while» he hb hp =>
      apply ((hn.loop hm hmod hs he hb hp).through .while).imp fun _ _ h => h
      intro w1 f f' hw1 hf
      exact ⟨hf, fun _ => hmod.mono hw1⟩
  | function f =>
    cases ht with
    | @declared _ _ _ f' hname hf =>
      simp only [execute, Run.newFunction, bind_assoc, pure_bind]
      apply Lockstep.bind hm.newId
      intro w1 id id' m1 m1' _ hw1 hm1 hid
      obtain rfl : id' = id := hid
      have hmod1 := hmod.mono hw1
      have hlt : scope < w1.scopes.next := by
        rw [hm1.scopes]
        exact hm1.scope_lt hmod1
      have hnew : ValueTwin link
          (w1.define scope f.name.lexeme (.function id' ⟨f, scope, false⟩))
          (.function id' ⟨f, scope, false⟩) (.function id' ⟨f', scope, false⟩) := by
        apply ValueTwin.function
        exact {
          scope := rfl
          isInitializer := rfl
          declared := ⟨rs, binding fs f.name.lexeme, hs.binding _, by
            apply ((hmod1.mono (w1.extends_define _ _ hlt)).declare f.name.lexeme).define
            rw [World.define, Scopes.own?_define_self _ _ _ hlt]
            rfl, hf⟩
          this := nofun }
      apply Lockstep.bind (hm1.defineNew hmod1 (hf.outline.1.lexeme.trans hname.symm) hnew)
      intro w2 _ _ m2 m2' _ hw2 hm2 hown
      exact hm2.pure ⟨.normal, fun _ => ((hmod1.mono hw2).declare f.name.lexeme).define hown⟩
  | «return» t e =>
    cases ht with
    | bareReturn _ => exact hm.pure ⟨.returned (.plain rfl), fun h => by cases h⟩
    | returnWith _ he =>
      apply Lockstep.bind ((hn.expr hm hmod he).through .returned)
      intro w1 v v' m1 m1' _ _ hm1 hv
      exact hm1.pure ⟨.returned hv, fun h => by cases h⟩
  | «class» x sup ms =>
    have hblame (r : Reference) (hr : sup = some r) (hnone : m.depths.get? r.id = none)
        (hown : m.scopes.own? Machine.global r.name.lexeme = none) :
        Culprit (.execute (n + 1) scope (.class x sup ms)) m r.name.line r.name.lexeme := by
      subst hr
      exact ⟨_, _, _, r, m, .step .superclass .self, rfl, rfl, rfl, hnone, hown⟩
    have hdeclare {x' : Token} {sup' : Option Reference} {ms' : List Function}
        (ht : Twin link rs fs (.stmt (.class x sup ms)) (.stmt (.class x' sup' ms'))) :
        Lockstep link w (Culprit (.execute (n + 1) scope (.class x sup ms)) m)
          (fun w' f f' => FlowTwin link w' f f' ∧
            (f = .normal → Models w' rs (binding fs x.lexeme) scope))
          (execute (n + 1) scope (.class x sup ms) m)
          (execute (n + 1) scope (.class x' sup' ms') m') := by
      apply Lockstep.bind (hm.declareClass hmod hs ht hblame)
      intro w1 _ _ m1 m1' _ _ hm1 hmod1
      exact hm1.pure ⟨.normal, fun _ => hmod1⟩
    cases ht with
    | rootClass hn hx hms => exact hdeclare (.rootClass hn hx hms)
    | subclass hn hx hr hd hne hne' hms => exact hdeclare (.subclass hn hx hr hd hne hne' hms)

theorem loopSucc {e e' : Expr} {s s' : Stmt} (hs : Settled fs)
    (he : Twin link rs fs (.expr e) (.expr e')) (ht : Twin link rs fs (.stmt s) (.stmt s'))
    (hp : s.plain = true) :
    Lockstep link w (Culprit (.loop (n + 1) scope e s) m) (FlowTwin link)
      (Evaluation.loop (n + 1) scope e s m) (Evaluation.loop (n + 1) scope e' s' m') := by
  apply Lockstep.bind ((hn.expr hm hmod he).through .loopCondition)
  intro w1 v v' m1 m1' hv hw1 hm1 hvv
  rw [hvv.truthy]
  have hmod1 := hmod.mono hw1
  by_cases htrue : v.truthy = true
  · rw [if_pos htrue, if_pos htrue]
    apply Lockstep.bind ((hn.branch hm1 hmod1 hs ht hp).through (.loopBody hv htrue))
    intro w2 f f' m2 m2' hf hw2 hm2 hff
    cases hff.1 with
    | normal =>
      exact (hn.loop hm2 (hmod1.mono hw2) hs he ht hp).through (.again hv htrue hf)
    | returned hv => exact hm2.pure (.returned hv)
  · rw [if_neg htrue, if_neg htrue]
    exact hm1.pure .normal

end Simulates

/-- Within any bound. -/
theorem simulates (link : Link) (n : Nat) : Simulates link n := by
  induction n with
  | zero => exact ⟨fun _ _ _ => .exhausted, fun _ _ _ _ => .exhausted, fun _ _ _ _ _ _ => .exhausted⟩
  | succ n ih =>
    exact {
      expr := fun hm hmod ht => ih.exprSucc hm hmod ht
      stmt := fun hm hmod hs ht => ih.stmtSucc hm hmod hs ht
      loop := fun hm hmod hs he ht hp => ih.loopSucc hm hmod hs he ht hp }

end Lox.Simulation
