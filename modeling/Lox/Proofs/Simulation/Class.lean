import Lox.Proofs.Simulation.Call

/-!
# Classes in step

A class declaration makes up to one scope around its methods; the one of `this` is made
when a method is bound. The two lie next to each other, as `super` requires.
-/

set_option autoImplicit false

namespace Lox.Simulation

open Scoping Evaluation

variable {link : Link} {w : World} {m m' : Machine} {blame : Blame}
  {rs : List Renaming} {fs : Frames} {scope : Nat}

namespace Match

theorem superMethod (hm : Match link w m m') (hmod : Models w rs fs scope) {r r' : Reference}
    (hr : RefTwin link rs fs r r') (hn : r.name.lexeme = "super") (hd : Defined fs "super")
    (hs : SuperInside fs) {method method' : Token} (hmeth : TokenTwin link method method') :
    Lockstep link w blame (ValueTwin link) (Evaluation.superMethod scope r method m)
      (Evaluation.superMethod scope r' method' m') := by
  have hk := hm.known _ _ hr.known
  have hname := hr.name.lexeme
  rw [hn] at hk hname
  apply Lockstep.bind_get
  rw [hm.depths _ _ hr.id, hk]
  cases hdepth : depth? fs "super" with
  | none => exact hm.refuse hr.name.line .superOutsideClass nofun
  | some d =>
    obtain ⟨f, hf, hl⟩ := hd d hdepth
    obtain ⟨d, g, rfl, hg, hthis⟩ := hs d hdepth
    obtain ⟨a, ha, -, hra, ho⟩ := hm.find hmod hf
    have hfixed : r'.name.lexeme = w.names a r.name.lexeme := by
      rw [hname, hn, newName_of_some hdepth hra]
    apply Lockstep.bind (hm.getAt ha hfixed (hn ▸ ho _ hl))
    intro w1 v v' m1 m1' _ hw1 hm1 hv
    have hmod1 := hmod.mono hw1
    cases hv with
    | plain hv =>
      cases v with
      | «class» => cases hv
      | _ => exact hm1.refuse hr.name.line _ nofun
    | function => exact hm1.refuse hr.name.line _ nofun
    | «instance» => exact hm1.refuse hr.name.line _ nofun
    | @«class» c c' hc =>
      obtain ⟨b, hb, -, -, hown⟩ := hm1.find hmod1 hg
      have hthis1 := hown _ hthis
      apply Lockstep.bind (hm1.getAt hb (w1.names b).apply_this.symm hthis1)
      intro w2 v v' m2 m2' _ hw2 hm2 hv
      cases hv with
      | plain hv =>
        cases v with
        | «instance» => cases hv
        | _ => exact hm2.refuse hr.name.line _ nofun
      | function => exact hm2.refuse hr.name.line _ nofun
      | «class» => exact hm2.refuse hr.name.line _ nofun
      | @«instance» id own own' hown =>
        have hmethod := (hc.mono hw2).findMethod? method.lexeme
        dsimp only
        rw [hmeth.lexeme]
        generalize c.findMethod? method.lexeme = o, c'.findMethod? method.lexeme = o' at hmethod
        cases hmethod with
        | none => exact hm2.refuse hmeth.line _ nofun
        | some hmethod =>
          apply Lockstep.bind (hm2.bindMethod hmethod (.instance hown))
          intro w3 f f' m3 m3' _ _ hm3 hf
          exact hm3.newFunction hf.1

theorem superclassOf (hm : Match link w m m') (hmod : Models w rs fs scope) {r r' : Reference}
    (hr : RefTwin link rs fs r r') (hd : Defined fs r.name.lexeme)
    (hb : m.depths.get? r.id = none → m.scopes.own? Machine.global r.name.lexeme = none →
      blame r.name.line r.name.lexeme) :
    Lockstep link w blame
      (fun w' p p' => ∃ c c', p = some c ∧ p' = some c' ∧ ClassTwin link w' c c')
      (Evaluation.superclassOf scope (some r) m) (Evaluation.superclassOf scope (some r') m') := by
  apply Lockstep.bind (hm.read hmod hr hd hb)
  intro w1 v v' m1 m1' _ hw1 hm1 hv
  cases hv with
  | plain hv =>
    cases v with
    | «class» => cases hv
    | _ => exact hm1.refuse hr.name.line _ nofun
  | function => exact hm1.refuse hr.name.line _ nofun
  | «instance» => exact hm1.refuse hr.name.line _ nofun
  | «class» hc => exact hm1.pure ⟨_, _, rfl, rfl, hc⟩

end Match

theorem methodTable_twin (hmod : Models w rs fs scope) (hs : Settled fs) {ms ms' : List Function}
    (ht : Twin link (.keep :: rs) ([("this", true)] :: fs) (.functions ms) (.functions ms')) :
    MethodsTwin link w (methodTable scope ms) (methodTable scope ms') := by
  apply Names.Related.methodTable
  induction ms generalizing ms' with
  | nil =>
    cases ht with
    | noFunctions => exact .nil
  | cons f ms ih =>
    cases ht with
    | @moreFunctions _ _ _ f' _ ms' hf hms =>
      have hname := hf.outline.1.lexeme
      refine .cons ⟨hname, ?_⟩ (ih hms)
      exact {
        scope := rfl
        isInitializer := congrArg (· == Function.initializerName) hname
        declared := ⟨rs, fs, hs, hmod, hf⟩ }

/-- The name of the class is bound a second time, now to the class. -/
theorem Match.nameClass (hm : Match link w m m') (hmod : Models w rs fs scope) {x : String}
    (hx : Scoping.ownName rs x = x) {t t' : Names Closure}
    (ht : MethodsTwin link w t t')
    {p p' : Option Class} (hp : Option.Rel (ClassTwin link w) p p') :
    Lockstep link w blame (fun _ _ _ => True)
      ((do
        let id ← Run.newId
        Run.define scope x (.class (.derive ⟨id, x, t⟩ p)) : Run Unit) m)
      ((do
        let id ← Run.newId
        Run.define scope x (.class (.derive ⟨id, x, t'⟩ p')) : Run Unit) m') := by
  apply Lockstep.bind hm.newId
  intro w1 id id' m1 m1' _ hw1 hm1 hid
  rw [hid]
  have hbody : ClassBodyTwin link w1 ⟨id, x, t⟩ ⟨id, x, t'⟩ :=
    ⟨rfl, rfl, ht.imp fun _ _ h => ⟨h.1, h.2.mono hw1⟩⟩
  have hclass := ClassTwin.derive hbody (hp.imp fun _ _ h => h.mono hw1)
  exact (hm1.define (hmod.mono hw1) hx.symm (.class hclass)).imp (fun _ _ h => h)
    fun _ _ _ _ _ => trivial

theorem Match.declareClass (hm : Match link w m m') (hmod : Models w rs fs scope)
    (hs : Settled fs) {x x' : Token} {sup sup' : Option Reference} {ms ms' : List Function}
    (ht : Twin link rs fs (.stmt (.class x sup ms)) (.stmt (.class x' sup' ms')))
    (hb : ∀ r, sup = some r → m.depths.get? r.id = none →
      m.scopes.own? Machine.global r.name.lexeme = none → blame r.name.line r.name.lexeme) :
    Lockstep link w blame (fun w' _ _ => Models w' rs (binding fs x.lexeme) scope)
      (Evaluation.declareClass scope x sup ms m) (Evaluation.declareClass scope x' sup' ms' m') := by
  cases ht with
  | rootClass hn hx hms =>
    unfold Evaluation.declareClass Evaluation.superclassOf Evaluation.methodScope
    simp only [pure_bind, hx.lexeme]
    apply Lockstep.bind (hm.define hmod hn.symm (.plain (by rfl)))
    intro w1 _ _ m1 m1' _ hw1 hm1 hown
    have hmod1 := ((hmod.mono hw1).declare x.lexeme).define hown
    have htable := methodTable_twin hmod1 (hs.binding x.lexeme) hms
    exact (hm1.nameClass hmod1 hn htable .none).imp (fun _ _ h => h)
      fun _ _ _ hw2 _ => hmod1.mono hw2
  | @subclass _ _ _ _ r r' _ _ hn hx hr hd _ _ hms =>
    unfold Evaluation.declareClass
    rw [hx.lexeme]
    apply Lockstep.bind (hm.superclassOf hmod hr hd (hb r rfl))
    intro w1 p p' m1 m1' _ hw1 hm1 hp
    obtain ⟨c, c', rfl, rfl, hc⟩ := hp
    apply Lockstep.bind (hm1.define (hmod.mono hw1) hn.symm (.plain (by rfl)))
    intro w2 _ _ m2 m2' _ hw2 hm2 hown
    have hmod2 := (((hmod.mono hw1).mono hw2).declare x.lexeme).define hown
    unfold Evaluation.methodScope
    simp only [bind_assoc, pure_bind]
    apply Lockstep.bind (hm2.newScope hmod2 link.keep)
    intro w3 i i' m3 m3' _ hw3 hm3 hi
    obtain ⟨rfl, hmod3⟩ := hi
    have hc3 := hc.mono (hw2.trans hw3)
    apply Lockstep.bind (hm3.define hmod3 rfl (.class hc3))
    intro w4 _ _ m4 m4' _ hw4 hm4 hsuper
    have hmod4 : Models w4 (.keep :: rs) ([("super", true)] :: binding fs x.lexeme) i' :=
      (hmod3.mono hw4).define hsuper
    have htable := methodTable_twin hmod4 ((hs.binding x.lexeme).single "super") hms
    have hmod5 := (hmod2.mono hw3).mono hw4
    exact (hm4.nameClass hmod5 hn htable (.some (hc3.mono hw4))).imp (fun _ _ h => h)
      fun _ _ _ hw5 _ => hmod5.mono hw5

end Lox.Simulation
