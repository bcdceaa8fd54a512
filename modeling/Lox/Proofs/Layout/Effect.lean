import Lox.Proofs.Layout.Match

/-!
# Instances, output, the host and classes in step

None of these operations looks at the layout. The scope of a bound method has `this` on both
sides, and `super` is reached where the scope of `this` is just inside of its own.
-/

set_option autoImplicit false

namespace Lox.Layout

open Scoping

variable {l : Layout} {next : Nat} {w : World} {m m' : Machine} {ctx : Context} {fs fs' : Frames}
  {i i' : Nat}

namespace Match

variable (hm : Match l next w m m')

include hm

theorem newId : Lockstep l next w (fun _ id id' => id' = id) (Run.newId m) (Run.newId m') :=
  .ok (.refl w) { hm with serial := congrArg (· + 1) hm.serial } hm.serial

theorem newFunction {c c' : Closure} (hc : ClosureTwin l w [] c c') :
    Lockstep l next w (ValueTwin l) (Run.newFunction c m) (Run.newFunction c' m') := by
  apply Lockstep.bind hm.newId
  intro w' id id' n n' hw hn he
  rw [he]
  exact hn.pure (.function (hc.mono hw))

theorem newInstance {c c' : Class} (hc : Class.Related (MethodTwin l w) c c') :
    Lockstep l next w
      (fun w' v v' => ∃ id, v = .instance id c ∧ v' = .instance id c' ∧
        Class.Related (MethodTwin l w') c c')
      (Run.newInstance c m) (Run.newInstance c' m') := by
  apply Lockstep.ok (.refl w)
  · exact {
      hm with
      size := by simp only [Array.size_push, hm.size]
      field := fun id name => by
        rw [Machine.field?_push, Machine.field?_push]
        exact hm.field id name }
  · exact ⟨_, rfl, by rw [hm.size], hc⟩

theorem setField (id : Nat) (name : String) {v v' : Value} (hv : ValueTwin l w v v') :
    Lockstep l next w (fun _ _ _ => True) (Run.setField id name v m) (Run.setField id name v' m') := by
  apply Lockstep.ok (.refl w) _ trivial
  exact {
    hm with
    size := by simp only [Array.size_modify, hm.size]
    field := Machine.field?_modify_rel hm.size hm.field id name hv }

theorem bindMethod {c c' : Closure} (hc : MethodTwin l w c c') {self self' : Value}
    (hself : ValueTwin l w self self') :
    Lockstep l next w (fun w' b b' => ClosureTwin l w' [] b b' ∧ b.declaration = c.declaration)
      (Run.bindMethod c self m) (Run.bindMethod c' self' m') := by
  obtain ⟨ctx, body, fs, fs', hl, ha, ha', hf⟩ := hc.declared
  apply Lockstep.bind (hm.newScope hl.around)
  intro w1 j j' n n' hw1 hn h1
  apply Lockstep.bind (hn.define (hn.pair (h1 [])) "this" (hself.mono hw1))
  intro w2 _ _ n2 n2' hw2 hn2 _
  apply hn2.pure
  apply And.intro _ rfl
  exact {
    declaration := hc.declaration
    isInitializer := hc.isInitializer
    formed := hc.formed
    declared := ⟨ctx, body, [("this", true)] :: fs, [("this", true)] :: fs', (h1 _).mono hw2, ha, ha',
      hf.mono (hw1.trans hw2)⟩ }

theorem property (id : Nat) {c c' : Class} (hc : Class.Related (MethodTwin l w) c c') (name : Token) :
    Lockstep l next w (ValueTwin l) (Run.property id c name m) (Run.property id c' name m') := by
  have hf := hm.field id name.lexeme
  have hmethod := hc.findMethod? name.lexeme
  apply Lockstep.bind_get
  unfold Machine.field? at hf
  generalize m.instances[id]?.bind (·.get? name.lexeme) = o,
    m'.instances[id]?.bind (·.get? name.lexeme) = o' at hf
  generalize c.findMethod? name.lexeme = p, c'.findMethod? name.lexeme = p' at hmethod
  cases hf with
  | some hv => exact hm.pure hv
  | none =>
    cases hmethod with
    | none => exact hm.fail name _
    | some hmethod =>
      apply Lockstep.bind (hm.bindMethod hmethod (.instance hc))
      intro w' f f' n n' _ hn hf
      exact hn.newFunction hf.1

theorem printLine (s : String) :
    Lockstep l next w (fun _ _ _ => True) (Run.printLine s m) (Run.printLine s m') := by
  unfold Run.printLine
  rw [hm.sink]
  split
  · exact .ok (.refl w) { hm with sink := rfl } trivial
  · exact .fault hm
  · exact .ok (.refl w) { hm with sink := rfl } trivial

theorem callHost (f : HostFunction) {vs vs' : List Value}
    (hvs : List.Forall₂ (ValueTwin l w) vs vs') (paren : Token) :
    Lockstep l next w (ValueTwin l) (Run.callHost f vs paren m) (Run.callHost f vs' paren m') := by
  unfold Run.callHost
  cases f.code with
  | clock =>
    show Lockstep l next w (ValueTwin l) (.ok (.number (Number.ofDecimal false m.clock (-6))) _)
      (.ok (.number (Number.ofDecimal false m'.clock (-6))) _)
    rw [hm.clock]
    exact .ok (.refl w) { hm with clock := rfl } (.plain rfl)
  | given k =>
    have ha := Simulation.answer_of_closed hm.closed k (hvs.imp fun _ _ hv => hv.alike)
    simp only [hm.hosts]
    generalize (m.hosts[k]?.getD fun _ => .ok .nil) vs = r,
      (m.hosts[k]?.getD fun _ => .ok .nil) vs' = r' at ha
    cases ha with
    | message s => exact hm.fail paren _
    | plain hv => exact .ok (.refl w) hm (.plain hv)
    | argument hv hv' =>
      obtain ⟨hk, rfl⟩ := List.getElem?_eq_some_iff.1 hv
      obtain ⟨hk', rfl⟩ := List.getElem?_eq_some_iff.1 hv'
      exact .ok (.refl w) hm (hvs.get hk hk')

theorem checkArity {f f' : Value} (hf : ValueTwin l w f f') {vs vs' : List Value}
    (hvs : List.Forall₂ (ValueTwin l w) vs vs') (paren : Token) :
    Lockstep l next w (fun _ _ _ => True)
      (Evaluation.checkArity f vs paren m) (Evaluation.checkArity f' vs' paren m') := by
  unfold Evaluation.checkArity
  rw [hf.alike.arity?, ← hvs.length_eq]
  cases f.arity? with
  | none => exact hm.fail paren _
  | some n =>
    by_cases hn : vs.length = n
    · simp only [hn, if_true]
      exact hm.pure trivial
    · simp only [hn, if_false]
      exact hm.fail paren _

theorem defineAll (hp : w.pair i i') (ps : List Token) {vs vs' : List Value}
    (hvs : List.Forall₂ (ValueTwin l w) vs vs') :
    Lockstep l next w (fun _ _ _ => True) (Evaluation.defineAll i ps vs m)
      (Evaluation.defineAll i' ps vs' m') := by
  induction ps generalizing vs vs' w m m' with
  | nil => exact hm.pure trivial
  | cons p ps ih =>
    cases hvs with
    | nil => exact hm.pure trivial
    | cons hv hvs =>
      apply Lockstep.bind (hm.define hp p.lexeme hv)
      intro w1 _ _ m1 m1' hw1 hm1 _
      exact ih hm1 (hw1.pair _ _ hp) (hvs.imp fun _ _ h => h.mono hw1)

section Classes

variable (hs : Site w ctx fs fs' i i')

include hs

theorem superMethod (hc : ctx.family = .subclass) {r : Reference} (hn : r.name.lexeme = "super")
    (hk : w.known r (depth? fs r.name.lexeme)) (hk' : w.known' r (depth? fs' r.name.lexeme))
    (method : Token) :
    Lockstep l next w (ValueTwin l) (Evaluation.superMethod i r method m)
      (Evaluation.superMethod i' r method m') := by
  obtain ⟨d, hthis, hsuper⟩ := hs.aware hc
  obtain ⟨d', hthis', hsuper'⟩ := hs.aware' hc
  have hfind := hm.find hs.around "super"
  rw [hsuper, hsuper'] at hfind
  obtain ⟨a, a', ha, ha', hp⟩ := Option.rel_some_some.1 hfind
  rw [hn] at hk hk'
  apply Lockstep.bind_get
  rw [hm.known _ _ hk, hm.known' _ _ hk', hsuper, hsuper']
  apply Lockstep.bind (hm.getAt ha ha' hp r.name)
  intro w1 v v' m1 m1' hw1 hm1 hv
  cases hv with
  | plain hv =>
    cases v with
    | «class» => cases hv
    | _ => exact hm1.fail r.name _
  | function => exact hm1.fail r.name _
  | «instance» => exact hm1.fail r.name _
  | @«class» c c' hc =>
    have hfind := hm1.find (hs.mono hw1).around "this"
    rw [hthis, hthis'] at hfind
    obtain ⟨b, b', hb, hb', hp1⟩ := Option.rel_some_some.1 hfind
    apply Lockstep.bind (hm1.getAt hb hb' hp1 _)
    intro w2 v v' m2 m2' hw2 hm2 hv
    cases hv with
    | plain hv =>
      cases v with
      | «instance» => cases hv
      | _ => exact hm2.fail r.name _
    | function => exact hm2.fail r.name _
    | «class» => exact hm2.fail r.name _
    | @«instance» id own own' hown =>
      have hmethod := (related_mono hw2 hc).findMethod? method.lexeme
      dsimp only
      generalize c.findMethod? method.lexeme = o, c'.findMethod? method.lexeme = o' at hmethod
      cases hmethod with
      | none => exact hm2.fail method _
      | some hmethod =>
        apply Lockstep.bind (hm2.bindMethod hmethod (.instance hown))
        intro w3 f f' m3 m3' _ hm3 hf
        exact hm3.newFunction hf.1

theorem superclassOf {r : Reference} (ha : Fit w (Scoping.read fs r) (Scoping.read fs' r)) :
    Lockstep l next w
      (fun w' p p' => ∃ c c', p = some c ∧ p' = some c' ∧ Class.Related (MethodTwin l w') c c')
      (Evaluation.superclassOf i (some r) m) (Evaluation.superclassOf i' (some r) m') := by
  apply Lockstep.bind (hm.read hs.around ha.left.read.2 ha.right.read.2)
  intro w1 v v' m1 m1' _ hm1 hv
  cases hv with
  | plain hv =>
    cases v with
    | «class» => cases hv
    | _ => exact hm1.fail r.name _
  | function => exact hm1.fail r.name _
  | «instance» => exact hm1.fail r.name _
  | «class» hc => exact hm1.pure ⟨_, _, rfl, rfl, hc⟩

omit hs in
/-- The name of the class is bound a second time, now to the class. -/
theorem nameClass (hp : w.pair i i') (x : String) {t t' : Names Closure}
    (ht : Names.Related (MethodTwin l w) t t') {p p' : Option Class}
    (hc : Option.Rel (Class.Related (MethodTwin l w)) p p') :
    Lockstep l next w (fun _ _ _ => True)
      ((do
        let id ← Run.newId
        Run.define i x (.class (.derive ⟨id, x, t⟩ p)) : Run Unit) m)
      ((do
        let id ← Run.newId
        Run.define i' x (.class (.derive ⟨id, x, t'⟩ p')) : Run Unit) m') := by
  apply Lockstep.bind hm.newId
  intro w1 id id' m1 m1' hw1 hm1 hid
  rw [hid]
  have hbody : ClassBody.Related (MethodTwin l w1) ⟨id, x, t⟩ ⟨id, x, t'⟩ :=
    ⟨rfl, rfl, ht.imp fun _ _ h => h.mono hw1⟩
  have hclass := Class.Related.derive hbody (hc.imp fun _ _ h => related_mono hw1 h)
  exact hm1.define (hw1.pair _ _ hp) x (.class hclass)

end Classes

end Match

section Methods

variable {ms : List Function}

theorem Fit.method {f : Function} (hf : f ∈ ms)
    (h : Fit w (methodsFindings ctx fs ms) (l.methods ctx fs' ms)) :
    Fit w (Scoping.function ctx fs (methodBody f) f) (l.function ctx fs' (methodBody f) f) := by
  induction ms with
  | nil => cases hf
  | cons g ms ih =>
    obtain ⟨hfirst, hrest⟩ := Fit.append h
    rcases List.mem_cons.1 hf with rfl | hf
    · exact hfirst
    · exact ih hf hrest

theorem formed_of_mem {ok : String → Prop} {f : Function} (hf : f ∈ ms)
    (h : Function.AllFormed ok ms) : f.Formed ok := by
  induction ms with
  | nil => cases hf
  | cons g ms ih =>
    rcases List.mem_cons.1 hf with rfl | hf
    · exact h.1
    · exact ih hf h.2

/-- Methods that are declared around corresponding places. -/
theorem methodTable_twin (hl : Level w fs fs' i i') (hms : Function.AllFormed Free ms)
    (ha : Aware ctx ([("this", true)] :: fs)) (ha' : Aware ctx ([("this", true)] :: fs'))
    (hf : Fit w (methodsFindings ctx ([("this", true)] :: fs) ms)
      (l.methods ctx ([("this", true)] :: fs') ms)) :
    Names.Related (MethodTwin l w) (Evaluation.methodTable i ms) (Evaluation.methodTable i' ms) := by
  apply Names.Related.methodTable
  apply List.forall₂_same.2
  intro f hmem
  exact ⟨rfl, {
    declaration := rfl
    isInitializer := rfl
    formed := formed_of_mem hmem hms
    declared := ⟨ctx, methodBody f, fs, fs', hl, ha, ha', hf.method hmem⟩ }⟩

end Methods

theorem Match.declareClass (hm : Match l next w m m') (hs : Site w ctx fs fs' i i')
    (hl : Level w fs fs' i i') {x : Token} {superclass : Option Reference} {ms : List Function}
    (hf : (Stmt.class x superclass ms).Formed Free)
    (ha : Fit w (Scoping.stmt ctx fs (.class x superclass ms)).2
      (l.stmt ctx fs' (.class x superclass ms))) :
    Lockstep l next w (fun _ _ _ => True) (Evaluation.declareClass i x superclass ms m)
      (Evaluation.declareClass i' x superclass ms m') := by
  obtain ⟨hfree, -, hms⟩ := hf
  obtain ⟨ha, hmethods⟩ := Fit.append ha
  obtain ⟨-, hsuper⟩ := Fit.append ha
  have hnamed := hl.binding x.lexeme
  unfold Evaluation.declareClass
  cases superclass with
  | none =>
    unfold Evaluation.superclassOf Evaluation.methodScope
    simp only [pure_bind]
    apply Lockstep.bind (hm.define (hm.pair hl) x.lexeme (.plain (by rfl)))
    intro w1 _ _ m1 m1' hw1 hm1 _
    have htable := methodTable_twin (hnamed.mono hw1) hms (Aware.methods ctx.body none)
      (Aware.methods ctx.body none) (hmethods.mono hw1)
    exact hm1.nameClass (hw1.pair _ _ (hm.pair hl)) x.lexeme htable .none
  | some r =>
    apply Lockstep.bind (hm.superclassOf (hs.binding hl hfree) (Fit.append hsuper).2)
    intro w1 p p' m1 m1' hw1 hm1 hp
    obtain ⟨c, c', rfl, rfl, hc⟩ := hp
    have hpair := hw1.pair _ _ (hm.pair hl)
    apply Lockstep.bind (hm1.define hpair x.lexeme (.plain (by rfl)))
    intro w2 _ _ m2 m2' hw2 hm2 _
    unfold Evaluation.methodScope
    simp only [bind_assoc, pure_bind]
    apply Lockstep.bind (hm2.newScope (hnamed.mono (hw1.trans hw2)).around)
    intro w3 j j' m3 m3' hw3 hm3 hj
    have hc3 := related_mono (hw2.trans hw3) hc
    apply Lockstep.bind (hm3.define (hm3.pair (hj [])) "super" (.class hc3))
    intro w4 _ _ m4 m4' hw4 hm4 _
    have hw := ((hw1.trans hw2).trans hw3).trans hw4
    have htable := methodTable_twin ((hj [("super", true)]).mono hw4) hms
      (Aware.methods ctx.body (some r)) (Aware.methods ctx.body (some r)) (hmethods.mono hw)
    exact hm4.nameClass (hw.pair _ _ (hm.pair hl)) x.lexeme htable (.some (related_mono hw4 hc3))

end Lox.Layout
