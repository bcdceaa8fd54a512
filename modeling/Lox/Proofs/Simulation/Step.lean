import Lox.Proofs.Simulation.Match

/-!
# Computations in step

Two computations are in step if they end in the same way: both with a value, both with
the same fault up to its line or both at the bound, and on matching machines. This is built up along
`>>=` from one lemma for each operation on machines.

A fault that names an undefined variable is always blamed on someone: `blame` says which
lines and names it may be blamed on.
-/

set_option autoImplicit false

namespace Lox.Simulation

open Scoping

abbrev Outcome (α : Type) := EStateM.Result Stop Machine α

/-- The places that may be blamed for an undefined variable. -/
abbrev Blame := Nat → String → Prop

/-- The same fault, on lines that correspond. -/
inductive FaultTwin (link : Link) : Diagnostic → Diagnostic → Prop
  | runtime {line line' : Nat} {cause : RuntimeCause} (h : link.line line line') :
      FaultTwin link (.runtime line cause) (.runtime line' cause)
  | sink (fault : SinkFault) : FaultTwin link (.sink fault) (.sink fault)

/-- Where lines are the same, so are faults. -/
theorem FaultTwin.eq {link : Link} (hline : ∀ l l', link.line l l' → l' = l) {d d' : Diagnostic}
    (h : FaultTwin link d d') : d' = d := by
  cases h with
  | runtime hl => rw [hline _ _ hl]
  | sink => rfl

inductive Lockstep (link : Link) (w : World) (blame : Blame) {α β : Type}
    (Q : World → α → β → Prop) : Outcome α → Outcome β → Prop
  | ok {w' : World} {a : α} {a' : β} {m m' : Machine} (hw : w.Extends w')
      (hm : Match link w' m m') (hq : Q w' a a') : Lockstep link w blame Q (.ok a m) (.ok a' m')
  | fault {w' : World} {d d' : Diagnostic} {m m' : Machine} (hd : FaultTwin link d d')
      (hb : ∀ line name, d = .runtime line (.undefinedVariable name) → blame line name)
      (hm : Match link w' m m') :
      Lockstep link w blame Q (.error (.fault d) m) (.error (.fault d') m')
  | exhausted {m m' : Machine} :
      Lockstep link w blame Q (.error .exhausted m) (.error .exhausted m')

variable {link : Link} {w : World} {blame : Blame} {α β γ δ : Type} {m m' : Machine}

namespace Lockstep

variable {Q : World → α → β → Prop} {R : World → γ → δ → Prop}

theorem bind {p : Run α} {p' : Run β} {f : α → Run γ} {f' : β → Run δ}
    (hp : Lockstep link w blame Q (p m) (p' m'))
    (hf : ∀ w' a a' n n', p m = .ok a n → w.Extends w' → Match link w' n n' → Q w' a a' →
      Lockstep link w' blame R (f a n) (f' a' n')) :
    Lockstep link w blame R ((p >>= f) m) ((p' >>= f') m') := by
  show Lockstep link w blame R (EStateM.bind p f m) (EStateM.bind p' f' m')
  unfold EStateM.bind
  generalize p m = r, p' m' = r' at hp hf
  cases hp with
  | ok hw hm hq =>
    have h := hf _ _ _ _ _ rfl hw hm hq
    show Lockstep link w blame R (f _ _) (f' _ _)
    generalize f _ _ = s, f' _ _ = s' at h
    cases h with
    | ok hw' hm hq => exact .ok (hw.trans hw') hm hq
    | fault hd hb hm => exact .fault hd hb hm
    | exhausted => exact .exhausted
  | fault hd hb hm => exact .fault hd hb hm
  | exhausted => exact .exhausted

theorem bind_get {f : Machine → Run γ} {f' : Machine → Run δ}
    (h : Lockstep link w blame R (f m m) (f' m' m')) :
    Lockstep link w blame R ((get >>= f) m) ((get >>= f') m') := h

theorem imp {r : Outcome α} {r' : Outcome β} {Q' : World → α → β → Prop} {blame' : Blame}
    (h : Lockstep link w blame Q r r') (hb : ∀ line name, blame line name → blame' line name)
    (hq : ∀ w' a a', w.Extends w' → Q w' a a' → Q' w' a a') : Lockstep link w blame' Q' r r' := by
  cases h with
  | ok hw hm h => exact .ok hw hm (hq _ _ _ hw h)
  | fault hd h hm => exact .fault hd (fun line name he => hb line name (h line name he)) hm
  | exhausted => exact .exhausted

end Lockstep

variable (hm : Match link w m m')

include hm

namespace Match

theorem pure {Q : World → α → β → Prop} {a : α} {a' : β} (hq : Q w a a') :
    Lockstep link w blame Q ((Pure.pure a : Run α) m) ((Pure.pure a' : Run β) m') :=
  .ok (.refl w) hm hq

/-- The same fault on both sides. -/
theorem fail {Q : World → α → β → Prop} {t t' : Token} (ht : link.line t.line t'.line)
    {cause : RuntimeCause} (hb : ∀ name, cause = .undefinedVariable name → blame t.line name) :
    Lockstep link w blame Q (Run.fail t cause m) (Run.fail t' cause m') := by
  apply Lockstep.fault (.runtime ht) _ hm
  intro line name hd
  injection hd with hl hc
  rw [← hl]
  exact hb name hc

/-- A fault that names no variable is nobody's. -/
theorem refuse {Q : World → α → β → Prop} {t t' : Token} (ht : link.line t.line t'.line)
    (cause : RuntimeCause) (hc : ∀ name, cause ≠ .undefinedVariable name) :
    Lockstep link w blame Q (Run.fail t cause m) (Run.fail t' cause m') :=
  hm.fail ht fun name h => absurd h (hc name)

theorem blaming {t t' : Token} (ht : link.line t.line t'.line) {r : Except RuntimeCause Value}
    (hp : ∀ v, r = .ok v → v.plain = true)
    (hc : ∀ name, r ≠ .error (.undefinedVariable name)) :
    Lockstep link w blame (ValueTwin link) (Run.blaming t r m) (Run.blaming t' r m') := by
  cases r with
  | ok v => exact hm.pure (.plain (hp v rfl))
  | error cause =>
    apply hm.fail ht
    intro name hn
    exact absurd (congrArg Except.error hn) (hc name)

theorem newScope {rs : List Renaming} {fs : Frames} {p : Nat} (h : Models w rs fs p)
    {r : Renaming} (hr : link.renames r) :
    Lockstep link w blame (fun w' i i' => i' = i ∧ Models w' (r :: rs) ([] :: fs) i)
      (Run.newScope p m) (Run.newScope p m') := by
  have hp := hm.scope_lt h
  apply Lockstep.ok (w.extends_push p r) (hm.after_push hp hr)
  apply And.intro hm.next
  rw [← hm.scopes]
  exact h.push (hm.scopes ▸ hp) r

/-- The value may refer to the binding that is made. -/
theorem defineNew {rs : List Renaming} {fs : Frames} {i : Nat} (h : Models w rs fs i)
    {name name' : String} (hn : name' = Scoping.ownName rs name) {v v' : Value}
    (hv : ValueTwin link (w.define i name v) v v') :
    Lockstep link w blame (fun w' _ _ => (w'.scopes.own? i name).isSome)
      (Run.define i name v m) (Run.define i name' v' m') := by
  have hi := hm.scope_lt h
  rw [hn, hm.ownName h]
  apply Lockstep.ok (w.extends_define name v (hm.scopes ▸ hi)) (hm.after_define hi name hv)
  rw [World.define, Scopes.own?_define_self _ _ _ (hm.scopes ▸ hi)]
  rfl

theorem define {rs : List Renaming} {fs : Frames} {i : Nat} (h : Models w rs fs i)
    {name name' : String} (hn : name' = Scoping.ownName rs name) {v v' : Value}
    (hv : ValueTwin link w v v') :
    Lockstep link w blame (fun w' _ _ => (w'.scopes.own? i name).isSome)
      (Run.define i name v m) (Run.define i name' v' m') :=
  hm.defineNew h hn (hv.mono (w.extends_define name v (hm.scopes ▸ hm.scope_lt h)))

theorem newId : Lockstep link w blame (fun _ id id' => id' = id) (Run.newId m) (Run.newId m') :=
  .ok (.refl w) { hm with serial := congrArg (· + 1) hm.serial } hm.serial

theorem newFunction {c c' : Closure} (hc : CallableTwin link w c c') :
    Lockstep link w blame (ValueTwin link) (Run.newFunction c m) (Run.newFunction c' m') := by
  apply Lockstep.bind hm.newId
  intro w' id id' n n' _ hw hn he
  rw [he]
  exact hn.pure (.function (hc.mono hw))

/-- The scope of the binding that a depth in the scopes around leads to. -/
theorem find {rs : List Renaming} {fs : Frames} {i d : Nat} (h : Models w rs fs i)
    {f : Frame} (hf : fs[d]? = some f) :
    ∃ a, m.scopes.ancestor? d i = some a ∧ a < m.scopes.next ∧ rs[d]? = some (w.names a) ∧
      ∀ name, f.lookup name = some true → (m.scopes.own? a name).isSome := by
  have hd : d < fs.length := (List.getElem?_eq_some_iff.1 hf).1
  obtain ⟨a, g, ha, hr, hg, hlt, hb⟩ := h.find hd
  rw [hm.scopes] at ha hlt hb
  rw [hf] at hg
  cases hg
  exact ⟨a, ha, hlt, hr, hb⟩

theorem getAt {i d a : Nat} {t t' : Token} (ha : m.scopes.ancestor? d i = some a)
    (ht : t'.lexeme = w.names a t.lexeme) (hb : (m.scopes.own? a t.lexeme).isSome) :
    Lockstep link w blame (ValueTwin link) (Run.getAt i d t m) (Run.getAt i d t' m') := by
  have ho := hm.own a t.lexeme
  unfold Run.getAt Scopes.getAt?
  rw [hm.ancestor, ha, ht]
  simp only [Option.bind_some]
  generalize m.scopes.own? a t.lexeme = o, m'.scopes.own? a (w.names a t.lexeme) = o' at ho hb
  cases ho with
  | none => cases hb
  | some hv => exact .ok (.refl w) hm hv

/-- A name that no scope around has is global and the same on both sides. -/
theorem undefined {Q : World → α → β → Prop} {t t' : Token} (hl : link.line t.line t'.line)
    (hn : t'.lexeme = t.lexeme) (hb : blame t.line t.lexeme) :
    Lockstep link w blame Q (Run.fail t (.undefinedVariable t.lexeme) m)
      (Run.fail t' (.undefinedVariable t'.lexeme) m') := by
  rw [hn]
  apply hm.fail hl
  intro name hname
  injection hname with hname
  rw [← hname]
  exact hb

theorem ownGlobal (name : String) :
    Option.Rel (ValueTwin link w) (m.scopes.own? 0 name) (m'.scopes.own? 0 name) := by
  have hg := hm.own Machine.global name
  rw [hm.globalNames] at hg
  exact hg

/-- Reading a reference finds its binding, unless it is a global name that has none. -/
theorem read {rs : List Renaming} {fs : Frames} {i : Nat} (h : Models w rs fs i)
    {r r' : Reference} (hr : RefTwin link rs fs r r') (hd : Defined fs r.name.lexeme)
    (hb : m.depths.get? r.id = none → m.scopes.own? Machine.global r.name.lexeme = none →
      blame r.name.line r.name.lexeme) :
    Lockstep link w blame (ValueTwin link) (Run.read i r m) (Run.read i r' m') := by
  have hk := hm.known _ _ hr.known
  unfold Run.read
  rw [hm.depths _ _ hr.id, hk]
  cases hdepth : depth? fs r.name.lexeme with
  | some d =>
    obtain ⟨f, hf, hl⟩ := hd d hdepth
    obtain ⟨a, ha, -, hra, ho⟩ := hm.find h hf
    exact hm.getAt ha (hr.name.lexeme.trans (newName_of_some hdepth hra)) (ho _ hl)
  | none =>
    have hn := hr.name.lexeme.trans (newName_of_none hdepth)
    have hg := hm.ownGlobal r.name.lexeme
    have hb := hb (hk.trans hdepth)
    rw [← hn] at hg
    simp only [Machine.global, Scopes.get?_global] at hb ⊢
    generalize m'.scopes.own? 0 r'.name.lexeme = o' at hg
    rw [hn] at hg
    generalize m.scopes.own? 0 r.name.lexeme = o at hg hb
    cases hg with
    | none => exact hm.undefined hr.name.line hn (hb rfl)
    | some hv => exact .ok (.refl w) hm hv

theorem write {rs : List Renaming} {fs : Frames} {i : Nat} (h : Models w rs fs i)
    {r r' : Reference} (hr : RefTwin link rs fs r r') {v v' : Value}
    (hv : ValueTwin link w v v')
    (hb : m.depths.get? r.id = none → m.scopes.own? Machine.global r.name.lexeme = none →
      blame r.name.line r.name.lexeme) :
    Lockstep link w blame (fun _ _ _ => True) (Run.write i r v m) (Run.write i r' v' m') := by
  have hk := hm.known _ _ hr.known
  have hdefine {a : Nat} (ha : a < m.scopes.next) (hn : r'.name.lexeme = w.names a r.name.lexeme) :
      Lockstep link w blame (fun _ _ _ => True) (Run.define a r.name.lexeme v m)
        (Run.define a r'.name.lexeme v' m') := by
    have hw := w.extends_define r.name.lexeme v (i := a) (hm.scopes ▸ ha)
    rw [hn]
    exact .ok hw (hm.after_define ha _ (hv.mono hw)) trivial
  unfold Run.write Machine.target?
  rw [hm.depths _ _ hr.id, hk]
  cases hdepth : depth? fs r.name.lexeme with
  | some d =>
    obtain ⟨f, hf, -⟩ := lookup_of_depth hdepth
    obtain ⟨a, ha, hlt, hra, -⟩ := hm.find h hf
    simp only [hm.ancestor, ha]
    exact hdefine hlt (hr.name.lexeme.trans (newName_of_some hdepth hra))
  | none =>
    have hn := hr.name.lexeme.trans (newName_of_none hdepth)
    have hkeep : w.names Machine.global r.name.lexeme = r.name.lexeme := by
      rw [hm.globalNames, Renaming.keep_apply]
    have hg := hm.ownGlobal r.name.lexeme
    have hb := hb (hk.trans hdepth)
    have hdefine := hdefine hm.global (hn.trans hkeep.symm)
    rw [← hn] at hg
    simp only [Machine.global, Scopes.holder?_global] at hb hdefine ⊢
    generalize m'.scopes.own? 0 r'.name.lexeme = o' at hg
    rw [hn] at hg
    generalize m.scopes.own? 0 r.name.lexeme = o at hg hb
    cases hg with
    | none => exact hm.undefined hr.name.line hn (hb rfl)
    | some => exact hdefine

end Match

end Lox.Simulation
