import Lox.Proofs.Layout.Scoping
import Lox.Proofs.Simulation.Related

/-!
# Scopes that correspond

On the one side a program is run as it is parsed, on the other in some layout. Where both have
a scope the two correspond; besides, each side has scopes of its own, in which nothing is ever
bound. A world keeps the scopes that correspond, what encloses them, and the depths that are
known on each side. Values are twins if they differ in the scopes of closures only, and what
stands around a closure on either side is known there. Worlds only grow, and what holds in a
world holds in all later ones.
-/

set_option autoImplicit false

namespace Lox

namespace Scoping

theorem Accepts.mono {known known' : Known} (h : ∀ r d, known r d → known' r d)
    {found : List Finding} (ha : Accepts known found) : Accepts known' found := by
  intro g hg
  cases g with
  | fault d => exact ha _ hg
  | lookup r d => exact h r d (ha _ hg)

theorem depth?_declare_of_ne (fs : Frames) {name other : String} (h : other ≠ name) :
    depth? (declare fs name) other = depth? fs other := by
  cases fs with
  | nil => rfl
  | cons f fs => simp only [declare, depth?_cons, Frame.binds_congr (Frame.lookup_declared f h)]

/-- Inside a class with a superclass the scope of `this` is the one just inside of `super`. -/
def Aware (ctx : Context) (fs : Frames) : Prop :=
  ctx.family = .subclass → ∃ d, depth? fs "this" = some d ∧ depth? fs "super" = some (d + 1)

namespace Aware

variable {ctx : Context} {fs : Frames} {name : String}

theorem push (h : Aware ctx fs) : Aware ctx ([] :: fs) := by
  intro hc
  obtain ⟨d, hthis, hsuper⟩ := h hc
  exact ⟨d + 1, by simp [depth?_cons, Frame.binds, hthis], by simp [depth?_cons, Frame.binds, hsuper]⟩

theorem declare (h : Aware ctx fs) (hn : Free name) : Aware ctx (declare fs name) := by
  have hthis : "this" ≠ name := (hn.ne .this).symm
  have hsuper : "super" ≠ name := (hn.ne .super).symm
  unfold Aware
  rwa [depth?_declare_of_ne fs hthis, depth?_declare_of_ne fs hsuper]

theorem binding (h : Aware ctx fs) (hn : Free name) : Aware ctx (binding fs name) := by
  have hthis : "this" ≠ name := (hn.ne .this).symm
  have hsuper : "super" ≠ name := (hn.ne .super).symm
  unfold Aware
  rwa [depth?_binding_of_ne fs hthis, depth?_binding_of_ne fs hsuper]

theorem after {s : Stmt} (h : Aware ctx fs) (hs : s.Formed Free) : Aware ctx (after fs s) := by
  cases s with
  | var => exact h.binding hs.1
  | function f =>
    cases f with
    | mk => exact h.binding hs.1
  | «class» => exact h.binding hs.1
  | _ => exact h

theorem parameters {ps : List Token} (h : Aware ctx fs) (hps : ∀ p ∈ ps, Free p.lexeme) :
    Aware ctx (parameters fs ps).1 := by
  induction ps generalizing fs with
  | nil => exact h
  | cons p ps ih =>
    rw [List.forall_mem_cons] at hps
    exact ih (h.binding hps.1) hps.2

/-- The scopes around the methods of a class. -/
theorem methods (body : Body) (superclass : Option Reference) :
    Aware ⟨body, if superclass.isSome then .subclass else .class⟩ (methodFrames fs superclass) := by
  cases superclass with
  | none => exact nofun
  | some r => exact fun _ => ⟨0, rfl, rfl⟩

end Aware

end Scoping

namespace Layout

open Scoping

structure World where
  pair : Nat → Nat → Prop
  outer : Nat → Nat → Prop
  outer' : Nat → Nat → Prop
  known : Known
  known' : Known

structure World.Extends (w w' : World) : Prop where
  pair (i i' : Nat) : w.pair i i' → w'.pair i i'
  outer (i p : Nat) : w.outer i p → w'.outer i p
  outer' (i p : Nat) : w.outer' i p → w'.outer' i p
  known (r : Reference) (d : Option Nat) : w.known r d → w'.known r d
  known' (r : Reference) (d : Option Nat) : w.known' r d → w'.known' r d

namespace World

theorem Extends.refl (w : World) : w.Extends w :=
  ⟨fun _ _ h => h, fun _ _ h => h, fun _ _ h => h, fun _ _ h => h, fun _ _ h => h⟩

theorem Extends.trans {w w' w'' : World} (h : w.Extends w') (h' : w'.Extends w'') :
    w.Extends w'' where
  pair i i' hp := h'.pair i i' (h.pair i i' hp)
  outer i p ho := h'.outer i p (h.outer i p ho)
  outer' i p ho := h'.outer' i p (h.outer' i p ho)
  known r d hk := h'.known r d (h.known r d hk)
  known' r d hk := h'.known' r d (h.known' r d hk)

/-- A new scope of the first side. -/
def link (w : World) (i p : Nat) : World :=
  { w with outer := fun j q => w.outer j q ∨ (j = i ∧ q = p) }

/-- A new scope of the second side. -/
def link' (w : World) (i p : Nat) : World :=
  { w with outer' := fun j q => w.outer' j q ∨ (j = i ∧ q = p) }

/-- Let two scopes correspond. -/
def join (w : World) (i i' : Nat) : World :=
  { w with pair := fun j j' => w.pair j j' ∨ (j = i ∧ j' = i') }

theorem extends_link (w : World) (i p : Nat) : w.Extends (w.link i p) :=
  { Extends.refl w with outer := fun _ _ h => .inl h }

theorem extends_link' (w : World) (i p : Nat) : w.Extends (w.link' i p) :=
  { Extends.refl w with outer' := fun _ _ h => .inl h }

theorem extends_join (w : World) (i i' : Nat) : w.Extends (w.join i i') :=
  { Extends.refl w with pair := fun _ _ h => .inl h }

/-- New scopes on both sides, which correspond. -/
def push (w : World) (i p i' p' : Nat) : World := ((w.link i p).link' i' p').join i i'

theorem extends_push (w : World) (i p i' p' : Nat) : w.Extends (w.push i p i' p') :=
  ((w.extends_link i p).trans (extends_link' _ i' p')).trans (extends_join _ i i')

end World

/-- The scopes around a place on both sides: scopes that correspond have the same names in
them, and those that only one side has are empty. -/
inductive Around (w : World) : Frames → Frames → Nat → Nat → Prop
  | global : Around w [] [] Machine.global Machine.global
  | both {f : Frame} {fs fs' : Frames} {i i' p p' : Nat} (hp : w.pair i i') (ho : w.outer i p)
      (ho' : w.outer' i' p') (h : Around w fs fs' p p') : Around w (f :: fs) (f :: fs') i i'
  | left {fs fs' : Frames} {i i' p : Nat} (ho : w.outer i p) (h : Around w fs fs' p i') :
      Around w ([] :: fs) fs' i i'
  | right {fs fs' : Frames} {i i' p' : Nat} (ho' : w.outer' i' p') (h : Around w fs fs' i p') :
      Around w fs ([] :: fs') i i'

/-- A place where names may be declared: its innermost scopes correspond. -/
inductive Level (w : World) : Frames → Frames → Nat → Nat → Prop
  | global : Level w [] [] Machine.global Machine.global
  | both {f : Frame} {fs fs' : Frames} {i i' p p' : Nat} (hp : w.pair i i') (ho : w.outer i p)
      (ho' : w.outer' i' p') (h : Around w fs fs' p p') : Level w (f :: fs) (f :: fs') i i'

section Places

variable {w w' : World} {fs fs' : Frames} {i i' : Nat} {ctx : Context}

theorem Around.mono (hw : w.Extends w') (h : Around w fs fs' i i') : Around w' fs fs' i i' := by
  induction h with
  | global => exact .global
  | both hp ho ho' _ ih => exact .both (hw.pair _ _ hp) (hw.outer _ _ ho) (hw.outer' _ _ ho') ih
  | left ho _ ih => exact .left (hw.outer _ _ ho) ih
  | right ho' _ ih => exact .right (hw.outer' _ _ ho') ih

namespace Level

theorem around (h : Level w fs fs' i i') : Around w fs fs' i i' := by
  cases h with
  | global => exact .global
  | both hp ho ho' h => exact .both hp ho ho' h

theorem mono (hw : w.Extends w') (h : Level w fs fs' i i') : Level w' fs fs' i i' := by
  cases h with
  | global => exact .global
  | both hp ho ho' h => exact .both (hw.pair _ _ hp) (hw.outer _ _ ho) (hw.outer' _ _ ho') (h.mono hw)

theorem declare (h : Level w fs fs' i i') (name : String) :
    Level w (declare fs name) (declare fs' name) i i' := by
  cases h with
  | global => exact .global
  | both hp ho ho' h => exact .both hp ho ho' h

theorem binding (h : Level w fs fs' i i') (name : String) :
    Level w (binding fs name) (binding fs' name) i i' := by
  cases h with
  | global => exact .global
  | both hp ho ho' h => exact .both hp ho ho' h

theorem after (h : Level w fs fs' i i') (s : Stmt) : Level w (after fs s) (after fs' s) i i' := by
  cases s with
  | var | function | «class» => exact h.binding _
  | _ => exact h

theorem parameters (h : Level w fs fs' i i') (ps : List Token) :
    Level w (parameters fs ps).1 (parameters fs' ps).1 i i' := by
  induction ps generalizing fs fs' with
  | nil => exact h
  | cons p ps ih => exact ih (h.binding p.lexeme)

end Level

/-- The scopes around a place in a program on both sides. -/
structure Site (w : World) (ctx : Context) (fs fs' : Frames) (i i' : Nat) : Prop where
  around : Around w fs fs' i i'
  aware : Aware ctx fs
  aware' : Aware ctx fs'

namespace Site

theorem mono (hw : w.Extends w') (h : Site w ctx fs fs' i i') : Site w' ctx fs fs' i i' :=
  { h with around := h.around.mono hw }

theorem declare (h : Site w ctx fs fs' i i') (hl : Level w fs fs' i i') {name : String}
    (hn : Free name) : Site w ctx (declare fs name) (declare fs' name) i i' :=
  ⟨(hl.declare name).around, h.aware.declare hn, h.aware'.declare hn⟩

theorem binding (h : Site w ctx fs fs' i i') (hl : Level w fs fs' i i') {name : String}
    (hn : Free name) : Site w ctx (binding fs name) (binding fs' name) i i' :=
  ⟨(hl.binding name).around, h.aware.binding hn, h.aware'.binding hn⟩

theorem after {s : Stmt} (h : Site w ctx fs fs' i i') (hl : s.plain = false → Level w fs fs' i i')
    (hs : s.Formed Free) : Site w ctx (after fs s) (after fs' s) i i' := by
  refine ⟨?_, h.aware.after hs, h.aware'.after hs⟩
  cases hp : s.plain with
  | true =>
    rw [after_plain hp, after_plain hp]
    exact h.around
  | false => exact ((hl hp).after s).around

end Site

end Places

/-- What scoping finds on the two sides is no fault, and the depths are known. -/
structure Fit (w : World) (found found' : List Finding) : Prop where
  left : Accepts w.known found
  right : Accepts w.known' found'

theorem Fit.append {w : World} {a b a' b' : List Finding} (h : Fit w (a ++ b) (a' ++ b')) :
    Fit w a a' ∧ Fit w b b' := by
  have hl := accepts_append.1 h.left
  have hr := accepts_append.1 h.right
  exact ⟨⟨hl.1, hr.1⟩, ⟨hl.2, hr.2⟩⟩

theorem Fit.mono {w w' : World} (hw : w.Extends w') {found found' : List Finding}
    (h : Fit w found found') : Fit w' found found' :=
  ⟨h.left.mono hw.known, h.right.mono hw.known'⟩

section Twins

variable (l : Layout) (w : World)

/-- Closures of the same declaration, which stands inside the scopes given and those around. -/
structure ClosureTwin (inside : Frames) (c c' : Closure) : Prop where
  declaration : c'.declaration = c.declaration
  isInitializer : c'.isInitializer = c.isInitializer
  formed : c.declaration.Formed Free
  declared : ∃ ctx body fs fs', Level w fs fs' c.scope c'.scope ∧ Aware ctx (inside ++ fs) ∧
    Aware ctx (inside ++ fs') ∧ Fit w (Scoping.function ctx (inside ++ fs) body c.declaration)
      (l.function ctx (inside ++ fs') body c.declaration)

/-- Around the declaration of a method there is a scope with `this` that is not made yet. -/
abbrev MethodTwin : Closure → Closure → Prop := ClosureTwin l w [[("this", true)]]

inductive ValueTwin : Value → Value → Prop
  | plain {v : Value} (hv : v.plain = true) : ValueTwin v v
  | function {id : Nat} {c c' : Closure} (hc : ClosureTwin l w [] c c') :
      ValueTwin (.function id c) (.function id c')
  | class {c c' : Class} (hc : Class.Related (MethodTwin l w) c c') :
      ValueTwin (.class c) (.class c')
  | instance {id : Nat} {c c' : Class} (hc : Class.Related (MethodTwin l w) c c') :
      ValueTwin (.instance id c) (.instance id c')

end Twins

section Growing

variable {l : Layout} {w w' : World} (hw : w.Extends w')

include hw

theorem ClosureTwin.mono {inside : Frames} {c c' : Closure} (h : ClosureTwin l w inside c c') :
    ClosureTwin l w' inside c c' := by
  obtain ⟨ctx, body, fs, fs', hl, ha, ha', hf⟩ := h.declared
  exact ⟨h.declaration, h.isInitializer, h.formed, ctx, body, fs, fs', hl.mono hw, ha, ha', hf.mono hw⟩

theorem related_mono {c c' : Class} (h : Class.Related (MethodTwin l w) c c') :
    Class.Related (MethodTwin l w') c c' := h.imp fun _ _ hm => hm.mono hw

theorem ValueTwin.mono {v v' : Value} (h : ValueTwin l w v v') : ValueTwin l w' v v' := by
  cases h with
  | plain hv => exact .plain hv
  | function hc => exact .function (hc.mono hw)
  | «class» hc => exact .class (related_mono hw hc)
  | «instance» hc => exact .instance (related_mono hw hc)

end Growing

namespace ClosureTwin

variable {l : Layout} {w : World} {inside : Frames} {c c' : Closure}

theorem name (h : ClosureTwin l w inside c c') : c'.name = c.name := by
  rw [Closure.name, h.declaration, Closure.name]

theorem arity (h : ClosureTwin l w inside c c') : c'.arity = c.arity := by
  rw [Closure.arity, h.declaration, Closure.arity]

end ClosureTwin

/-- Twins are told apart by the scopes of closures only. -/
theorem ValueTwin.alike {l : Layout} {w : World} {v v' : Value} (h : ValueTwin l w v v') :
    Simulation.Alike v v' := by
  cases h with
  | plain hv => exact .plain hv
  | function hc => exact .function hc.name hc.arity
  | «class» hc => exact .class hc.body.id hc.name (hc.arity fun _ _ hm => hm.arity)
  | «instance» hc => exact .instance hc.name

end Layout

end Lox
