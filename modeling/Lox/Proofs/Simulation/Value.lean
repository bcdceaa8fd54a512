import Lox.Proofs.Scoping.Transfer
import Lox.Proofs.Simulation.World

/-!
# Operations on twin values

No operation on values tells twins apart, and what it makes of them holds no code. A
method is found in a class if and only if a twin of it is found in the twin of the class.
A function of the host is sealed if it cannot look into the code of closures and hands
out only plain values and its own arguments.
-/

set_option autoImplicit false

namespace Lox.Simulation

open Scoping

/-- Values that only the code of closures tells apart. -/
inductive Alike : Value → Value → Prop
  | plain {v : Value} (hv : v.plain = true) : Alike v v
  | function {id : Nat} {c c' : Closure} (hn : c'.name = c.name) (ha : c'.arity = c.arity) :
      Alike (.function id c) (.function id c')
  | class {c c' : Class} (hi : c'.body.id = c.body.id) (hn : c'.name = c.name)
      (ha : c'.arity = c.arity) : Alike (.class c) (.class c')
  | instance {id : Nat} {c c' : Class} (hn : c'.name = c.name) :
      Alike (.instance id c) (.instance id c')

namespace Alike

variable {v v' u u' : Value}

theorem truthy (h : Alike v v') : v'.truthy = v.truthy := by
  cases h <;> rfl

theorem text (h : Alike v v') : v'.text = v.text := by
  cases h with
  | plain hv => rfl
  | function hn => exact congrArg (fun s => "<fn " ++ s ++ ">") hn
  | «class» _ hn => exact hn
  | «instance» hn => exact congrArg (· ++ " instance") hn

theorem arity? (h : Alike v v') : v'.arity? = v.arity? := by
  cases h with
  | plain hv => rfl
  | function _ ha => exact congrArg some ha
  | «class» _ _ ha => exact congrArg some ha
  | «instance» => rfl

theorem equals (hv : Alike v v') (hu : Alike u u') :
    v'.equals u' = v.equals u := by
  cases hv with
  | plain hv =>
    cases hu with
    | plain => rfl
    | _ => cases v <;> first | rfl | cases hv
  | function =>
    cases hu with
    | plain hu => cases u <;> rfl
    | _ => rfl
  | «class» hi =>
    cases hu with
    | plain hu => cases u <;> first | rfl | cases hu
    | «class» hj => simp only [Value.equals, hi, hj]
    | _ => rfl
  | «instance» =>
    cases hu with
    | plain hu => cases u <;> rfl
    | _ => rfl

theorem unary (k : Kind) (h : Alike v v') :
    Operation.unary k v' = Operation.unary k v := by
  cases h with
  | plain hv => rfl
  | _ => unfold Operation.unary; split <;> simp_all [Value.truthy]

theorem add (hv : Alike v v') (hu : Alike u u') :
    Operation.add v' u' = Operation.add v u := by
  cases hv <;> cases hu <;> first | rfl | (cases v <;> rfl)

theorem numeric (f : Float → Float → Except RuntimeCause Value) (hv : Alike v v')
    (hu : Alike u u') : Operation.numeric f v' u' = Operation.numeric f v u := by
  cases hv <;> cases hu <;> first | rfl | (cases v <;> rfl)

theorem binary (k : Kind) (hv : Alike v v') (hu : Alike u u') :
    Operation.binary k v' u' = Operation.binary k v u := by
  unfold Operation.binary
  simp only [hv.equals hu, hv.add hu, hv.numeric _ hu]

end Alike

/-- What a sealed function of the host makes of arguments, once for each of two lists. -/
inductive Answer (args args' : List Value) : Except String Value → Except String Value → Prop
  | message (s : String) : Answer args args' (.error s) (.error s)
  | plain {v : Value} (hv : v.plain = true) : Answer args args' (.ok v) (.ok v)
  | argument {i : Nat} {v v' : Value} (hv : args[i]? = some v) (hv' : args'[i]? = some v') :
      Answer args args' (.ok v) (.ok v')

def Sealed (f : Host) : Prop :=
  ∀ args args', List.Forall₂ Alike args args' → Answer args args' (f args) (f args')

variable {link : Link} {w : World}

namespace ClosureTwin

variable {inside : Frames} {c c' : Closure}

theorem name (h : ClosureTwin link w inside c c') : c'.name = c.name := by
  obtain ⟨rs, fs, -, -, ht⟩ := h.declared
  exact ht.outline.1.lexeme

theorem arity (h : ClosureTwin link w inside c c') : c'.arity = c.arity := by
  obtain ⟨rs, fs, -, -, ht⟩ := h.declared
  exact ht.outline.2

end ClosureTwin

theorem ClassBodyTwin.related {b b' : ClassBody} (h : ClassBodyTwin link w b b') :
    ClassBody.Related (MethodTwin link w) b b' :=
  ⟨h.id, h.name, h.methods⟩

namespace ClassTwin

variable {c c' : Class}

theorem name (h : ClassTwin link w c c') : c'.name = c.name := h.body.name

theorem related (h : ClassTwin link w c c') : Class.Related (MethodTwin link w) c c' :=
  ⟨h.body.related, h.ancestors.imp fun _ _ hb => hb.related⟩

theorem findMethod? (h : ClassTwin link w c c') (name : String) :
    Option.Rel (MethodTwin link w) (c.findMethod? name) (c'.findMethod? name) :=
  h.related.findMethod? name

theorem arity (h : ClassTwin link w c c') : c'.arity = c.arity :=
  h.related.arity fun _ _ hc => hc.arity

/-- A class derived from twins, or from none. -/
theorem derive {b b' : ClassBody} (hb : ClassBodyTwin link w b b') {p p' : Option Class}
    (hp : Option.Rel (ClassTwin link w) p p') :
    ClassTwin link w (.derive b p) (.derive b' p') := by
  cases hp with
  | none => exact ⟨hb, .nil⟩
  | some hp => exact ⟨hb, .cons hp.body hp.ancestors⟩

end ClassTwin

namespace ValueTwin

variable {v v' u u' : Value}

theorem alike (h : ValueTwin link w v v') : Alike v v' := by
  cases h with
  | plain hv => exact .plain hv
  | function hc => exact .function hc.name hc.arity
  | «class» hc => exact .class hc.body.id hc.name hc.arity
  | «instance» hc => exact .instance hc.name

theorem truthy (h : ValueTwin link w v v') : v'.truthy = v.truthy := h.alike.truthy

theorem text (h : ValueTwin link w v v') : v'.text = v.text := h.alike.text

theorem arity? (h : ValueTwin link w v v') : v'.arity? = v.arity? := h.alike.arity?

theorem unary (k : Kind) (h : ValueTwin link w v v') :
    Operation.unary k v' = Operation.unary k v := h.alike.unary k

theorem binary (k : Kind) (hv : ValueTwin link w v v') (hu : ValueTwin link w u u') :
    Operation.binary k v' u' = Operation.binary k v u := hv.alike.binary k hu.alike

end ValueTwin

theorem Models.keep (hw : ∀ i, w.names i = .keep) {rs : List Renaming} {fs : Frames} {i : Nat} (hm : Models w rs fs i) :
    ∀ r ∈ rs, r = .keep := by
  induction rs generalizing fs i with
  | nil => exact nofun
  | cons r rs ih =>
    cases fs with
    | nil => exact hm.elim
    | cons f fs =>
      obtain ⟨rfl, -, p, -, hm⟩ := hm
      exact List.forall_mem_cons.2 ⟨hw i, ih hm⟩

section Rigid

variable (h : link.Rigid) (hw : ∀ i, w.names i = .keep)

include h hw

theorem ClosureTwin.eq {inside : Frames} {c c' : Closure} (hc : ClosureTwin link w inside c c') :
    c' = c := by
  obtain ⟨rs, fs, -, hm, ht⟩ := hc.declared
  have hkeep : ∀ r ∈ inside.map (fun _ => Renaming.keep) ++ rs, r = .keep := by
    intro r hr
    rcases List.mem_append.1 hr with hr | hr
    · obtain ⟨_, -, rfl⟩ := List.mem_map.1 hr
      rfl
    · exact hm.keep hw r hr
  obtain ⟨f, scope, init⟩ := c
  obtain ⟨f', scope', init'⟩ := c'
  have hf : f' = f := Code.function.inj (ht.eq h hkeep)
  have hscope : scope' = scope := hc.scope
  have hinit : init' = init := hc.isInitializer
  rw [hf, hscope, hinit]

theorem ClassBodyTwin.eq {b b' : ClassBody} (hb : ClassBodyTwin link w b b') : b' = b := by
  obtain ⟨id, name, ns⟩ := b
  obtain ⟨id', name', ns'⟩ := b'
  have hid : id' = id := hb.id
  have hname : name' = name := hb.name
  have hns : List.Forall₂ (· = ·) ns ns' :=
    hb.methods.imp fun _ _ hp => (Prod.ext hp.1 (hp.2.eq h hw)).symm
  rw [List.forall₂_eq_eq_eq] at hns
  rw [hid, hname, hns]

theorem ClassTwin.eq {c c' : Class} (hc : ClassTwin link w c c') : c' = c := by
  obtain ⟨b, bs⟩ := c
  obtain ⟨b', bs'⟩ := c'
  have hb : b' = b := hc.body.eq h hw
  have hbs : List.Forall₂ (· = ·) bs bs' := hc.ancestors.imp fun _ _ hb => (hb.eq h hw).symm
  rw [List.forall₂_eq_eq_eq] at hbs
  rw [hb, hbs]

/-- Where the link leaves no choice, the twin of a value is the value. -/
theorem ValueTwin.eq {v v' : Value} (hv : ValueTwin link w v v') : v' = v := by
  cases hv with
  | plain => rfl
  | function hc => rw [hc.toClosureTwin.eq h hw]
  | «class» hc => rw [hc.eq h hw]
  | «instance» hc => rw [hc.eq h hw]

end Rigid

theorem unary_plain {k : Kind} {v r : Value} (h : Operation.unary k v = .ok r) :
    r.plain = true := by
  unfold Operation.unary at h
  split at h <;> cases h <;> rfl

theorem binary_plain {k : Kind} {v u r : Value} (h : Operation.binary k v u = .ok r) :
    r.plain = true := by
  unfold Operation.binary Operation.add Operation.numeric Operation.divide at h
  split at h <;> (try split at h) <;> (try split at h) <;> cases h <;> rfl

/-- No operation is about a variable. -/
theorem unary_names (k : Kind) (v : Value) (name : String) :
    Operation.unary k v ≠ .error (.undefinedVariable name) := by
  unfold Operation.unary
  split <;> simp

theorem binary_names (k : Kind) (v u : Value) (name : String) :
    Operation.binary k v u ≠ .error (.undefinedVariable name) := by
  unfold Operation.binary Operation.add Operation.numeric Operation.divide
  split <;> (try split) <;> (try split) <;> simp

end Lox.Simulation
