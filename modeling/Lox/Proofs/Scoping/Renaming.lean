import Mathlib.Logic.Equiv.Basic
import Lox.Scoping

/-!
# Renaming the names of scopes

A renaming of one scope is injective and leaves `this` and `super` alone. The scopes
around a place are renamed each by its own. What the scopes say of a name is what the
renamed scopes say of the new name, as long as the new name is captured by no scope
further in.
-/

set_option autoImplicit false

namespace Lox.Scoping

structure Renaming where
  apply : String → String
  injective : Function.Injective apply
  apply_this : apply "this" = "this"
  apply_super : apply "super" = "super"

namespace Renaming

instance : CoeFun Renaming fun _ => String → String := ⟨apply⟩

def keep : Renaming := ⟨id, Function.injective_id, rfl, rfl⟩

@[simp] theorem keep_apply (name : String) : keep name = name := rfl

/-- Exchange two names, neither of which is reserved. -/
def swap (x y : String) (hx : x ∉ ["this", "super"]) (hy : y ∉ ["this", "super"]) : Renaming where
  apply := Equiv.swap x y
  injective := (Equiv.swap x y).injective
  apply_this := Equiv.swap_apply_of_ne_of_ne (by grind) (by grind)
  apply_super := Equiv.swap_apply_of_ne_of_ne (by grind) (by grind)

end Renaming

def Frame.rename (r : Renaming) (f : Frame) : Frame := f.map fun p => (r p.1, p.2)

theorem Frame.lookup_rename (r : Renaming) (f : Frame) (name : String) :
    (f.rename r).lookup (r name) = f.lookup name := by
  induction f with
  | nil => rfl
  | cons p f ih =>
    obtain ⟨n, b⟩ := p
    have hn : (r name == r n) = (name == n) := by
      rw [Bool.eq_iff_iff, beq_iff_eq, beq_iff_eq]
      exact r.injective.eq_iff
    have ih : List.lookup (r name) (List.map (fun p => (r p.1, p.2)) f) = f.lookup name := ih
    simp only [Frame.rename, List.map_cons, List.lookup_cons, hn, ih]

theorem Frame.binds_rename (r : Renaming) (f : Frame) (name : String) :
    (f.rename r).binds (r name) = f.binds name := by
  simp only [Frame.binds, Frame.lookup_rename]

/-- Each scope under its own renaming. -/
def renamed : List Renaming → Frames → Frames
  | r :: rs, f :: fs => f.rename r :: renamed rs fs
  | [], fs => fs
  | _ :: _, [] => []

/-- The new name of what the innermost scope declares. Outside of all scopes names stay. -/
def ownName (rs : List Renaming) (name : String) : String :=
  match rs with
  | [] => name
  | r :: _ => r name

/-- The new name of an occurrence: the one it has in the scope that binds it. -/
def newName (rs : List Renaming) (fs : Frames) (name : String) : String :=
  match depth? fs name with
  | some d => ((rs[d]?).getD .keep) name
  | none => name

theorem newName_of_some {rs : List Renaming} {fs : Frames} {name : String} {d : Nat} {r : Renaming}
    (hd : depth? fs name = some d) (hr : rs[d]? = some r) : newName rs fs name = r name := by
  simp only [newName, hd, hr, Option.getD_some]

theorem newName_of_none {rs : List Renaming} {fs : Frames} {name : String}
    (hd : depth? fs name = none) : newName rs fs name = name := by
  simp only [newName, hd]

theorem depth?_cons (f : Frame) (fs : Frames) (name : String) :
    depth? (f :: fs) name = if f.binds name then some 0 else (depth? fs name).map (· + 1) := by
  simp only [depth?, List.findIdx?_cons]

theorem lookup_of_depth {fs : Frames} {name : String} {d : Nat} (h : depth? fs name = some d) :
    ∃ f, fs[d]? = some f ∧ f.binds name = true := by
  obtain ⟨hd, hb, -⟩ := List.findIdx?_eq_some_iff_getElem.1 h
  exact ⟨fs[d], by simp [hd], hb⟩

theorem renamed_define (rs : List Renaming) (fs : Frames) (name : String) :
    renamed rs (define fs name) = define (renamed rs fs) (ownName rs name) := by
  cases rs with
  | nil => cases fs <;> rfl
  | cons r rs => cases fs <;> rfl

theorem renamed_declare (rs : List Renaming) (fs : Frames) (name : String) :
    renamed rs (declare fs name) = declare (renamed rs fs) (ownName rs name) := by
  cases rs with
  | nil => cases fs <;> rfl
  | cons r rs =>
    cases fs with
    | nil => rfl
    | cons f fs =>
      simp only [declare, renamed, ownName, Frame.binds_rename]
      split <;> rfl

theorem redeclares_renamed (rs : List Renaming) (fs : Frames) (name : String) :
    redeclares (renamed rs fs) (ownName rs name) = redeclares fs name := by
  cases rs with
  | nil => cases fs <;> rfl
  | cons r rs =>
    cases fs with
    | nil => rfl
    | cons f fs => simp [redeclares, renamed, ownName, Frame.binds_rename]

end Lox.Scoping
