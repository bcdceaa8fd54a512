import Lox.Proofs.Scoping.Respelling

/-!
# The scopes of a program that is accepted

On the walk through an accepted program the scopes around a place bind allowed names and
reserved words only, `super` is bound just outside of `this`, and no name is without a
definition but that of a variable in its own initializer. The scopes behind a statement
are as many as before it.
-/

set_option autoImplicit false

namespace Lox.Scoping

theorem Frame.binds_iff (f : Frame) (name : String) :
    f.binds name = true ↔ name ∈ f.map (·.1) := by
  induction f with
  | nil => simp [binds]
  | cons p f ih =>
    obtain ⟨n, b⟩ := p
    unfold binds at ih ⊢
    by_cases h : name = n
    · simp [h]
    · rw [List.lookup_cons, beq_eq_false_iff_ne.2 h]
      simp [ih, h]

theorem Frame.binds_congr {f g : Frame} {name : String} (h : g.lookup name = f.lookup name) :
    g.binds name = f.binds name :=
  congrArg Option.isSome h

theorem Frame.binds_of_rename {r : Renaming} {f : Frame} {name : String}
    (h : (f.rename r).binds name = true) : ∃ n, f.binds n = true ∧ r n = name := by
  rw [binds_iff, rename, List.map_map] at h
  obtain ⟨⟨n, b⟩, hn, rfl⟩ := List.mem_map.1 h
  exact ⟨n, (binds_iff f n).2 (List.mem_map.2 ⟨_, hn, rfl⟩), rfl⟩

theorem Frame.rename_keep (f : Frame) : f.rename .keep = f := by
  simp [rename]

theorem renamed_keep (n : Nat) (fs : Frames) (h : n = fs.length) :
    renamed (List.replicate n .keep) fs = fs := by
  subst h
  induction fs with
  | nil => rfl
  | cons f fs ih =>
    rw [List.length_cons, List.replicate_succ, renamed, Frame.rename_keep, ih]

/-- Declaring and defining a name says nothing of other names. -/
theorem Frame.lookup_declared (f : Frame) {name other : String} (h : other ≠ name) :
    (if f.binds name then f else (name, false) :: f).lookup other = f.lookup other := by
  split
  · rfl
  · rw [List.lookup_cons, beq_eq_false_iff_ne.2 h]

theorem Frame.lookup_bound (f : Frame) {name other : String} (h : other ≠ name) :
    List.lookup other ((name, true) :: (if f.binds name then f else (name, false) :: f)) =
      f.lookup other := by
  rw [List.lookup_cons, beq_eq_false_iff_ne.2 h, Frame.lookup_declared f h]

theorem depth?_binding (f : Frame) (fs : Frames) (name : String) :
    depth? (binding (f :: fs) name) name = some 0 := by
  simp [binding, define, declare, depth?_cons, Frame.binds]

theorem depth?_binding_of_ne (fs : Frames) {name other : String} (h : other ≠ name) :
    depth? (binding fs name) other = depth? fs other := by
  cases fs with
  | nil => rfl
  | cons f fs =>
    simp only [binding, declare, define, depth?_cons, Frame.binds_congr (Frame.lookup_bound f h)]

@[simp] theorem length_declare (fs : Frames) (name : String) :
    (declare fs name).length = fs.length := by
  cases fs <;> rfl

@[simp] theorem length_binding (fs : Frames) (name : String) :
    (binding fs name).length = fs.length := by
  cases fs <;> rfl

@[simp] theorem length_after (fs : Frames) (s : Stmt) : (after fs s).length = fs.length := by
  cases s <;> simp [after]

/-- A function has one scope for its parameters and its body. -/
theorem parameters_cons (f : Frame) (fs : Frames) (ps : List Token) :
    ∃ g, (parameters (f :: fs) ps).1 = g :: fs ∧
      (∀ name, f.binds name = true → g.binds name = true) ∧ ∀ p ∈ ps, g.binds p.lexeme = true := by
  induction ps generalizing f with
  | nil => exact ⟨f, rfl, fun _ h => h, nofun⟩
  | cons p ps ih =>
    obtain ⟨g, hg, hkeep, hps⟩ :=
      ih ((p.lexeme, true) :: (if f.binds p.lexeme then f else (p.lexeme, false) :: f))
    have hbound : g.binds p.lexeme = true := hkeep _ (by simp [Frame.binds])
    have hold (name : String) (hn : f.binds name = true) : g.binds name = true := by
      apply hkeep
      rw [Frame.binds_iff] at hn ⊢
      split
      · exact List.mem_cons_of_mem _ hn
      · exact List.mem_cons_of_mem _ (List.mem_cons_of_mem _ hn)
    have hall (q : Token) (hq : q ∈ p :: ps) : g.binds q.lexeme = true := by
      rcases List.mem_cons.1 hq with rfl | hq
      · exact hbound
      · exact hps q hq
    exact ⟨g, hg, hold, hall⟩

structure Framed (ok : String → Prop) (fs : Frames) : Prop where
  names : ∀ f ∈ fs, ∀ name, f.binds name = true → ok name ∨ name = "this" ∨ name = "super"
  reserved : ∀ f ∈ fs, f.lookup "this" ≠ some false ∧ f.lookup "super" ≠ some false
  outer : ∀ f ∈ fs.tail, ∀ name, f.lookup name ≠ some false
  super (d : Nat) (f : Frame) : fs[d]? = some f → f.binds "super" = true →
    ∃ d' g, d = d' + 1 ∧ fs[d']? = some g ∧ g.lookup "this" = some true

def Settled (fs : Frames) : Prop := ∀ f ∈ fs, ∀ name, f.lookup name ≠ some false

theorem Settled.nil : Settled [] := nofun

theorem Settled.binding {fs : Frames} (hs : Settled fs) (name : String) :
    Settled (binding fs name) := by
  cases fs with
  | nil => exact hs
  | cons f fs =>
    intro g hg other
    rcases List.mem_cons.1 hg with rfl | hg
    · by_cases he : other = name
      · rw [he, List.lookup_cons_self]
        simp
      · rw [Frame.lookup_bound f he]
        exact hs f List.mem_cons_self other
    · exact hs g (List.mem_cons_of_mem f hg) other

theorem Settled.push {fs : Frames} (hs : Settled fs) : Settled ([] :: fs) := by
  intro f hf name
  rcases List.mem_cons.1 hf with rfl | hf
  · simp
  · exact hs f hf name

/-- A scope that holds one name, as those of `this` and `super` do. -/
theorem Settled.single {fs : Frames} (hs : Settled fs) (name : String) :
    Settled ([(name, true)] :: fs) := by
  intro f hf other
  rcases List.mem_cons.1 hf with rfl | hf
  · rw [List.lookup_cons]
    split <;> simp
  · exact hs f hf other

theorem Settled.after {fs : Frames} (hs : Settled fs) (s : Stmt) : Settled (after fs s) := by
  cases s with
  | var x _ => exact hs.binding _
  | function f => exact hs.binding _
  | «class» x _ _ => exact hs.binding _
  | _ => exact hs

theorem Settled.parameters {fs : Frames} (hs : Settled fs) (ps : List Token) :
    Settled (parameters fs ps).1 := by
  induction ps generalizing fs with
  | nil => exact hs
  | cons p ps ih => exact ih (hs.binding p.lexeme)

namespace Framed

variable {ok : String → Prop} {fs : Frames} {f g : Frame} {name : String}

theorem nil : Framed ok [] := ⟨nofun, nofun, nofun, nofun⟩

/-- Only the names of the innermost scope change, and no reserved word. -/
theorem replace (h : Framed ok (f :: fs))
    (hn : ∀ name, g.binds name = true → ok name ∨ name = "this" ∨ name = "super")
    (ht : g.lookup "this" = f.lookup "this") (hs : g.lookup "super" = f.lookup "super") :
    Framed ok (g :: fs) where
  names := by
    intro f' hf'
    rcases List.mem_cons.1 hf' with rfl | hf'
    · exact hn
    · exact h.names f' (List.mem_cons_of_mem f hf')
  reserved := by
    intro f' hf'
    rcases List.mem_cons.1 hf' with rfl | hf'
    · rw [ht, hs]
      exact h.reserved f List.mem_cons_self
    · exact h.reserved f' (List.mem_cons_of_mem f hf')
  outer := h.outer
  super := by
    intro d f' hf' hb
    cases d with
    | zero =>
      cases hf'
      have hb' : f.binds "super" = true := (Frame.binds_congr hs).symm.trans hb
      obtain ⟨d', -, he, -⟩ := h.super 0 f rfl hb'
      cases he
    | succ d =>
      obtain ⟨d', g', he, hg', ht'⟩ := h.super (d + 1) f' hf' hb
      cases d' with
      | zero =>
        cases hg'
        exact ⟨0, g, he, rfl, ht ▸ ht'⟩
      | succ d' => exact ⟨d' + 1, g', he, hg', ht'⟩

theorem declare (h : Framed ok fs) (hok : ∀ n, ok n → n ≠ "this" ∧ n ≠ "super")
    (hn : ok name) : Framed ok (declare fs name) := by
  cases fs with
  | nil => exact h
  | cons f fs =>
    apply h.replace
    · intro other hb
      by_cases he : other = name
      · exact .inl (he ▸ hn)
      · rw [Frame.binds_congr (Frame.lookup_declared f he)] at hb
        exact h.names f List.mem_cons_self other hb
    · exact Frame.lookup_declared f (hok name hn).1.symm
    · exact Frame.lookup_declared f (hok name hn).2.symm

theorem binding (h : Framed ok fs) (hok : ∀ n, ok n → n ≠ "this" ∧ n ≠ "super")
    (hn : ok name) : Framed ok (binding fs name) := by
  cases fs with
  | nil => exact h
  | cons f fs =>
    apply h.replace
    · intro other hb
      by_cases he : other = name
      · exact .inl (he ▸ hn)
      · rw [Frame.binds_congr (Frame.lookup_bound f he)] at hb
        exact h.names f List.mem_cons_self other hb
    · exact Frame.lookup_bound f (hok name hn).1.symm
    · exact Frame.lookup_bound f (hok name hn).2.symm

/-- A scope without `super` inside scopes in which all is defined. -/
theorem push (h : Framed ok fs) (hs : Settled fs)
    (hn : ∀ name, f.binds name = true → ok name ∨ name = "this" ∨ name = "super")
    (hf : f.lookup "this" ≠ some false) (hsuper : f.lookup "super" = none) :
    Framed ok (f :: fs) where
  names := by
    intro f' hf'
    rcases List.mem_cons.1 hf' with rfl | hf'
    · exact hn
    · exact h.names f' hf'
  reserved := by
    intro f' hf'
    rcases List.mem_cons.1 hf' with rfl | hf'
    · exact ⟨hf, by simp [hsuper]⟩
    · exact h.reserved f' hf'
  outer := hs
  super := by
    intro d f' hf' hb
    cases d with
    | zero =>
      cases hf'
      simp [Frame.binds, hsuper] at hb
    | succ d =>
      obtain ⟨d', g', rfl, hg', ht'⟩ := h.super d f' hf' hb
      exact ⟨d' + 1, g', rfl, hg', ht'⟩

theorem pushEmpty (h : Framed ok fs) (hs : Settled fs) : Framed ok ([] :: fs) :=
  h.push hs (by simp [Frame.binds]) (by simp) rfl

theorem pushThis (h : Framed ok fs) (hs : Settled fs) : Framed ok ([("this", true)] :: fs) := by
  apply h.push hs _ (by decide) (by decide)
  intro name hb
  rw [Frame.binds_iff] at hb
  exact .inr (.inl (List.mem_singleton.1 hb))

/-- The scopes around the methods of a class with a superclass. -/
theorem pushSuper (h : Framed ok fs) (hs : Settled fs) :
    Framed ok ([("this", true)] :: [("super", true)] :: fs) where
  names := by
    intro f hf name hb
    rw [Frame.binds_iff] at hb
    rcases List.mem_cons.1 hf with rfl | hf
    · exact .inr (.inl (List.mem_singleton.1 hb))
    rcases List.mem_cons.1 hf with rfl | hf
    · exact .inr (.inr (List.mem_singleton.1 hb))
    · exact h.names f hf name ((Frame.binds_iff f name).2 hb)
  reserved := by
    intro f hf
    rcases List.mem_cons.1 hf with rfl | hf
    · decide
    rcases List.mem_cons.1 hf with rfl | hf
    · decide
    · exact h.reserved f hf
  outer := hs.single "super"
  super := by
    intro d f hf hb
    match d with
    | 0 =>
      cases hf
      simp [Frame.binds, List.lookup_cons] at hb
    | 1 => exact ⟨0, _, rfl, rfl, rfl⟩
    | d + 2 =>
      obtain ⟨d', g, rfl, hg, ht⟩ := h.super d f hf hb
      exact ⟨d' + 2, g, rfl, hg, ht⟩

theorem parameters (h : Framed ok fs) (hok : ∀ n, ok n → n ≠ "this" ∧ n ≠ "super")
    {ps : List Token} (hps : ∀ p ∈ ps, ok p.lexeme) : Framed ok (parameters fs ps).1 := by
  induction ps generalizing fs with
  | nil => exact h
  | cons p ps ih =>
    exact ih (h.binding hok (hps p List.mem_cons_self)) fun q hq =>
      hps q (List.mem_cons_of_mem p hq)

end Framed

end Lox.Scoping
