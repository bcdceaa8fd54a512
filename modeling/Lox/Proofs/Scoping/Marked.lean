import Lox.Proofs.Scoping.Framed

/-!
# Renaming one of the scopes around

All scopes keep their names but one, `k` scopes out. A new name that is not in use is
captured by no scope, so each occurrence is found at the same depth as before.
-/

set_option autoImplicit false

namespace Lox.Scoping

/-- Of `n` scopes the one at index `k` is renamed. -/
def marks (σ : Renaming) (k n : Nat) : List Renaming := (List.replicate n .keep).set k σ

/-- A renaming and a spelling that agree on the names in use, where every name that
changes becomes one that is not in use. -/
structure Suits (ok : String → Prop) (σ : Renaming) (spelling : String → String) : Prop where
  reserved (name : String) : ok name → name ≠ "this" ∧ name ≠ "super"
  spells (name : String) : ok name → σ name = spelling name
  fresh (name : String) : ok name → spelling name = name ∨ ¬ ok (spelling name)

variable {ok : String → Prop} {σ : Renaming} {spelling : String → String}

theorem marks_zero (σ : Renaming) (n : Nat) :
    marks σ 0 (n + 1) = σ :: List.replicate n .keep := rfl

theorem marks_succ (σ : Renaming) (k n : Nat) : marks σ (k + 1) (n + 1) = .keep :: marks σ k n := rfl

theorem marks_getElem? (σ : Renaming) {k d n : Nat} (h : d ≠ k) :
    (marks σ k n)[d]?.getD .keep = .keep := by
  rw [marks, List.getElem?_set_ne h.symm, List.getElem?_replicate]
  split <;> rfl

theorem marks_fixes (σ : Renaming) (k n : Nat) {name : String} (h : σ name = name) :
    ∀ r ∈ marks σ k n, r name = name := by
  intro r hr
  rcases List.mem_or_eq_of_mem_set hr with hr | rfl
  · rw [List.eq_of_mem_replicate hr, Renaming.keep_apply]
  · exact h

@[simp] theorem length_marks (σ : Renaming) (k n : Nat) : (marks σ k n).length = n := by
  simp [marks]

/-- A name that no scope changes is found where it was. -/
theorem depth?_renamed_of_fixed {rs : List Renaming} {fs : Frames} {name : String}
    (hlen : rs.length = fs.length) (h : ∀ r ∈ rs, r name = name) :
    depth? (renamed rs fs) name = depth? fs name := by
  induction fs generalizing rs with
  | nil =>
    obtain rfl := List.length_eq_zero_iff.1 hlen
    rfl
  | cons f fs ih =>
    obtain ⟨r, rs, rfl⟩ := List.exists_cons_of_length_eq_add_one hlen
    have hr := h r List.mem_cons_self
    have hb := Frame.binds_rename r f name
    rw [hr] at hb
    rw [renamed, depth?_cons, depth?_cons, hb,
      ih (Nat.succ.inj hlen) fun r' hr' => h r' (List.mem_cons_of_mem r hr')]

theorem newName_of_fixed {rs : List Renaming} {fs : Frames} {name : String}
    (h : ∀ r ∈ rs, r name = name) : newName rs fs name = name := by
  unfold newName
  split
  · rename_i d _
    cases hr : rs[d]? with
    | none => rfl
    | some r => exact h r (List.mem_of_getElem? hr)
  · rfl

theorem tail_names {f : Frame} {fs : Frames} (h : ∀ f' ∈ f :: fs, ∀ name, f'.binds name = true →
    ok name ∨ name = "this" ∨ name = "super") :
    ∀ f' ∈ fs, ∀ name, f'.binds name = true → ok name ∨ name = "this" ∨ name = "super" :=
  fun f' hf' => h f' (List.mem_cons_of_mem f hf')

namespace Suits

variable (h : Suits ok σ spelling) {fs : Frames} {name : String}

include h

/-- No name becomes a reserved word. -/
theorem spelling_reserved (hn : ok name) : spelling name ≠ "this" ∧ spelling name ≠ "super" := by
  obtain ⟨ht, hs⟩ := h.reserved name hn
  rw [← h.spells name hn]
  constructor
  · intro he
    exact ht (σ.injective (he.trans σ.apply_this.symm))
  · intro he
    exact hs (σ.injective (he.trans σ.apply_super.symm))

/-- No scope has the new name of a name that it has not. -/
theorem not_binds {f : Frame}
    (hf : ∀ name, f.binds name = true → ok name ∨ name = "this" ∨ name = "super")
    (hn : ok name) (hb : f.binds name = false) : f.binds (spelling name) = false := by
  rcases h.fresh name hn with he | he
  · rw [he]
    exact hb
  · by_contra hc
    rw [Bool.not_eq_false] at hc
    have hr := h.spelling_reserved hn
    rcases hf _ hc with hok | hok | hok
    · exact he hok
    · exact hr.1 hok
    · exact hr.2 hok

/-- The renamed scope has no name that it had not, but for those not in use. -/
theorem not_binds_rename {f : Frame}
    (hf : ∀ name, f.binds name = true → ok name ∨ name = "this" ∨ name = "super")
    (hn : ok name) (hb : f.binds name = false) : (f.rename σ).binds name = false := by
  by_contra hc
  rw [Bool.not_eq_false] at hc
  obtain ⟨n, hbn, hσ⟩ := Frame.binds_of_rename hc
  have hr := h.reserved name hn
  rcases hf n hbn with hok | rfl | rfl
  · have hspell := (h.spells n hok).symm.trans hσ
    rcases h.fresh n hok with he | he
    · rw [← hspell, he] at hb
      rw [hb] at hbn
      cases hbn
    · exact he (hspell ▸ hn)
  · exact hr.1 (hσ.symm.trans σ.apply_this)
  · exact hr.2 (hσ.symm.trans σ.apply_super)

theorem depth?_spelled {k : Nat}
    (hf : ∀ f ∈ fs, ∀ name, f.binds name = true → ok name ∨ name = "this" ∨ name = "super")
    (hn : ok name) (hd : depth? fs name = some k) :
    depth? (renamed (marks σ k fs.length) fs) (spelling name) = some k := by
  induction fs generalizing k with
  | nil => cases hd
  | cons f fs ih =>
    rw [depth?_cons] at hd
    by_cases hb : f.binds name = true
    · rw [if_pos hb] at hd
      cases hd
      rw [List.length_cons, marks_zero, renamed, depth?_cons, ← h.spells name hn,
        Frame.binds_rename, if_pos hb]
    · rw [if_neg hb] at hd
      obtain ⟨d, hfs, rfl⟩ := Option.map_eq_some_iff.1 hd
      have hnot := h.not_binds (hf f List.mem_cons_self) hn (Bool.eq_false_iff.2 hb)
      rw [List.length_cons, marks_succ, renamed, depth?_cons, Frame.rename_keep, hnot,
        ih (tail_names hf) hfs]
      rfl

theorem depth?_kept {k : Nat}
    (hf : ∀ f ∈ fs, ∀ name, f.binds name = true → ok name ∨ name = "this" ∨ name = "super")
    (hn : ok name) (hd : depth? fs name ≠ some k) :
    depth? (renamed (marks σ k fs.length) fs) name = depth? fs name := by
  induction fs generalizing k with
  | nil => rfl
  | cons f fs ih =>
    rw [depth?_cons] at hd ⊢
    cases k with
    | zero =>
      by_cases hb : f.binds name = true
      · rw [if_pos hb] at hd
        exact absurd rfl hd
      · have hnot := h.not_binds_rename (hf f List.mem_cons_self) hn (Bool.eq_false_iff.2 hb)
        rw [List.length_cons, marks_zero, renamed, depth?_cons, hnot, renamed_keep _ _ rfl,
          if_neg hb]
        rfl
    | succ k =>
      rw [List.length_cons, marks_succ, renamed, depth?_cons, Frame.rename_keep]
      by_cases hb : f.binds name = true
      · rw [if_pos hb, if_pos hb]
      · rw [if_neg hb] at hd
        rw [if_neg hb, if_neg hb, ih (tail_names hf)]
        intro he
        exact hd (by rw [he]; rfl)

variable {known : Known}

theorem refTwin {k : Nat} {r : Reference} (hf : Framed ok fs) (hn : ok r.name.lexeme)
    (hk : known r (depth? fs r.name.lexeme)) :
    RefTwin (.same known) (marks σ k fs.length) fs r (r.respell spelling k fs) := by
  unfold Reference.respell respell
  by_cases hd : depth? fs r.name.lexeme = some k
  · simp only [hd, if_true]
    obtain ⟨f, hget, -⟩ := lookup_of_depth hd
    have hlt : k < fs.length := (List.getElem?_eq_some_iff.1 hget).1
    have hσ : (marks σ k fs.length)[k]? = some σ := by
      rw [marks, List.getElem?_set_self (by simpa using hlt)]
    exact {
      id := rfl
      name := ⟨rfl, ((newName_of_some hd hσ).trans (h.spells _ hn)).symm, rfl⟩
      depth := (h.depth?_spelled hf.names hn hd).trans hd.symm
      known := hk }
  · simp only [hd, if_false]
    have hname : newName (marks σ k fs.length) fs r.name.lexeme = r.name.lexeme := by
      unfold newName
      split
      · rename_i d hd'
        have hne : d ≠ k := fun he => hd (he ▸ hd')
        rw [marks_getElem? σ hne, Renaming.keep_apply]
      · rfl
    exact ⟨rfl, ⟨rfl, hname.symm, rfl⟩, h.depth?_kept hf.names hn hd, hk⟩

end Suits

/-- A reserved word is what it was. -/
theorem refTwin_fixed {known : Known} {k : Nat} {fs : Frames} {r : Reference}
    (hσ : σ r.name.lexeme = r.name.lexeme) (hk : known r (depth? fs r.name.lexeme)) :
    RefTwin (.same known) (marks σ k fs.length) fs r r where
  id := rfl
  name := ⟨rfl, (newName_of_fixed (marks_fixes σ k _ hσ)).symm, rfl⟩
  depth := depth?_renamed_of_fixed (by simp) (marks_fixes σ k _ hσ)
  known := hk

end Lox.Scoping
