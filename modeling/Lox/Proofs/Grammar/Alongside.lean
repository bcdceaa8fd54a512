import Mathlib
import Lox.Proofs.Grammar.CorrectPrefix

/-!
# Reading alongside

Two readings are alongside if they have the same tokens left and the second one has reported
one diagnostic before all others. Whatever is read next, they stay so.
-/

set_option autoImplicit false

namespace Lox.Grammar

variable {α β γ δ : Type} {d : Diagnostic} {N n : Nat}

/-- The same tokens are left, and the second cursor has reported `d` before everything else. -/
structure Cursor.Alongside (d : Diagnostic) (c c' : Cursor) : Prop where
  rest : c'.rest = c.rest
  finish : c'.finish = c.finish
  nextId : c.nextId ≤ c'.nextId
  reports : c'.reports = #[d] ++ c.reports

/-- Both steps have come to a result, or both to the same fault, alongside and with at most `N`
tokens left. -/
inductive Together (d : Diagnostic) (N : Nat) :
    EStateM.Result Diagnostic Cursor α → EStateM.Result Diagnostic Cursor β → Prop
  | ok {a : α} {b : β} {c c' : Cursor} (h : c.Alongside d c') (hN : c.rest.length ≤ N) :
      Together d N (.ok a c) (.ok b c')
  | error {e : Diagnostic} {c c' : Cursor} (h : c.Alongside d c') (hN : c.rest.length ≤ N) :
      Together d N (.error e c) (.error e c')

/-- On cursors alongside, with at most `n` tokens left, both steps do the same up to what they
yield. -/
def Steady (n : Nat) (p : Step α) (p' : Step β) : Prop :=
  ∀ d c c', c.Alongside d c' → c.rest.length ≤ n → Together d c.rest.length (p c) (p' c')

theorem Cursor.Alongside.push {c c' : Cursor} (h : c.Alongside d c') (e : Diagnostic) :
    c'.reports.push e = #[d] ++ c.reports.push e := by
  rw [h.reports, Array.append_push]

namespace Together

variable {r : EStateM.Result Diagnostic Cursor α} {r' : EStateM.Result Diagnostic Cursor β}

theorem mono (h : Together d n r r') (hN : n ≤ N) : Together d N r r' := by
  cases h with
  | ok h hn => exact .ok h (hn.trans hN)
  | error h hn => exact .error h (hn.trans hN)

/-- Alongside, one more diagnostic is reported. -/
theorem reported (h : Together d N r r') : reported r' = d :: reported r := by
  cases h with
  | ok h => simp [Grammar.reported, h.reports]
  | error h => simp [Grammar.reported, h.reports]

theorem bind {p : Step α} {p' : Step β} {u : α → Step γ} {u' : β → Step δ} {c c' : Cursor}
    (hp : Together d N (p c) (p' c'))
    (hu : ∀ a b c₁ c₁', p c = .ok a c₁ → c₁.Alongside d c₁' → c₁.rest.length ≤ N →
      Together d N (u a c₁) (u' b c₁')) : Together d N ((p >>= u) c) ((p' >>= u') c') := by
  rw [bind_apply, bind_apply]
  generalize hr : p c = r, p' c' = r' at hp
  cases hp with
  | ok h hN => exact hu _ _ _ _ hr h hN
  | error h hN => exact .error h hN

theorem recovering {p : Step α} {p' : Step β} {c c' : Cursor} (hp : Together d N (p c) (p' c')) :
    Together d N (Grammar.recovering p c) (Grammar.recovering p' c') := by
  rw [recovering_apply, recovering_apply]
  generalize p c = r, p' c' = r' at hp
  cases hp with
  | ok h hN => exact .ok h hN
  | @error e c c' h hN =>
    refine .ok ⟨?_, h.finish, h.nextId, h.push e⟩ ?_
    · simp only [Cursor.passOver, h.rest]
    · cases hrest : c.rest with
      | nil => simp [Cursor.passOver, hrest]
      | cons t ts =>
        obtain ⟨us, hus⟩ := Setting.boundary_suffix t ts
        have hlen := congrArg List.length hus
        simp only [hrest, List.length_cons, List.length_append] at hN hlen
        simp only [Cursor.passOver, hrest]
        omega

end Together

/-- The setting in which a cursor alongside follows. -/
def Setting.beside (d : Diagnostic) (finish : Token) (ids : Nat) : Setting :=
  ⟨⟨ids, 0⟩, [], finish, #[d], 0, True, fun _ => ⟨rfl, rfl⟩⟩

theorem Cursor.Alongside.follows {c c' : Cursor} (h : c.Alongside d c') :
    (Setting.beside d c.finish (c'.nextId - c.nextId)).Follows c c' where
  rest := by simp [Setting.beside, Token.map_shift_ids, h.rest]
  finish := h.finish
  same _ := rfl
  nextId := by
    have := h.nextId
    simp only [Setting.beside]
    omega
  reports := by
    have hmap : c.reports.map (Diagnostic.shift ⟨c'.nextId - c.nextId, 0⟩) = c.reports :=
      (Array.map_congr_left fun e _ => Diagnostic.shift_ids _ e).trans (Array.map_id _)
    simp only [Setting.beside, hmap, h.reports]

theorem Setting.Follows.alongside {c c' : Cursor} {finish : Token} {ids : Nat}
    (h : (Setting.beside d finish ids).Follows c c') : c.Alongside d c' where
  rest := by simpa [Setting.beside, Token.map_shift_ids] using h.rest
  finish := h.finish.trans (h.same trivial)
  nextId := by
    rw [h.nextId]
    exact Nat.le_add_right ..
  reports := by
    rw [h.reports]
    congr 1
    exact (Array.map_congr_left fun e _ => Diagnostic.shift_ids _ e).trans (Array.map_id _)

namespace Steady

variable {p : Step α} {p' : Step β} {q q' : Step γ} {u : α → Step γ} {u' : β → Step δ}

theorem of_tracks (hp : ∀ d finish ids, ∃ k f, (Setting.beside d finish ids).Tracks k n f p p') :
    Steady n p p' := by
  intro d c c' h hn
  obtain ⟨k, f, ht⟩ := hp d c.finish (c'.nextId - c.nextId)
  have hr := ht c c' hn h.follows
  generalize p c = r, p' c' = r' at hr
  cases hr with
  | ok hc hf =>
    have hlen := hc.length
    exact .ok hf.alongside (by omega)
  | @error e _ _ hc hf =>
    have he : e.shift (Setting.beside d c.finish (c'.nextId - c.nextId)).shift = e :=
      Diagnostic.shift_ids _ e
    have hlen := hc.length
    rw [he]
    exact .error hf.alongside (by omega)
  | spent _ hx => exact absurd trivial hx
  | spentError _ hx => exact absurd trivial hx

theorem mono (hp : Steady n p p') (hN : N ≤ n) : Steady N p p' :=
  fun d c c' h hn => hp d c c' h (hn.trans hN)

theorem pure (n : Nat) (a : α) (b : β) : Steady n (Pure.pure a) (Pure.pure b) :=
  fun _ _ _ h _ => .ok h (Nat.le_refl _)

theorem bind (hp : Steady n p p') (hu : ∀ a b, Steady n (u a) (u' b)) :
    Steady n (p >>= u) (p' >>= u') := by
  intro d c c' h hn
  refine (hp d c c' h hn).bind fun a b c₁ c₁' _ h₁ hle => ?_
  exact (hu a b d c₁ c₁' h₁ (hle.trans hn)).mono hle

theorem expect (n : Nat) (e : Expectation) : Steady n (Grammar.expect e) (Grammar.expect e) :=
  of_tracks fun _ _ _ => ⟨1, _, .expect n e⟩

theorem declarations (n : Nat) : Steady n (Grammar.declarations n) (Grammar.declarations n) :=
  of_tracks fun _ _ _ => ⟨0, _, (Setting.Tracks.statement_declarations n).2⟩

theorem topLevel (n : Nat) : Steady n (Grammar.topLevel n) (Grammar.topLevel n) :=
  of_tracks fun _ _ _ => ⟨0, _, .topLevel n⟩

theorem methods {j : Nat} (hj : j ≤ n + 1) : Steady j (Grammar.methods (Grammar.declarations n) j)
    (Grammar.methods (Grammar.declarations n) j) :=
  of_tracks fun _ _ _ => ⟨0, _, .methods (Setting.Tracks.statement_declarations n).2 hj⟩

/-- The branch behind `else`, if there is one. -/
theorem elseBranch (n : Nat) : Steady n
    (do if ← accept (.word .else) then some <$> Grammar.statement n else Pure.pure none)
    (do if ← accept (.word .else) then some <$> Grammar.statement n else Pure.pure none) := by
  apply of_tracks
  intro d finish ids
  have hs := (Setting.Tracks.statement_declarations (S := .beside d finish ids) n).1
  exact ⟨0, Option.map (Stmt.shift _), .accepting _ ((hs.mono (Nat.sub_le n 1)).lax.map fun _ => rfl)
    (.pure n _ none)⟩

end Steady

end Lox.Grammar
