import Lox.Proofs.Grammar.Shift
import Lox.Proofs.Grammar.Step

/-!
# Reading the same tokens elsewhere

A second cursor follows a first one if it has the same tokens left, counted from another
start, with further tokens behind them. A step that is tracked does on the second cursor
what it does on the first, as long as the first does not come to its end: nothing is read
ahead but the next token. If there is nothing behind, the end is no exception.
-/

set_option autoImplicit false

namespace Lox.Grammar

variable {α β : Type}

/-- How a second cursor differs from a first: what stands behind the tokens it has left and
at the end, what was reported before, and how many more steps it may nest. It is exact if it
ends where the first does. -/
structure Setting where
  shift : Shift
  behind : List Token
  finish : Token
  before : Array Diagnostic
  spare : Nat
  exact : Prop
  ends : exact → behind = [] ∧ spare = 0

/-- From one cursor to another at least `k` tokens are consumed. -/
def Cursor.Until (k : Nat) (c d : Cursor) : Prop := ∃ us, c.rest = us ++ d.rest ∧ k ≤ us.length

namespace Cursor.Until

variable {k j : Nat} {c d e : Cursor}

theorem refl (c : Cursor) : c.Until 0 c := ⟨[], rfl, Nat.le_refl _⟩

theorem trans (h : c.Until j d) (h' : d.Until k e) : c.Until (j + k) e := by
  obtain ⟨us, hus, hj⟩ := h
  obtain ⟨vs, hvs, hk⟩ := h'
  exact ⟨us ++ vs, by rw [hus, hvs, List.append_assoc], by rw [List.length_append]; omega⟩

theorem lax (h : c.Until k d) : c.Until 0 d := by
  obtain ⟨us, hus, -⟩ := h
  exact ⟨us, hus, Nat.zero_le _⟩

theorem length (h : c.Until k d) : d.rest.length + k ≤ c.rest.length := by
  obtain ⟨us, hus, hk⟩ := h
  rw [hus, List.length_append]
  omega

theorem nil (h : c.Until k d) (hc : c.rest = []) : d.rest = [] := by
  obtain ⟨us, hus, -⟩ := h
  rw [hc] at hus
  exact (List.append_eq_nil_iff.1 hus.symm).2

end Cursor.Until

namespace Setting

structure Follows (S : Setting) (c c' : Cursor) : Prop where
  rest : c'.rest = c.rest.map (Token.shift S.shift) ++ S.behind
  finish : c'.finish = S.finish
  same : S.exact → S.finish = c.finish.shift S.shift
  nextId : c'.nextId = c.nextId + S.shift.ids
  reports : c'.reports = S.before ++ c.reports.map (Diagnostic.shift S.shift)

/-- A cursor that follows. -/
def follower (S : Setting) (c : Cursor) : Cursor where
  rest := c.rest.map (Token.shift S.shift) ++ S.behind
  finish := S.finish
  nextId := c.nextId + S.shift.ids
  reports := S.before ++ c.reports.map (Diagnostic.shift S.shift)

theorem follows_follower {S : Setting} (hx : ¬ S.exact) (c : Cursor) :
    S.Follows c (S.follower c) :=
  ⟨rfl, rfl, fun h => absurd h hx, rfl, rfl⟩

/-- What stands on the right of a step on the left: the same up to the shift, unless the
left has come to the end of its tokens and the right has more of them. A step that yields a
result has consumed at least `k` tokens. -/
inductive Agree (S : Setting) (k : Nat) (f : α → β) (c : Cursor) :
    EStateM.Result Diagnostic Cursor α → EStateM.Result Diagnostic Cursor β → Prop
  | ok {a : α} {d d' : Cursor} (hc : c.Until k d) (h : S.Follows d d') :
      Agree S k f c (.ok a d) (.ok (f a) d')
  | error {e : Diagnostic} {d d' : Cursor} (hc : c.Until 0 d) (h : S.Follows d d') :
      Agree S k f c (.error e d) (.error (e.shift S.shift) d')
  | spent {a : α} {d : Cursor} {r : EStateM.Result Diagnostic Cursor β} (hd : d.rest = [])
      (hx : ¬ S.exact) : Agree S k f c (.ok a d) r
  | spentError {e : Diagnostic} {d : Cursor} {r : EStateM.Result Diagnostic Cursor β}
      (hd : d.rest = []) (hx : ¬ S.exact) : Agree S k f c (.error e d) r

/-- From at most `n` tokens on the left the two steps agree. -/
def Tracks (S : Setting) (k n : Nat) (f : α → β) (p : Step α) (p' : Step β) : Prop :=
  ∀ c c', c.rest.length ≤ n → S.Follows c c' → S.Agree k f c (p c) (p' c')

variable {S : Setting} {k n : Nat} {f : α → β}

namespace Follows

variable {c c' : Cursor} (h : S.Follows c c')

include h

theorem cons {t : Token} {ts : List Token} (hc : c.rest = t :: ts) :
    c'.rest = t.shift S.shift :: (ts.map (Token.shift S.shift) ++ S.behind) := by
  rw [h.rest, hc]
  rfl

theorem nil (hx : S.exact) (hc : c.rest = []) : c'.rest = [] := by
  rw [h.rest, hc, (S.ends hx).1]
  rfl

theorem peek (hc : c.rest ≠ [] ∨ S.exact) : c'.peek = c.peek.shift S.shift := by
  unfold Cursor.peek
  cases hrest : c.rest with
  | cons t ts =>
    rw [h.cons hrest]
    rfl
  | nil =>
    have hx : S.exact := hc.resolve_left fun hne => hne hrest
    rw [h.nil hx hrest]
    exact h.finish.trans (h.same hx)

/-- Both have consumed the same. -/
theorem withRest (ts : List Token) : S.Follows { c with rest := ts }
    { c' with rest := ts.map (Token.shift S.shift) ++ S.behind } :=
  ⟨rfl, h.finish, h.same, h.nextId, h.reports⟩

/-- Both have reported the same. -/
theorem push (d : Diagnostic) : S.Follows { c with reports := c.reports.push d }
    { c' with reports := c'.reports.push (d.shift S.shift) } where
  rest := h.rest
  finish := h.finish
  same := h.same
  nextId := h.nextId
  reports := by
    show c'.reports.push _ = _
    rw [h.reports, Array.map_push, Array.append_push]

end Follows

namespace Agree

variable {γ : Type} {c d : Cursor} {r : EStateM.Result Diagnostic Cursor α}
  {r' : EStateM.Result Diagnostic Cursor β}

/-- Tokens consumed before count. -/
theorem after {j : Nat} (h : S.Agree k f d r r') (hc : c.Until j d) :
    S.Agree (j + k) f c r r' := by
  cases h with
  | ok hd h => exact .ok (hc.trans hd) h
  | error hd h => exact .error (hc.lax.trans hd) h
  | spent hd hx => exact .spent hd hx
  | spentError hd hx => exact .spentError hd hx

/-- Behind the end there is nothing to agree on. -/
theorem ofSpent (h : S.Agree k f c r r') (hc : c.rest = []) (hx : ¬ S.exact) {j : Nat} {g : α → γ}
    {r'' : EStateM.Result Diagnostic Cursor γ} : S.Agree j g d r r'' := by
  cases h with
  | ok hd h => exact .spent (hd.nil hc) hx
  | error hd h => exact .spentError (hd.nil hc) hx
  | spent hd hx => exact .spent hd hx
  | spentError hd hx => exact .spentError hd hx

theorem lax (h : S.Agree k f c r r') : S.Agree 0 f c r r' := by
  cases h with
  | ok hd h => exact .ok hd.lax h
  | error hd h => exact .error hd h
  | spent hd hx => exact .spent hd hx
  | spentError hd hx => exact .spentError hd hx

end Agree

namespace Tracks

variable {γ δ : Type} {p q : Step α} {p' q' : Step β} {g : γ → δ}

theorem mono {m : Nat} (h : S.Tracks k n f p p') (hm : m ≤ n) : S.Tracks k m f p p' :=
  fun c c' hc hf => h c c' (Nat.le_trans hc hm) hf

theorem lax (h : S.Tracks k n f p p') : S.Tracks 0 n f p p' :=
  fun c c' hc hf => (h c c' hc hf).lax

/-- Where the first step must consume `j` tokens, the second one has so many fewer left. -/
theorem andThen {j : Nat} {u : α → Step γ} {u' : β → Step δ} (hp : S.Tracks j n f p p')
    (hu : ∀ a, S.Tracks k (n - j) g (u a) (u' (f a))) :
    S.Tracks (j + k) n g (p >>= u) (p' >>= u') := by
  intro c c' hc hf
  have h := hp c c' hc hf
  rw [bind_apply, bind_apply]
  generalize p c = r, p' c' = r' at h
  cases h with
  | ok hd h =>
    have hle := hd.length
    exact (hu _ _ _ (by omega) h).after hd
  | error hd h => exact .error hd h
  | @spent a d _ hd hx =>
    have hd' : d.rest.length ≤ n - j := by simp [hd]
    exact (hu a d _ hd' (follows_follower hx d)).ofSpent hd hx
  | spentError hd hx => exact .spentError hd hx

theorem bind {u : α → Step γ} {u' : β → Step δ} (hp : S.Tracks 0 n f p p')
    (hu : ∀ a, S.Tracks k n g (u a) (u' (f a))) : S.Tracks k n g (p >>= u) (p' >>= u') := by
  have h := hp.andThen hu
  rwa [Nat.zero_add] at h

/-- The first step consumes a token. -/
theorem consuming {u : α → Step γ} {u' : β → Step δ} (hp : S.Tracks 1 n f p p')
    (hu : ∀ a, S.Tracks 0 (n - 1) g (u a) (u' (f a))) : S.Tracks 1 n g (p >>= u) (p' >>= u') :=
  hp.andThen hu

theorem pure (n : Nat) (f : α → β) (a : α) :
    S.Tracks 0 n f (Pure.pure a : Step α) (Pure.pure (f a)) :=
  fun _ _ _ hf => .ok (.refl _) hf

theorem map {u : α → γ} {u' : β → δ} (hp : S.Tracks k n f p p') (hu : ∀ a, u' (f a) = g (u a)) :
    S.Tracks k n g (u <$> p) (u' <$> p') := by
  rw [map_eq_pure_bind, map_eq_pure_bind]
  apply hp.andThen (k := 0)
  intro a
  rw [hu]
  exact .pure _ g (u a)

/-- Where nothing is left on the left, spare steps on the right make no difference. -/
theorem atZero (p' : Nat → Step β) (h : S.Tracks k 0 f p (p' 0)) :
    S.Tracks k 0 f p (p' (0 + S.spare)) := by
  by_cases hx : S.exact
  · rw [(S.ends hx).2]
    exact h
  · intro c c' hc hf
    exact (h c c' hc hf).ofSpent (List.length_eq_zero_iff.1 (Nat.le_zero.1 hc)) hx

theorem fail (k n : Nat) (f : α → β) (cause : ParseCause) :
    S.Tracks k n f (Grammar.fail cause) (Grammar.fail cause) := by
  intro c c' hc hf
  by_cases h : c.rest ≠ [] ∨ S.exact
  · have hfault : fault cause c'.peek = (fault cause c.peek).shift S.shift := by
      rw [hf.peek h, fault_shift]
    show S.Agree k f c (.error (fault cause c.peek) c) (.error (fault cause c'.peek) c')
    rw [hfault]
    exact .error (.refl _) hf
  · obtain ⟨hrest, hx⟩ := not_or.1 h
    exact .spentError (Classical.not_not.1 hrest) hx

theorem report (n : Nat) (d : Diagnostic) :
    S.Tracks 0 n id (Grammar.report d) (Grammar.report (d.shift S.shift)) :=
  fun _ _ _ hf => .ok (.refl _) (hf.push d)

theorem reportHere (n : Nat) (cause : ParseCause) :
    S.Tracks 0 n id (Grammar.reportHere cause) (Grammar.reportHere cause) := by
  intro c c' hc hf
  by_cases h : c.rest ≠ [] ∨ S.exact
  · have hpush := hf.push (fault cause c.peek)
    rw [← fault_shift, ← hf.peek h] at hpush
    exact .ok (.refl _) hpush
  · obtain ⟨hrest, hx⟩ := not_or.1 h
    exact .spent (Classical.not_not.1 hrest) hx

theorem limit (n : Nat) (cause : ParseCause) (count : Nat) :
    S.Tracks 0 n id (Grammar.limit cause count) (Grammar.limit cause count) := by
  unfold Grammar.limit
  split
  · exact .reportHere n cause
  · exact .pure n id ()

theorem reference (n : Nat) (t : Token) :
    S.Tracks 0 n (Reference.shift S.shift) (Grammar.reference t)
      (Grammar.reference (t.shift S.shift)) := by
  intro c c' hc hf
  obtain ⟨rest, finish, j, reports⟩ := c
  obtain ⟨rest', finish', j', reports'⟩ := c'
  obtain rfl : j' = j + S.shift.ids := hf.nextId
  exact .ok (.refl _) ⟨hf.rest, hf.finish, hf.same, Nat.add_right_comm _ _ _, hf.reports⟩

/-- A choice by the next token, which is consumed if it is of the kind. -/
theorem acceptIf_bind {s : Kind → Bool} {u : Option Token → Step α} {u' : Option Token → Step β}
    (hyes : ∀ t, s t.kind = true →
      S.Tracks (k - 1) (n - 1) f (u (some t)) (u' (some (t.shift S.shift))))
    (hno : S.Tracks k n f (u none) (u' none)) :
    S.Tracks k n f (Grammar.acceptIf s >>= u) (Grammar.acceptIf s >>= u') := by
  intro c c' hc hf
  have hnone := hno c c' hc hf
  rw [bind_apply, bind_apply]
  cases hrest : c.rest with
  | nil =>
    have hl : Grammar.acceptIf s c = .ok none c := by
      unfold Grammar.acceptIf
      rw [hrest]
    rw [hl]
    by_cases hx : S.exact
    · have hr : Grammar.acceptIf s c' = .ok none c' := by
        unfold Grammar.acceptIf
        rw [hf.nil hx hrest]
      rw [hr]
      exact hnone
    · exact hnone.ofSpent hrest hx
  | cons t ts =>
    have hl : Grammar.acceptIf s c =
        if s t.kind then .ok (some t) { c with rest := ts } else .ok none c := by
      unfold Grammar.acceptIf
      rw [hrest]
    have hr : Grammar.acceptIf s c' =
        if s t.kind then .ok (some (t.shift S.shift))
          { c' with rest := ts.map (Token.shift S.shift) ++ S.behind } else .ok none c' := by
      unfold Grammar.acceptIf
      rw [hf.cons hrest]
      rfl
    rw [hl, hr]
    by_cases ht : s t.kind = true
    · rw [if_pos ht, if_pos ht]
      have hlen : ts.length ≤ n - 1 := by
        rw [hrest] at hc
        exact Nat.le_sub_one_of_lt hc
      have huntil : c.Until 1 { c with rest := ts } := ⟨[t], hrest, Nat.le_refl _⟩
      have h := (hyes t ht _ _ hlen (hf.withRest ts)).after huntil
      cases k with
      | zero => exact h.lax
      | succ k => rwa [Nat.add_comm] at h
    · rw [if_neg ht, if_neg ht]
      exact hnone

theorem accepting (j : Kind) (hp : S.Tracks (k - 1) (n - 1) f p p') (hq : S.Tracks k n f q q') :
    S.Tracks k n f (do if ← Grammar.accept j then p else q)
      (do if ← Grammar.accept j then p' else q') := by
  simp only [Grammar.accept, Grammar.accept?, bind_assoc, pure_bind]
  exact acceptIf_bind (fun _ _ => hp) hq

theorem expect (n : Nat) (e : Expectation) :
    S.Tracks 1 n (Token.shift S.shift) (Grammar.expect e) (Grammar.expect e) :=
  acceptIf_bind (fun t _ => .pure _ _ t) (.fail _ _ _ _)

theorem nextIs (n : Nat) (j : Kind) : S.Tracks 0 n id (Grammar.nextIs j) (Grammar.nextIs j) := by
  intro c c' hc hf
  by_cases h : c.rest ≠ [] ∨ S.exact
  · have hsame : c'.rest.head?.any (·.kind == j) = c.rest.head?.any (·.kind == j) := by
      cases hrest : c.rest with
      | nil => rw [hf.nil (h.resolve_left fun hne => hne hrest) hrest]
      | cons t ts =>
        rw [hf.cons hrest]
        rfl
    show S.Agree 0 id c (.ok _ c) (.ok _ c')
    rw [hsame]
    exact .ok (.refl _) hf
  · obtain ⟨hrest, hx⟩ := not_or.1 h
    exact .spent (Classical.not_not.1 hrest) hx

theorem atEnd (n : Nat) : S.Tracks 0 n id Grammar.atEnd Grammar.atEnd := by
  intro c c' hc hf
  by_cases h : c.rest ≠ [] ∨ S.exact
  · have hsame : c'.rest.isEmpty = c.rest.isEmpty := by
      cases hrest : c.rest with
      | nil => rw [hf.nil (h.resolve_left fun hne => hne hrest) hrest]
      | cons t ts =>
        rw [hf.cons hrest]
        rfl
    show S.Agree 0 id c (.ok _ c) (.ok _ c')
    rw [hsame]
    exact .ok (.refl _) hf
  · obtain ⟨hrest, hx⟩ := not_or.1 h
    exact .spent (Classical.not_not.1 hrest) hx

theorem endsBlock (n : Nat) : S.Tracks 0 n id Grammar.endsBlock Grammar.endsBlock :=
  (nextIs n _).bind fun _ => (atEnd n).bind fun _ => .pure n id _

theorem ifElse {b b' : Step Bool} (hb : S.Tracks 0 n id b b') (hp : S.Tracks k n f p p')
    (hq : S.Tracks k n f q q') :
    S.Tracks k n f (do if ← b then p else q) (do if ← b' then p' else q') := by
  apply hb.bind
  intro v
  cases v
  · exact hq
  · exact hp

end Tracks

/-- From a cursor with tokens left the two steps agree. -/
def Proceeds (S : Setting) (k n : Nat) (f : α → β) (p : Step α) (p' : Step β) : Prop :=
  ∀ c c', c.rest ≠ [] → c.rest.length ≤ n → S.Follows c c' → S.Agree k f c (p c) (p' c')

/-- What is done unless the end has come is done with tokens left. -/
theorem Tracks.unlessEnd {b : Step Bool} {p q : Step α} {p' q' : Step β}
    (hb : S.Tracks 0 n id b b) (hend : ∀ c, ∃ v, b c = .ok v c ∧ (v = false → c.rest ≠ []))
    (hp : S.Tracks k n f p p') (hq : S.Proceeds k n f q q') :
    S.Tracks k n f (do if ← b then p else q) (do if ← b then p' else q') := by
  intro c c' hc hf
  obtain ⟨v, hv, hrest⟩ := hend c
  obtain ⟨v', hv', -⟩ := hend c'
  have h := hb c c' hc hf
  rw [hv, hv'] at h
  rw [bind_apply, bind_apply, hv, hv']
  cases h with
  | ok =>
    cases v with
    | true => exact hp c c' hc hf
    | false => exact hq c c' (hrest rfl) hc hf
  | spent hd hx =>
    cases v with
    | true => exact (hp c c' hc hf).ofSpent hd hx
    | false => exact absurd hd (hrest rfl)

theorem boundary_shift {t : Token} {ts : List Token}
    (h : boundary t ts ≠ [] ∨ S.exact) :
    boundary (t.shift S.shift) (ts.map (Token.shift S.shift) ++ S.behind) =
      (boundary t ts).map (Token.shift S.shift) ++ S.behind := by
  induction ts generalizing t with
  | nil =>
    have hx : S.exact := h.resolve_left fun hne => hne rfl
    rw [(S.ends hx).1]
    rfl
  | cons u ts ih =>
    rw [List.map_cons, List.cons_append]
    unfold boundary at h ⊢
    by_cases hstop : (t.kind == .mark .semicolon || startsStatement u.kind) = true
    · have hstop' : ((t.shift S.shift).kind == .mark .semicolon ||
          startsStatement (u.shift S.shift).kind) = true := hstop
      rw [if_pos hstop, if_pos hstop']
      rfl
    · have hstop' : ¬ ((t.shift S.shift).kind == .mark .semicolon ||
          startsStatement (u.shift S.shift).kind) = true := hstop
      rw [if_neg hstop] at h
      rw [if_neg hstop, if_neg hstop']
      exact ih h

theorem boundary_suffix (t : Token) (ts : List Token) : ∃ us, ts = us ++ boundary t ts := by
  induction ts generalizing t with
  | nil => exact ⟨[], rfl⟩
  | cons u ts ih =>
    unfold boundary
    split
    · exact ⟨[], rfl⟩
    · obtain ⟨us, hus⟩ := ih u
      exact ⟨u :: us, congrArg (u :: ·) hus⟩

/-- A fault in the middle of the tokens is passed over alike. -/
theorem Tracks.recovering {p : Step α} {p' : Step β} (hp : S.Tracks 1 n f p p') :
    S.Proceeds 1 n (Option.map f) (Grammar.recovering p) (Grammar.recovering p') := by
  intro c c' hne hc hf
  have h := hp c c' hc hf
  rw [recovering_apply, recovering_apply]
  generalize p c = r, p' c' = r' at h
  cases h with
  | ok hd h => exact .ok hd h
  | spent hd hx => exact .spent hd hx
  | @spentError e d _ hd hx => exact .spent (by simp [Cursor.passOver, hd]) hx
  | @error e d d' huntil h =>
    have hpush := h.push e
    obtain ⟨us, hus, -⟩ := huntil
    cases hrest : d.rest with
    | nil =>
      by_cases hx : S.exact
      · apply Agree.ok
        · refine ⟨c.rest, ?_, List.length_pos_iff.2 hne⟩
          simp [Cursor.passOver, hrest]
        · refine ⟨?_, h.finish, h.same, h.nextId, hpush.reports⟩
          simp [Cursor.passOver, hrest, h.nil hx hrest, (S.ends hx).1]
      · exact .spent (by simp [Cursor.passOver, hrest]) hx
    | cons t ts =>
      by_cases hb : boundary t ts ≠ [] ∨ S.exact
      · apply Agree.ok
        · obtain ⟨vs, hvs⟩ := boundary_suffix t ts
          refine ⟨us ++ t :: vs, ?_, by simp; omega⟩
          rw [hus, hrest]
          simp only [Cursor.passOver, hrest, List.append_assoc, List.cons_append, ← hvs]
        · refine ⟨?_, h.finish, h.same, h.nextId, hpush.reports⟩
          simp only [Cursor.passOver, hrest, h.cons hrest]
          exact boundary_shift hb
      · obtain ⟨hnil, hx⟩ := not_or.1 hb
        apply Agree.spent _ hx
        simp only [Cursor.passOver, hrest]
        exact Classical.not_not.1 hnil

end Setting

end Lox.Grammar
