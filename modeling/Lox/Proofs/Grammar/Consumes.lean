import Lox.Proofs.Grammar.Step

/-!
# What a step consumes

The counterpart of soundness: `Consumes p ts rest n k ds q` says that on the tokens `ts`
followed by `rest` the step `p` consumes `ts`, takes the identities from `n` up to `k`,
reports `ds` and then is the step `q` on `rest`. With `q` a value this is a complete run.
-/

set_option autoImplicit false

namespace Lox.Grammar

variable {α β : Type}

def Consumes (p : Step α) (ts rest : List Token) (n k : Nat) (ds : List Diagnostic)
    (q : Step α) : Prop :=
  ∀ finish reports,
    p ⟨ts ++ rest, finish, n, reports⟩ = q ⟨rest, finish, k, reports ++ ds.toArray⟩

/-- The first of the tokens, if there is one, is not of a kind in `s`. -/
def Avoids (s : Kind → Bool) (ts : List Token) : Prop := ∀ t ∈ ts.head?, s t.kind = false

theorem avoids_nil (s : Kind → Bool) : Avoids s [] := by simp [Avoids]

theorem avoids_cons {s : Kind → Bool} {t : Token} {ts : List Token} :
    Avoids s (t :: ts) ↔ s t.kind = false := by simp [Avoids]

theorem Avoids.mono {s s' : Kind → Bool} {ts : List Token} (h : Avoids s ts)
    (hs : ∀ k, s' k = true → s k = true) : Avoids s' ts := by
  intro t ht
  have hf := h t ht
  cases hs' : s' t.kind with
  | false => rfl
  | true => rw [hs _ hs'] at hf; cases hf

namespace Consumes

variable {p q r : Step α} {f : α → Step β} {a : α} {b : β} {ts us rest : List Token} {t : Token}
  {n m k : Nat} {ds es : List Diagnostic}

theorem refl (p : Step α) (rest : List Token) (n : Nat) : Consumes p [] rest n n [] p := by
  intro finish reports
  simp

theorem trans {rest' : List Token} (hp : Consumes p ts rest' n m ds q) (us : List Token)
    (h : rest' = us ++ rest) (hq : Consumes q us rest m k es r) :
    Consumes p (ts ++ us) rest n k (ds ++ es) r := by
  subst h
  intro finish reports
  rw [List.append_assoc, hp, hq]
  simp

theorem bind {q : Step β} (hp : Consumes p ts (us ++ rest) n m ds (pure a))
    (hf : Consumes (f a) us rest m k es q) :
    Consumes (p >>= f) (ts ++ us) rest n k (ds ++ es) q := by
  intro finish reports
  rw [bind_apply, List.append_assoc, hp]
  simp only [pure_apply]
  rw [hf]
  simp

/-- The same with the tokens of the second step given. -/
theorem followedBy {q : Step β} {rest' : List Token}
    (hp : Consumes p ts rest' n m ds (pure a)) (us : List Token) (h : rest' = us ++ rest) (hf : Consumes (f a) us rest m k es q) :
    Consumes (p >>= f) (ts ++ us) rest n k (ds ++ es) q :=
  (h ▸ hp).bind hf

theorem ending {q : Step β} (hp : Consumes p ts rest n k ds (pure a)) (h : f a = q) :
    Consumes (p >>= f) ts rest n k ds q := by
  intro finish reports
  rw [bind_apply, hp]
  simp only [pure_apply, h]

theorem of_eq {ts' : List Token} {ds' : List Diagnostic} (hp : Consumes p ts rest n k ds q)
    (hts : ts' = ts) (hds : ds' = ds) : Consumes p ts' rest n k ds' q :=
  hts ▸ hds ▸ hp

theorem map (f : α → β) (hp : Consumes p ts rest n k ds (pure a)) :
    Consumes (f <$> p) ts rest n k ds (pure (f a)) := by
  intro finish reports
  rw [map_apply, hp]
  rfl

theorem acceptIf_yes {s : Kind → Bool} (ht : s t.kind = true) :
    Consumes (acceptIf s) [t] rest n n [] (pure (some t)) := by
  intro finish reports
  rw [List.singleton_append, Grammar.acceptIf_yes ht]
  simp [pure_apply]

theorem acceptIf_no {s : Kind → Bool} (h : Avoids s rest) :
    Consumes (acceptIf s) [] rest n n [] (pure none) := by
  intro finish reports
  rw [List.nil_append, Grammar.acceptIf_no h]
  simp [pure_apply]

theorem expect {e : Expectation} (ht : t.kind = e.kind) :
    Consumes (expect e) [t] rest n n [] (pure t) := by
  intro finish reports
  rw [List.singleton_append, expect_yes ht]
  simp [pure_apply]

theorem reference (t : Token) :
    Consumes (reference t) [] rest n (n + 1) [] (pure ⟨n, t⟩) := by
  intro finish reports
  simp [reference_apply, pure_apply]

section Choices

variable {c : Kind}

theorem accepting_yes (ht : t.kind = c) (hp : Consumes p ts rest n k ds r) :
    Consumes (do if ← accept c then p else q) (t :: ts) rest n k ds r := by
  intro finish reports
  rw [bind_apply, List.cons_append, accept_yes ht]
  exact hp finish reports

theorem accepting_no (h : Avoids (· == c) (ts ++ rest)) (hq : Consumes q ts rest n k ds r) :
    Consumes (do if ← accept c then p else q) ts rest n k ds r := by
  intro finish reports
  rw [bind_apply, accept_no (by simpa [Avoids] using h)]
  exact hq finish reports

theorem ifNext_yes (ht : t.kind = c) (hp : Consumes p [] (t :: rest) n k ds r) :
    Consumes (do if ← nextIs c then p else q) [] (t :: rest) n k ds r := by
  intro finish reports
  rw [bind_apply, List.nil_append, nextIs_yes ht]
  exact hp finish reports

theorem ifNext_no (h : Avoids (· == c) (ts ++ rest)) (hq : Consumes q ts rest n k ds r) :
    Consumes (do if ← nextIs c then p else q) ts rest n k ds r := by
  intro finish reports
  rw [bind_apply, nextIs_no (by simpa [Avoids] using h)]
  exact hq finish reports

theorem atEnd_no (hq : Consumes q (t :: ts) rest n k ds r) :
    Consumes (do if ← atEnd then p else q) (t :: ts) rest n k ds r := by
  intro finish reports
  rw [bind_apply, atEnd_apply]
  exact hq finish reports

theorem atEnd_yes (hp : Consumes p [] [] n k ds r) :
    Consumes (do if ← atEnd then p else q) [] [] n k ds r := by
  intro finish reports
  rw [bind_apply, atEnd_apply]
  exact hp finish reports

theorem endsBlock_yes (ht : t.kind = .mark .rightBrace) (hp : Consumes p [] (t :: rest) n k ds r) :
    Consumes (do if ← endsBlock then p else q) [] (t :: rest) n k ds r := by
  intro finish reports
  rw [bind_apply, endsBlock_apply, List.nil_append]
  simpa [ht] using hp finish reports

theorem endsBlock_no (ht : t.kind ≠ .mark .rightBrace) (hq : Consumes q (t :: ts) rest n k ds r) :
    Consumes (do if ← endsBlock then p else q) (t :: ts) rest n k ds r := by
  intro finish reports
  rw [bind_apply, endsBlock_apply, List.cons_append]
  simpa [ht] using hq finish reports

end Choices

theorem recovering (hp : Consumes p ts rest n k ds (pure a)) :
    Consumes (recovering p) ts rest n k ds (pure (some a)) := by
  intro finish reports
  rw [recovering_apply, hp]
  rfl

/-- An item behind `count` others is reported if it is one too many. -/
theorem limit {cause : ParseCause} {count : Nat}
    (hp : Consumes p (t :: ts) rest n k ds r) :
    Consumes (do limit cause count; p) (t :: ts) rest n k (beyond cause count (t :: ts) ++ ds) r := by
  intro finish reports
  rw [bind_apply]
  unfold Grammar.limit beyond
  by_cases h : maxArity ≤ count
  · simp only [h, if_true, reportHere, Cursor.peek]
    rw [hp]
    simp
  · simp only [h, if_false, pure_apply]
    rw [hp]
    simp

end Consumes

end Lox.Grammar
