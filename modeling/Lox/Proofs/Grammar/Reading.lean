import Mathlib
import Lox.Proofs.Grammar.DanglingElse
import Lox.Proofs.Grammar.StatementCompleteness
import Lox.Proofs.Grammar.StatementSoundness

/-!
# Reading is deriving

Main statement: the reading of a program or of an expression succeeds on exactly the
token lists that the grammar derives without violations, and yields the tree derived.
-/

set_option autoImplicit false

namespace Lox.Grammar

variable {α : Type} {ts : List Token} {finish : Token} {n k : Nat}

theorem ofTokens_eq {after : List Token} (hts : ∀ t ∈ ts, t.kind ≠ .finish)
    (hf : finish.kind = .finish) :
    Cursor.ofTokens n (ts ++ finish :: after) = ⟨ts, finish, n, #[]⟩ := by
  have htake : (ts ++ finish :: after).takeWhile (·.kind != .finish) = ts := by
    rw [List.takeWhile_append_of_pos (by simpa using hts)]
    simp [hf]
  have hfind : (ts ++ finish :: after).find? (·.kind == .finish) = some finish := by
    rw [List.find?_append, List.find?_eq_none.2 (by simpa using hts)]
    simp [hf]
  simp [Cursor.ofTokens, htake, hfind]

theorem ofStep_eq_ok_iff {p : Nat → Step α} {a : α} (hts : ∀ t ∈ ts, t.kind ≠ .finish)
    (hf : finish.kind = .finish) :
    Reading.ofStep p n (ts ++ [finish]) = ⟨.ok a, k⟩ ↔
      ∃ c, p ts.length ⟨ts, finish, n, #[]⟩ = .ok a c ∧ c.reports = #[] ∧ c.nextId = k := by
  simp only [Reading.ofStep, ofTokens_eq hts hf]
  cases p ts.length ⟨ts, finish, n, #[]⟩ with
  | ok b c =>
    cases hr : c.reports.isEmpty with
    | true =>
      have hr : c.reports = #[] := Array.isEmpty_iff.1 hr
      simp only [hr, Array.isEmpty_empty, if_true, Reading.mk.injEq, Except.ok.injEq,
        EStateM.Result.ok.injEq]
      constructor
      · rintro ⟨rfl, hk⟩
        exact ⟨c, ⟨rfl, rfl⟩, hr, hk⟩
      · rintro ⟨_, ⟨rfl, rfl⟩, -, hk⟩
        exact ⟨rfl, hk⟩
    | false =>
      have : c.reports ≠ #[] := fun h => by simp [h] at hr
      simp [this]
  | error d c => simp

/-- A step that consumes what derives the phrase, and nothing else, reads the phrase. -/
theorem ofStep_eq_ok_iff_derives {p : Nat → Step α} {phrase : α → Phrase} {a : α}
    (hts : ∀ t ∈ ts, t.kind ≠ .finish) (hf : finish.kind = .finish)
    (hs : ∀ j, Sound (p j) fun a us rest n k => Derives Complete (phrase a) us n k [] ∧
      ((us ++ rest).length ≤ j → rest = []))
    (hc : Derives Complete (phrase a) ts n k [] →
      Consumes (p ts.length) ts [] n k [] (pure a)) :
    Reading.ofStep p n (ts ++ [finish]) = ⟨.ok a, k⟩ ↔ Derives Complete (phrase a) ts n k [] := by
  rw [ofStep_eq_ok_iff hts hf]
  constructor
  · rintro ⟨⟨rest, finish', k', reports⟩, hp, rfl, rfl⟩
    obtain ⟨us, hus, hd, hend⟩ := ((hs _).ok hp).2 rfl
    have hrest : rest = [] := hend (Nat.le_of_eq (by rw [← hus]))
    subst hrest
    simp only [List.append_nil] at hus
    exact hus ▸ hd
  · intro hd
    refine ⟨⟨[], finish, k, #[]⟩, ?_, rfl, rfl⟩
    simpa [pure_apply] using hc hd finish #[]

theorem readProgram_eq_ok_iff {program : List Stmt} (hts : ∀ t ∈ ts, t.kind ≠ .finish)
    (hf : finish.kind = .finish) :
    readProgram n (ts ++ [finish]) = ⟨.ok program, k⟩ ↔
      Derives Complete (.declarations program) ts n k [] :=
  ofStep_eq_ok_iff_derives hts hf topLevel_sound fun hd => hd.reads.2 _ (Nat.le_refl _)

/-- Reading takes identities, whether it succeeds or not, and gives none back. -/
theorem le_nextId_readProgram (n : Nat) (ts : List Token) : n ≤ (readProgram n ts).nextId := by
  have hs := topLevel_sound (Cursor.ofTokens n ts).rest.length
  unfold readProgram Reading.ofStep
  dsimp only
  generalize hr : topLevel (Cursor.ofTokens n ts).rest.length (Cursor.ofTokens n ts) = r
  cases r with
  | ok a c => exact (hs.ok hr).1.2
  | error d c => exact (hs.error hr).2

theorem Derives.wholeExpression {e : Expr} {ds : List Diagnostic} {b : Nat}
    (h : Derives Complete (.expr .assignment e) ts n k ds) (hb : ts.length ≤ b) :
    Consumes (wholeExpression b) ts [] n k ds (pure e) := by
  obtain ⟨t, us, rfl, -⟩ := h.starts rfl
  obtain ⟨b, rfl⟩ : ∃ b', b = b' + 1 := ⟨b - 1, by simp at hb; omega⟩
  have he : Consumes (Grammar.expression (b + 1)) (t :: us) [] n k ds (pure e) :=
    h.reads b [] (by simpa using hb) (avoids_nil _)
  exact .of_eq (he.followedBy [] rfl (.atEnd_yes (.refl _ _ _))) (by simp) (by simp)

theorem readExpression_eq_ok_iff {e : Expr} (hts : ∀ t ∈ ts, t.kind ≠ .finish)
    (hf : finish.kind = .finish) :
    readExpression n (ts ++ [finish]) = ⟨.ok e, k⟩ ↔
      Derives Complete (.expr .assignment e) ts n k [] :=
  ofStep_eq_ok_iff_derives hts hf
    (fun j => (wholeExpression_sound j).mono fun _ _ _ _ _ h => ⟨h.1, fun _ => h.2⟩)
    fun hd => hd.wholeExpression (Nat.le_refl _)

/-- A program or an expression is read if and only if the grammar derives it within the
limits, and the tree is that of the derivation in which each `else` belongs to the
nearest `if`. -/
theorem reads_iff_derives (hts : ∀ t ∈ ts, t.kind ≠ .finish) (hf : finish.kind = .finish) :
    ((∃ program, (readProgram n (ts ++ [finish])).result = .ok program) ↔
      ∃ program k, Derives Anything (.declarations program) ts n k []) ∧
    (∀ program k, readProgram n (ts ++ [finish]) = ⟨.ok program, k⟩ ↔
      Derives Complete (.declarations program) ts n k []) ∧
    ((∃ e, (readExpression n (ts ++ [finish])).result = .ok e) ↔
      ∃ e k, Derives Anything (.expr .assignment e) ts n k []) ∧
    ∀ e k, readExpression n (ts ++ [finish]) = ⟨.ok e, k⟩ ↔
      Derives Complete (.expr .assignment e) ts n k [] := by
  refine ⟨⟨?_, ?_⟩, fun _ _ => readProgram_eq_ok_iff hts hf, ⟨?_, ?_⟩,
    fun _ _ => readExpression_eq_ok_iff hts hf⟩
  · rintro ⟨program, h⟩
    have hd := (readProgram_eq_ok_iff (k := (readProgram n (ts ++ [finish])).nextId) hts hf).1
      (by rw [← h])
    exact ⟨program, _, hd.anything⟩
  · rintro ⟨program, k, hd⟩
    obtain ⟨ss, hd⟩ := hd.derivable
    exact ⟨ss, by rw [(readProgram_eq_ok_iff hts hf).2 hd]⟩
  · rintro ⟨e, h⟩
    have hd := (readExpression_eq_ok_iff (k := (readExpression n (ts ++ [finish])).nextId) hts hf).1
      (by rw [← h])
    exact ⟨e, _, hd.anything⟩
  · rintro ⟨e, k, hd⟩
    have hd : Derives Complete (.expr .assignment e) ts n k [] := hd.derivable
    exact ⟨e, by rw [(readExpression_eq_ok_iff hts hf).2 hd]⟩

/-- The tokens of `if (a) if (b) c; else d;`. -/
def nestedIf : List Token :=
  [⟨.word .if, "if", 1⟩, ⟨.mark .leftParen, "(", 1⟩, ⟨.identifier, "a", 1⟩,
    ⟨.mark .rightParen, ")", 1⟩, ⟨.word .if, "if", 1⟩, ⟨.mark .leftParen, "(", 1⟩,
    ⟨.identifier, "b", 1⟩, ⟨.mark .rightParen, ")", 1⟩, ⟨.identifier, "c", 1⟩,
    ⟨.mark .semicolon, ";", 1⟩, ⟨.word .else, "else", 1⟩, ⟨.identifier, "d", 1⟩,
    ⟨.mark .semicolon, ";", 1⟩]

theorem reads_iff_derives_nestedIf : (∀ t ∈ nestedIf, t.kind ≠ .finish) ∧
    Derives Complete (.declarations
      [.if (.var ⟨0, ⟨.identifier, "a", 1⟩⟩)
        (.if (.var ⟨1, ⟨.identifier, "b", 1⟩⟩)
          (.expression (.var ⟨2, ⟨.identifier, "c", 1⟩⟩))
          (some (.expression (.var ⟨3, ⟨.identifier, "d", 1⟩⟩)))) none]) nestedIf 0 4 [] :=
  ⟨by decide, ((@reads_iff_derives nestedIf ⟨.finish, "", 1⟩ 0 (by decide) rfl).2.1 _ _).1 (by cbv)⟩

end Lox.Grammar
