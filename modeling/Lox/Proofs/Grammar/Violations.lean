import Mathlib
import Lox.Proofs.Grammar.CorrectPrefix

/-!
# Violations are counted exactly

Main statement: of a program that derives from the relaxed rules, reading reports just the
violations in its parse tree, one for each parameter and argument beyond the limit and one for
each assignment to something that cannot be assigned to.
-/

set_option autoImplicit false

namespace Lox.Grammar

variable {ts : List Token} {finish : Token} {n k : Nat} {ds : List Diagnostic}

theorem Derives.readProgram {program : List Stmt}
    (h : Derives Complete (.declarations program) ts n k ds) (hts : ∀ t ∈ ts, t.kind ≠ .finish)
    (hf : finish.kind = .finish) :
    readProgram n (ts ++ [finish]) = ⟨if ds.isEmpty then .ok program else .error ds, k⟩ := by
  have hread : topLevel ts.length ⟨ts, finish, n, #[]⟩ = .ok program ⟨[], finish, k, ds.toArray⟩ := by
    simpa [pure_apply] using h.reads.2 ts.length (Nat.le_refl _) finish #[]
  unfold Grammar.readProgram Reading.ofStep
  simp only [ofTokens_eq hts hf, hread]
  cases ds <;> rfl

/-- What a program consists of, up to the end of the input. -/
theorem Parses.program {tree : ParseTree} (h : Parses (.nonterminal .program) [tree]) (n : Nat) :
    ∃ ts finish program k ds, tree.tokens = ts ++ [finish] ∧ finish.kind = .finish ∧
      (∀ t ∈ ts, t.kind ≠ .finish) ∧ Derives Complete (.declarations program) ts n k ds ∧
      (ds : Multiset Diagnostic) = tree.violations := by
  obtain ⟨us, finish, htree, hf, hus⟩ := h.mem_meaning
  obtain rfl := List.singleton_inj.1 htree
  obtain ⟨program, k, ds, hd, hv⟩ := hus n
  obtain ⟨program, hd⟩ := hd.derivable
  obtain ⟨ts, t, hts, -, hm⟩ := matches_whole.1 (matches_nonterminal.1 h.matches)
  have hts : ParseTree.tokensAll us ++ [finish] = ts ++ [t] := by simpa using hts
  obtain rfl := (List.append_inj' hts rfl).1
  exact ⟨_, finish, program, k, ds, by simp, hf, hm.ne_finish (by decide), hd,
    by simpa [ParseTree.own] using hv⟩

/-- Tokens that derive from the relaxed rules have a parse tree, and in whatever way they are
parsed, the violations in the tree are what reading reports, each of them once. Without any,
reading succeeds. -/
theorem violations_reported (h : Matches (.nonterminal .program) ts) (n : Nat) :
    (∃ tree, Parses (.nonterminal .program) [tree] ∧ tree.tokens = ts) ∧
    ∀ tree, Parses (.nonterminal .program) [tree] → tree.tokens = ts →
      ((readProgram n ts).diagnostics : Multiset Diagnostic) = tree.violations ∧
      (tree.violations = 0 → ∃ program, (readProgram n ts).result = .ok program) := by
  constructor
  · obtain ⟨cs, hcs, rfl⟩ := h.parses
    cases hcs with
    | nonterminal hcs => exact ⟨_, .nonterminal hcs, by simp⟩
  · rintro tree htree rfl
    obtain ⟨ts, finish, program, k, ds, htokens, hf, hts, hd, hv⟩ := htree.program n
    rw [htokens, hd.readProgram hts hf, ← hv]
    cases ds with
    | nil => exact ⟨rfl, fun _ => ⟨program, rfl⟩⟩
    | cons d ds => exact ⟨rfl, fun h => absurd h (by simp)⟩

/-- The tokens of `1 = f(a = b) = 2;`. -/
def chained : List Token :=
  [⟨.number 1, "1", 1⟩, ⟨.mark .equal, "=", 1⟩, ⟨.identifier, "f", 1⟩, ⟨.mark .leftParen, "(", 1⟩,
    ⟨.identifier, "a", 1⟩, ⟨.mark .equal, "=", 1⟩, ⟨.identifier, "b", 1⟩,
    ⟨.mark .rightParen, ")", 1⟩, ⟨.mark .equal, "=", 2⟩, ⟨.number 2, "2", 2⟩,
    ⟨.mark .semicolon, ";", 2⟩]

theorem violations_reported_chained :
    Matches (.nonterminal .program) (chained ++ [⟨.finish, "", 2⟩]) ∧
    ∃ tree, Parses (.nonterminal .program) [tree] ∧
      tree.tokens = chained ++ [⟨.finish, "", 2⟩] ∧
      tree.violations = {.parse 1 (.lexeme "=") .invalidTarget, .parse 2 (.lexeme "=") .invalidTarget} := by
  have hts : ∀ t ∈ chained, t.kind ≠ .finish := by decide
  have h : Matches (.nonterminal .program) (chained ++ [⟨.finish, "", 2⟩]) := by
    rw [matches_nonterminal]
    apply (reader_topLevel.matches_iff hts rfl 0).2
    cbv
  obtain ⟨⟨tree, htree, htokens⟩, hall⟩ := violations_reported h 0
  refine ⟨h, tree, htree, htokens, ?_⟩
  rw [← (hall tree htree htokens).1]
  have hd : (readProgram 0 (chained ++ [⟨.finish, "", 2⟩])).diagnostics =
      [.parse 2 (.lexeme "=") .invalidTarget, .parse 1 (.lexeme "=") .invalidTarget] := by cbv
  rw [hd]
  exact Multiset.coe_eq_coe.2 (.swap ..)

end Lox.Grammar
