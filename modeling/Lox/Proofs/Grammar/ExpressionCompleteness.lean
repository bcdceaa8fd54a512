import Lox.Proofs.Grammar.Consumes
import Lox.Proofs.Grammar.Shape

/-!
# Expressions that derive from the grammar are read

`Reads` says for each phrase which step consumes its tokens, how many tokens the step
has to allow for and which token must not follow. There is one lemma for each rule of
the grammar: if the phrases on its right side are read, so is the one on its left.
-/

set_option autoImplicit false

namespace Lox.Grammar

def isSuffix (k : Kind) : Bool := k == .mark .leftParen || k == .mark .dot

namespace Level

/-- How loosely the operators of the level bind. -/
def rank : Level → Nat
  | .primary => 0
  | .call => 1
  | .unary => 2
  | .chain .factor => 3
  | .chain .term => 4
  | .chain .comparison => 5
  | .chain .equality => 6
  | .chain .and => 7
  | .chain .or => 8
  | .assignment => 9

/-- The kinds of the tokens that extend an expression of the level. -/
def continues : Level → Kind → Bool
  | .primary, _ => false
  | .call, k => isSuffix k
  | .unary, k => isSuffix k
  | .chain c, k => c.operator k || continues c.operand k
  | .assignment, k => k == .mark .equal || continues (.chain .or) k
termination_by l => l.rank
decreasing_by
  · cases c <;> decide
  · decide

/-- The step that reads an expression of the level from at most `b + 1` tokens. -/
def step (b : Nat) : Level → Step Expr
  | .primary => Grammar.primary (expression b)
  | .call => Grammar.call (expression b) (b + 1)
  | .unary => Grammar.unary (expression b) (b + 1)
  | .chain .factor => factor (expression b) (b + 1)
  | .chain .term => term (expression b) (b + 1)
  | .chain .comparison => comparison (expression b) (b + 1)
  | .chain .equality => equality (expression b) (b + 1)
  | .chain .and => logicAnd (expression b) (b + 1)
  | .chain .or => logicOr (expression b) (b + 1)
  | .assignment => expression (b + 1)

theorem step_chain (b : Nat) (c : Chain) :
    step b (.chain c) = level c.operator c.join (step b c.operand) (b + 1) := by
  cases c <;> rfl

/-- A token extends an expression of one level only. -/
theorem continues_operand {c : Chain} {k : Kind} (h : c.operator k = true) :
    continues c.operand k = false := by
  cases c <;>
    simp only [Chain.operator, isEqualityOperator, isComparisonOperator, isTermOperator,
      isFactorOperator, Bool.or_eq_true, beq_iff_eq, or_assoc] at h
  case or | and => subst h; simp [continues, Chain.operand, Chain.operator, isEqualityOperator,
    isComparisonOperator, isTermOperator, isFactorOperator, isSuffix]
  case equality | term | factor =>
    rcases h with rfl | rfl <;> simp [continues, Chain.operand, Chain.operator,
      isComparisonOperator, isTermOperator, isFactorOperator, isSuffix]
  case comparison =>
    rcases h with rfl | rfl | rfl | rfl <;> simp [continues, Chain.operand, Chain.operator,
      isTermOperator, isFactorOperator, isSuffix]

theorem continues_operand_of_chain {c : Chain} {k : Kind} (h : continues c.operand k = true) :
    continues (.chain c) k = true := by
  simp [continues, h]

theorem continues_operator {c : Chain} {k : Kind} (h : c.operator k = true) :
    continues (.chain c) k = true := by
  simp [continues, h]

/-- All kinds of tokens that extend an expression. -/
theorem continues_assignment (k : Kind) : continues .assignment k =
    (k == .mark .equal || (k == .word .or || (k == .word .and || (isEqualityOperator k ||
      (isComparisonOperator k || (isTermOperator k || (isFactorOperator k || isSuffix k))))))) := by
  simp [continues, Chain.operand, Chain.operator]

end Level

/-- The tokens that may follow an expression of the loosest level. -/
theorem avoids_closer {c : Token} {rest : List Token} {m : Mark}
    (hm : m = .rightParen ∨ m = .semicolon ∨ m = .comma) (hc : c.kind = .mark m) :
    Avoids (Level.continues .assignment) (c :: rest) := by
  rw [avoids_cons, hc, Level.continues_assignment]
  rcases hm with rfl | rfl | rfl <;> rfl

/-- The operators before an operand, with bounds of their own on their number and on
the suffixes of the operand. -/
def unaryFrom (inner : Step Expr) (m n : Nat) : Step Expr := do
  let ops ← unaryOperators m
  let e ← call inner n
  return ops.foldr Expr.unary e

/-- The step that reads the phrase consumes the tokens, with a bound that suffices for
them and what follows, unless something follows that belongs to the phrase. -/
def Reads : Phrase → List Token → Nat → Nat → List Diagnostic → Prop
  | .expr .call e, ts, n, k, ds => ∀ b rest, (ts ++ rest).length ≤ b + 1 →
    ∃ m, b + 1 ≤ m + ts.length ∧
      Consumes (call (expression b) (b + 1)) ts rest n k ds (suffixes (expression b) m e)
  | .expr .unary e, ts, n, k, ds => ∀ b m rest, (ts ++ rest).length ≤ b + 1 → ts.length ≤ m →
    Avoids isSuffix rest → Consumes (unaryFrom (expression b) m (b + 1)) ts rest n k ds (pure e)
  | .expr l e, ts, n, k, ds => ∀ b rest, (ts ++ rest).length ≤ b + 1 →
    Avoids l.continues rest → Consumes (l.step b) ts rest n k ds (pure e)
  | .suffixes f e, ts, n, k, ds => ∀ b m rest, (ts ++ rest).length ≤ b + 1 → ts.length ≤ m →
    ∃ m', m ≤ m' + ts.length ∧
      Consumes (suffixes (expression b) m f) ts rest n k ds (suffixes (expression b) m' e)
  | .operands c l e, ts, n, k, ds => ∀ b m rest, (ts ++ rest).length ≤ b + 1 → ts.length ≤ m →
    Avoids (Level.chain c).continues rest →
      Consumes (leftChain c.operator c.join (c.operand.step b) m l) ts rest n k ds (pure e)
  | .arguments count es, ts, n, k, ds => ∀ b m c rest, (ts ++ c :: rest).length ≤ b →
    ts.length ≤ m + 1 → c.kind = .mark .rightParen →
      Consumes (argumentsFrom (expression b) m count) ts (c :: rest) n k ds (pure es)
  | .optional e, ts, n, k, ds => ∀ b c rest, (ts ++ c :: rest).length ≤ b →
    c.kind = .mark .semicolon ∨ c.kind = .mark .rightParen →
      Consumes (unlessNext c.kind (expression b)) ts (c :: rest) n k ds (pure e)
  | .varDeclaration s, ts, n, k, ds => ∃ w us, ts = w :: us ∧ w.kind = .word .var ∧
    ∀ b rest, (us ++ rest).length ≤ b →
      Consumes (varDeclaration (expression b)) us rest n k ds (pure s)
  | .initializer s, ts, n, k, ds => ∀ b rest, (ts ++ rest).length ≤ b →
    Consumes (forInitializer (expression b)) ts rest n k ds (pure s)
  | .statement d s, ts, n, k, ds => ∀ b rest, (ts ++ rest).length ≤ b →
    (d = true → Avoids (· == .word .else) rest) →
      Consumes (statement b) ts rest n k ds (pure s)
  | .declaration s, ts, n, k, ds => ∀ b rest, (ts ++ rest).length ≤ b + 1 →
    Avoids (· == .word .else) rest →
      Consumes (declarationWith (b + 1) (statement b) (declarations b)) ts rest n k ds
        (pure (some s))
  | .declarations ss, ts, n, k, ds =>
    (∀ b c rest, (ts ++ c :: rest).length ≤ b → c.kind = .mark .rightBrace →
      Consumes (declarations b) ts (c :: rest) n k ds (pure ss)) ∧
    ∀ b, ts.length ≤ b → Consumes (topLevel b) ts [] n k ds (pure ss)
  | .superclass r, ts, n, k, ds => ∀ rest, Avoids (· == .mark .less) rest →
    Consumes superclass ts rest n k ds (pure r)
  | .parameters count ps, ts, n, k, ds => ∀ m rest, ts.length ≤ m + 1 →
    Avoids (· == .mark .comma) rest → Consumes (parametersFrom m count) ts rest n k ds (pure ps)
  | .someParameters ps, ts, n, k, ds => ∀ m c rest, ts.length ≤ m + 1 →
    c.kind = .mark .rightParen →
      Consumes (do if ← nextIs (.mark .rightParen) then pure [] else parametersFrom m 0)
        ts (c :: rest) n k ds (pure ps)
  | .function f, ts, n, k, ds => ∀ r b m rest, (ts ++ rest).length ≤ b → ts.length ≤ m + 1 →
    Consumes (routine r (declarations b) m) ts rest n k ds (pure f)
  | .functions fs, ts, n, k, ds => ∀ b m c rest, (ts ++ c :: rest).length ≤ b → ts.length ≤ m →
    c.kind = .mark .rightBrace →
      Consumes (methods (declarations b) m) ts (c :: rest) n k ds (pure fs)

section Primaries

variable {inner p q : Step Expr} {t : Token} {ts rest : List Token} {n k : Nat}
  {ds : List Diagnostic}

theorem Consumes.primary (ht : primaryOf inner t = some p) (hp : Consumes p ts rest n k ds q) :
    Consumes (primary inner) (t :: ts) rest n k ds q := by
  intro finish reports
  simp only [Grammar.primary, List.cons_append, ht]
  exact hp finish reports

theorem primaryOf_literal {v : Literal} (h : literal? t.kind = some v) :
    primaryOf inner t = some (pure (.literal v)) := by
  unfold literal? at h
  split at h <;> cases h <;> simp [primaryOf, *]

theorem Reads.literal {v : Literal} (ht : literal? t.kind = some v) :
    Reads (.expr .primary (.literal v)) [t] n n [] := by
  intro b rest _ _
  exact .primary (primaryOf_literal ht) (.refl _ _ _)

theorem Reads.this (ht : t.kind = .word .this) :
    Reads (.expr .primary (.this ⟨n, t⟩)) [t] n (n + 1) [] := by
  intro b rest _ _
  have hp : primaryOf (expression b) t = some (do return .this (← reference t)) := by
    rw [primaryOf, ht]
  exact .primary hp ((Consumes.reference t).ending rfl)

theorem Reads.var (ht : t.kind = .identifier) :
    Reads (.expr .primary (.var ⟨n, t⟩)) [t] n (n + 1) [] := by
  intro b rest _ _
  have hp : primaryOf (expression b) t = some (do return .var (← reference t)) := by
    rw [primaryOf, ht]
  exact .primary hp ((Consumes.reference t).ending rfl)

theorem Reads.super {dot x : Token} (ht : t.kind = .word .super) (hd : dot.kind = .mark .dot)
    (hx : x.kind = .identifier) :
    Reads (.expr .primary (.super ⟨n, t⟩ x)) [t, dot, x] n (n + 1) [] := by
  intro b rest _ _
  have hs : Consumes (superAccess t) [dot, x] rest n (n + 1) [] (pure (.super ⟨n, t⟩ x)) :=
    (Consumes.expect hd).bind ((Consumes.expect hx).bind ((Consumes.reference t).ending rfl))
  have hp : primaryOf (expression b) t = some (superAccess t) := by rw [primaryOf, ht]
  exact .primary hp hs

theorem Reads.grouping {o c : Token} {e : Expr} (ho : o.kind = .mark .leftParen)
    (he : Reads (.expr .assignment e) ts n k ds) (hc : c.kind = .mark .rightParen) :
    Reads (.expr .primary (.grouping e)) (o :: ts ++ [c]) n k ds := by
  intro b rest hb _
  obtain ⟨b, rfl⟩ : ∃ b', b = b' + 1 := ⟨b - 1, by simp at hb; omega⟩
  have hi : Consumes (expression (b + 1)) ts (c :: rest) n k ds (pure e) :=
    he b (c :: rest) (by simp at hb ⊢; omega) (avoids_closer (.inl rfl) hc)
  have hg : Consumes (group (expression (b + 1))) (ts ++ [c]) rest n k ds (pure (.grouping e)) := by
    exact .of_eq (hi.bind ((Consumes.expect hc).ending rfl)) (by simp) (by simp)
  have hp : primaryOf (expression (b + 1)) o = some (group (expression (b + 1))) := by
    rw [primaryOf, ho]
  exact .primary hp hg

end Primaries

section Suffixes

variable {f e o : Expr} {t x : Token} {ts us rest : List Token} {n m k : Nat} {ds es : List Diagnostic}

theorem Reads.noSuffix : Reads (.suffixes e e) [] n n [] :=
  fun _ N _ _ _ => ⟨N, by simp, .refl _ _ _⟩

theorem Reads.emptyCall {c : Token} (ht : t.kind = .mark .leftParen)
    (hc : c.kind = .mark .rightParen) (hs : Reads (.suffixes (.call f c []) e) us n k es) :
    Reads (.suffixes f e) (t :: c :: us) n k es := by
  intro b N rest hb hN
  obtain ⟨N, rfl⟩ : ∃ N', N = N' + 1 := ⟨N - 1, by simp at hN; omega⟩
  obtain ⟨N', hN', hs⟩ := hs b N rest (by simp at hb ⊢; omega) (by simp at hN; omega)
  refine ⟨N', by simp; omega, .accepting_yes ht ?_⟩
  have ha : Consumes (do if ← nextIs (.mark .rightParen) then pure [] else
      argumentsFrom (expression b) N 0) [] (c :: (us ++ rest)) n n [] (pure []) :=
    .ifNext_yes hc (.refl _ _ _)
  have hcall : Consumes (callArguments (expression b) N) [c] (us ++ rest) n n []
      (pure ([], c)) := by
    rw [callArguments_eq]
    exact ha.followedBy [c] rfl ((Consumes.expect hc).ending rfl)
  exact hcall.bind hs

theorem Reads.argumentCall {c : Token} {args : List Expr} (ho : t.kind = .mark .leftParen)
    (hstart : ∃ u vs, ts = u :: vs ∧ startsExpression u.kind = true)
    (ha : Reads (.arguments 0 args) ts n m ds) (hc : c.kind = .mark .rightParen)
    (hs : Reads (.suffixes (.call f c args) e) us m k es) :
    Reads (.suffixes f e) (t :: ts ++ c :: us) n k (ds ++ es) := by
  intro b N rest hb hN
  obtain ⟨N, rfl⟩ : ∃ N', N = N' + 1 := ⟨N - 1, by simp at hN; omega⟩
  obtain ⟨N', hN', hs⟩ := hs b N rest (by simp at hb ⊢; omega) (by simp at hN; omega)
  refine ⟨N', by simp; omega, .accepting_yes ho ?_⟩
  have hargs : Consumes (argumentsFrom (expression b) N 0) ts (c :: (us ++ rest)) n m ds
      (pure args) := ha b N c _ (by simp at hb ⊢; omega) (by simp at hN; omega) hc
  have hne : Avoids (· == .mark .rightParen) (ts ++ c :: (us ++ rest)) := by
    obtain ⟨u, vs, rfl, hu⟩ := hstart
    exact avoids_cons.2 (ne_of_startsExpression hu rfl)
  have hcall : Consumes (callArguments (expression b) N) (ts ++ [c]) (us ++ rest) n m ds
      (pure (args, c)) := by
    rw [callArguments_eq]
    exact .of_eq ((Consumes.ifNext_no hne hargs).followedBy [c] rfl
      ((Consumes.expect hc).ending rfl)) rfl (by simp)
  exact .of_eq (hcall.bind hs) (by simp) (by simp)

theorem Reads.property (ht : t.kind = .mark .dot) (hx : x.kind = .identifier)
    (hs : Reads (.suffixes (.get o x) e) us n k es) :
    Reads (.suffixes o e) (t :: x :: us) n k es := by
  intro b N rest hb hN
  obtain ⟨N, rfl⟩ : ∃ N', N = N' + 1 := ⟨N - 1, by simp at hN; omega⟩
  obtain ⟨N', hN', hs⟩ := hs b N rest (by simp at hb ⊢; omega) (by simp at hN; omega)
  refine ⟨N', by simp; omega, .accepting_no (avoids_cons.2 (by rw [ht]; rfl)) ?_⟩
  exact .accepting_yes ht ((Consumes.expect hx).bind hs)

theorem Reads.argument {count : Nat}
    (hstart : ∃ u vs, ts = u :: vs ∧ startsExpression u.kind = true)
    (he : Reads (.expr .assignment e) ts n k ds) :
    Reads (.arguments count [e]) ts n k (beyond .tooManyArguments count ts ++ ds) := by
  obtain ⟨u, vs, rfl, hu⟩ := hstart
  intro b N c rest hb hN hc
  obtain ⟨b, rfl⟩ : ∃ b', b = b' + 1 := ⟨b - 1, by simp at hb; omega⟩
  have hi : Consumes (expression (b + 1)) (u :: vs) (c :: rest) n k ds (pure e) :=
    he b (c :: rest) (by omega) (avoids_closer (.inl rfl) hc)
  cases N with
  | zero => exact .limit (hi.ending rfl)
  | succ N =>
    refine .limit ?_
    have hno : Consumes (do
        if ← accept (.mark .comma) then
          return e :: (← argumentsFrom (expression (b + 1)) N (count + 1))
        else
          return [e]) [] (c :: rest) k k [] (pure [e]) :=
      .accepting_no (avoids_cons.2 (by rw [hc]; rfl)) (.refl _ _ _)
    exact .of_eq (hi.followedBy [] rfl hno) (by simp) (by simp)

theorem Reads.moreArguments {count : Nat} {args : List Expr} {c : Token}
    (hstart : ∃ u vs, ts = u :: vs ∧ startsExpression u.kind = true)
    (hmore : ∃ u vs, us = u :: vs ∧ startsExpression u.kind = true)
    (he : Reads (.expr .assignment e) ts n m ds) (hc : c.kind = .mark .comma)
    (ha : Reads (.arguments (count + 1) args) us m k es) :
    Reads (.arguments count (e :: args)) (ts ++ c :: us) n k
      (beyond .tooManyArguments count ts ++ ds ++ es) := by
  obtain ⟨u, vs, rfl, hu⟩ := hstart
  intro b N d rest hb hN hd
  obtain ⟨N, rfl⟩ : ∃ N', N = N' + 1 := by
    obtain ⟨_, _, rfl, -⟩ := hmore
    exact ⟨N - 1, by simp at hN; omega⟩
  obtain ⟨b, rfl⟩ : ∃ b', b = b' + 1 := ⟨b - 1, by simp at hb; omega⟩
  have hi : Consumes (expression (b + 1)) (u :: vs) (c :: (us ++ d :: rest)) n m ds (pure e) :=
    he b _ (by simp at hb ⊢; omega) (avoids_closer (.inr (.inr rfl)) hc)
  have hargs := ha (b + 1) N d rest (by simp at hb ⊢; omega) (by simp at hN; omega) hd
  have hbeyond : beyond .tooManyArguments count (u :: vs) =
      beyond .tooManyArguments count (u :: (vs ++ c :: us)) := rfl
  rw [hbeyond, List.append_assoc]
  refine .limit ?_
  exact hi.followedBy (c :: us) rfl (.accepting_yes hc (hargs.ending rfl))

theorem Reads.call {p : Expr} (hp : Reads (.expr .primary p) ts n m ds)
    (hs : Reads (.suffixes p e) us m k es) : Reads (.expr .call e) (ts ++ us) n k (ds ++ es) := by
  intro b rest hb
  obtain ⟨N, hN, hs⟩ := hs b (b + 1) rest (by simp at hb ⊢; omega) (by simp at hb ⊢; omega)
  have hp : Consumes (primary (expression b)) ts (us ++ rest) n m ds (pure p) :=
    hp b (us ++ rest) (by simpa using hb) (fun _ _ => by simp [Level.continues])
  exact ⟨N, by simp; omega, hp.bind hs⟩

/-- Suffixes end where nothing follows that could be one. -/
theorem suffixes_stop (b N : Nat) (h : Avoids isSuffix rest) :
    Consumes (suffixes (expression b) N e) [] rest n n [] (pure e) := by
  cases N with
  | zero => exact .refl _ _ _
  | succ N =>
    refine .accepting_no (h.mono fun k hk => ?_) (.accepting_no (h.mono fun k hk => ?_) (.refl _ _ _))
    · simp [isSuffix, eq_of_beq hk]
    · simp [isSuffix, eq_of_beq hk]

theorem Reads.call_run (he : Reads (.expr .call e) ts n k ds) {b : Nat}
    (hb : (ts ++ rest).length ≤ b + 1) (h : Avoids isSuffix rest) :
    Consumes (Grammar.call (expression b) (b + 1)) ts rest n k ds (pure e) := by
  obtain ⟨N, -, he⟩ := he b rest hb
  exact .of_eq (he.trans [] rfl (suffixes_stop b N h)) (by simp) (by simp)

end Suffixes

section Operators

variable {inner : Step Expr} {c : Chain} {e l r v o : Expr} {op q x : Token}
  {ts us rest : List Token} {n m k b : Nat} {ds es : List Diagnostic}

theorem unaryOperators_stop (m : Nat) (h : Avoids isUnaryOperator rest) :
    Consumes (unaryOperators m) [] rest n n [] (pure []) := by
  cases m with
  | zero => exact .refl _ _ _
  | succ m => exact (Consumes.acceptIf_no h).ending rfl

theorem unaryFrom_succ (m m' : Nat) : unaryFrom inner (m + 1) m' = (do
    match ← acceptIf isUnaryOperator with
    | some op => Expr.unary op <$> unaryFrom inner m m'
    | none => Grammar.call inner m') := by
  rw [unaryFrom, unaryOperators, bind_assoc]
  congr
  funext o
  cases o <;> simp [unaryFrom]

theorem Consumes.unaryFrom_operator {m' : Nat} (ho : isUnaryOperator op.kind = true)
    (he : Consumes (unaryFrom inner m m') ts rest n k ds (pure e)) :
    Consumes (unaryFrom inner (m + 1) m') (op :: ts) rest n k ds (pure (.unary op e)) := by
  rw [unaryFrom_succ]
  exact (Consumes.acceptIf_yes ho).bind (he.map (Expr.unary op))

theorem Reads.operator (ho : isUnaryOperator op.kind = true)
    (he : Reads (.expr .unary e) ts n k ds) :
    Reads (.expr .unary (.unary op e)) (op :: ts) n k ds := by
  intro b m rest hb hm hrest
  obtain ⟨m, rfl⟩ : ∃ m', m = m' + 1 := ⟨m - 1, by simp at hm; omega⟩
  exact .unaryFrom_operator ho
    (he b m rest (by simp at hb ⊢; omega) (by simp at hm; omega) hrest)

theorem Reads.noOperator (hstart : ∃ u vs, ts = u :: vs ∧ startsPrimary u.kind = true)
    (he : Reads (.expr .call e) ts n k ds) : Reads (.expr .unary e) ts n k ds := by
  intro b m rest hb hm hrest
  have hno : Avoids isUnaryOperator (ts ++ rest) := by
    obtain ⟨u, vs, rfl, hu⟩ := hstart
    exact avoids_cons.2 (not_unary_of_startsPrimary hu)
  exact (unaryOperators_stop m hno).bind ((he.call_run hb hrest).ending rfl)

/-- An expression of any level is read by the step of the level. -/
theorem Reads.run {l : Level} (he : Reads (.expr l e) ts n k ds) (hb : (ts ++ rest).length ≤ b + 1)
    (h : Avoids l.continues rest) : Consumes (l.step b) ts rest n k ds (pure e) := by
  cases l with
  | call => exact he.call_run hb (h.mono fun k hk => by simpa [Level.continues] using hk)
  | unary =>
    refine he b (b + 1) rest hb (by simp at hb; omega) (h.mono fun k hk => ?_)
    simpa [Level.continues] using hk
  | primary | chain | assignment => exact he b rest hb h

theorem Reads.noOperand : Reads (.operands c e e) [] n n [] := by
  intro b m rest _ _ hrest
  cases m with
  | zero => exact .refl _ _ _
  | succ m =>
    exact (Consumes.acceptIf_no (hrest.mono fun _ h => Level.continues_operator h)).ending rfl

/-- What stands behind an operand does not belong to it. -/
theorem Reads.avoids_operand (hs : (∃ op vs, us = op :: vs ∧ c.operator op.kind = true) ∨ us = [])
    (hrest : Avoids (Level.chain c).continues rest) : Avoids c.operand.continues (us ++ rest) := by
  rcases hs with ⟨op, vs, rfl, hop⟩ | rfl
  · exact avoids_cons.2 (Level.continues_operand hop)
  · exact hrest.mono fun _ h => Level.continues_operand_of_chain h

theorem Reads.operand (ho : c.operator op.kind = true)
    (hs : (∃ op vs, us = op :: vs ∧ c.operator op.kind = true) ∨ us = [])
    (hr : Reads (.expr c.operand r) ts n m ds)
    (he : Reads (.operands c (c.join l op r) e) us m k es) :
    Reads (.operands c l e) (op :: ts ++ us) n k (ds ++ es) := by
  intro b N rest hb hN hrest
  obtain ⟨N, rfl⟩ : ∃ N', N = N' + 1 := ⟨N - 1, by simp at hN; omega⟩
  have hr : Consumes (c.operand.step b) ts (us ++ rest) n m ds (pure r) :=
    hr.run (by simp at hb ⊢; omega) (Reads.avoids_operand hs hrest)
  have he := he b N rest (by simp at hb ⊢; omega) (by simp at hN ⊢; omega) hrest
  exact (Consumes.acceptIf_yes ho).bind (hr.bind he)

theorem Reads.chain (hs : (∃ op vs, us = op :: vs ∧ c.operator op.kind = true) ∨ us = [])
    (hl : Reads (.expr c.operand l) ts n m ds) (he : Reads (.operands c l e) us m k es) :
    Reads (.expr (.chain c) e) (ts ++ us) n k (ds ++ es) := by
  intro b rest hb hrest
  have hl : Consumes (c.operand.step b) ts (us ++ rest) n m ds (pure l) :=
    hl.run (by simpa using hb) (Reads.avoids_operand hs hrest)
  have he := he b (b + 1) rest (by simp at hb ⊢; omega) (by simp at hb ⊢; omega) hrest
  rw [Level.step_chain]
  exact hl.bind he

/-- An expression that is its own only operand. -/
theorem Consumes.chain (h : Avoids (Level.chain c).continues rest)
    (he : Consumes (c.operand.step b) ts rest n k ds (pure e)) :
    Consumes (Level.step b (.chain c)) ts rest n k ds (pure e) := by
  rw [Level.step_chain]
  have hno : Consumes (leftChain c.operator c.join (c.operand.step b) (b + 1) e) [] rest k k []
      (pure e) :=
    (Consumes.acceptIf_no (h.mono fun _ h => Level.continues_operator h)).ending rfl
  exact .of_eq (he.followedBy [] rfl hno) (by simp) (by simp)

theorem Consumes.or_of_call (hstart : ∃ u vs, ts = u :: vs ∧ startsPrimary u.kind = true)
    (h : Avoids (Level.chain .or).continues rest)
    (he : Consumes (Grammar.call (expression b) (b + 1)) ts rest n k ds (pure e)) :
    Consumes (logicOr (expression b) (b + 1)) ts rest n k ds (pure e) := by
  have hand : Avoids (Level.chain .and).continues rest :=
    h.mono fun _ => Level.continues_operand_of_chain (c := .or)
  have hequality : Avoids (Level.chain .equality).continues rest :=
    hand.mono fun _ => Level.continues_operand_of_chain (c := .and)
  have hcomparison : Avoids (Level.chain .comparison).continues rest :=
    hequality.mono fun _ => Level.continues_operand_of_chain (c := .equality)
  have hterm : Avoids (Level.chain .term).continues rest :=
    hcomparison.mono fun _ => Level.continues_operand_of_chain (c := .comparison)
  have hfactor : Avoids (Level.chain .factor).continues rest :=
    hterm.mono fun _ => Level.continues_operand_of_chain (c := .term)
  have hno : Avoids isUnaryOperator (ts ++ rest) := by
    obtain ⟨u, vs, rfl, hu⟩ := hstart
    exact avoids_cons.2 (not_unary_of_startsPrimary hu)
  have hunary : Consumes (Level.step b .unary) ts rest n k ds (pure e) := by
    exact (unaryOperators_stop (b + 1) hno).bind (he.ending rfl)
  exact .chain (c := .or) h <| .chain (c := .and) hand <| .chain (c := .equality) hequality <|
    .chain (c := .comparison) hcomparison <| .chain (c := .term) hterm <|
    .chain (c := .factor) hfactor hunary

theorem Reads.noAssignment (he : Reads (.expr (.chain .or) e) ts n k ds) :
    Reads (.expr .assignment e) ts n k ds := by
  intro b rest hb hrest
  have hor : Avoids (Level.chain .or).continues rest :=
    hrest.mono fun k hk => by simp [Level.continues, hk]
  have hno : Avoids (· == .mark .equal) rest :=
    hrest.mono fun k hk => by simp [Level.continues, eq_of_beq hk]
  exact .of_eq ((he b rest hb hor).bind ((Consumes.acceptIf_no hno).ending rfl)) (by simp) (by simp)

/-- The mark of an assignment extends nothing of a tighter level. -/
theorem avoids_equal (hq : q.kind = .mark .equal) :
    Avoids (Level.chain .or).continues (q :: rest) := by
  rw [avoids_cons, hq]
  simp [Level.continues, Chain.operator, Chain.operand, isEqualityOperator, isComparisonOperator,
    isTermOperator, isFactorOperator, isSuffix]

theorem Consumes.equal {target : Expr} {value : Token → Step Expr} {r : Step Expr}
    (hq : q.kind = .mark .equal) (hv : Consumes (value q) ts rest n k ds r) :
    Consumes (do
      match ← accept? (.mark .equal) with
      | some equals => value equals
      | none => pure target) (q :: ts) rest n k ds r :=
  (Consumes.acceptIf_yes (by simp [hq])).bind hv

/-- An assignment whose target has been read. -/
theorem Consumes.assignment {target : Expr} (hq : q.kind = .mark .equal)
    (ht : Consumes (logicOr (expression b) (b + 1)) ts (q :: (us ++ rest)) n m ds (pure target))
    (hv : Reads (.expr .assignment v) us m k es) (hb : (q :: (us ++ rest)).length ≤ b + 1)
    (hstart : ∃ u vs, us = u :: vs ∧ startsExpression u.kind = true)
    (hrest : Avoids (Level.continues .assignment) rest) {k' : Nat} {fs : List Diagnostic}
    (ha : Consumes (assignTo target q v) [] rest k k' fs (pure e)) :
    Consumes (expression (b + 1)) (ts ++ q :: us) rest n k' (ds ++ es ++ fs) (pure e) := by
  obtain ⟨u, vs, rfl, -⟩ := hstart
  obtain ⟨b, rfl⟩ : ∃ b', b = b' + 1 := ⟨b - 1, by simp at hb; omega⟩
  have hv : Consumes (expression (b + 1)) (u :: vs) rest m k es (pure v) :=
    hv b rest (by simp at hb ⊢; omega) hrest
  have hvalue : Consumes (expression (b + 1) >>= assignTo target q) (u :: vs) rest m k' (es ++ fs)
      (pure e) := .of_eq (hv.followedBy [] rfl ha) (by simp) rfl
  exact .of_eq (ht.followedBy (q :: u :: vs) rfl (.equal hq hvalue)) rfl (by simp)

theorem Reads.assignVar (hx : x.kind = .identifier) (hq : q.kind = .mark .equal)
    (hstart : ∃ u vs, ts = u :: vs ∧ startsExpression u.kind = true)
    (hv : Reads (.expr .assignment v) ts (n + 1) k ds) :
    Reads (.expr .assignment (.assign ⟨k, x⟩ v)) (x :: q :: ts) n (k + 1) ds := by
  intro b rest hb hrest
  have hcall : Reads (.expr .call (.var ⟨n, x⟩)) [x] n (n + 1) [] :=
    (Reads.var hx).call .noSuffix
  have ht : Consumes (logicOr (expression b) (b + 1)) [x] (q :: (ts ++ rest)) n (n + 1) []
      (pure (.var ⟨n, x⟩)) :=
    .or_of_call ⟨x, [], rfl, by rw [hx]; rfl⟩ (avoids_equal hq)
      (hcall.call_run hb (avoids_cons.2 (by rw [hq]; rfl)))
  have ha : Consumes (assignTo (.var ⟨n, x⟩) q v) [] rest k (k + 1) []
      (pure (.assign ⟨k, x⟩ v)) := (Consumes.reference x).ending rfl
  exact .of_eq (Consumes.assignment hq ht hv (by simp at hb ⊢; omega) hstart hrest ha) (by simp) (by simp)

theorem Reads.assignProperty {dot : Token} (ho : Reads (.expr .call o) ts n m ds)
    (hcall : ∃ u vs, ts = u :: vs ∧ startsPrimary u.kind = true) (hd : dot.kind = .mark .dot)
    (hx : x.kind = .identifier) (hq : q.kind = .mark .equal)
    (hstart : ∃ u vs, us = u :: vs ∧ startsExpression u.kind = true)
    (hv : Reads (.expr .assignment v) us m k es) :
    Reads (.expr .assignment (.set o x v)) (ts ++ dot :: x :: q :: us) n k (ds ++ es) := by
  intro b rest hb hrest
  have ht : Consumes (logicOr (expression b) (b + 1)) (ts ++ [dot, x]) (q :: (us ++ rest)) n m ds
      (pure (.get o x)) := by
    refine .or_of_call ?_ (avoids_equal hq) ?_
    · obtain ⟨u, vs, rfl, hu⟩ := hcall
      exact ⟨u, _, rfl, hu⟩
    · obtain ⟨N, hN, ho⟩ := ho b (dot :: x :: q :: (us ++ rest)) (by simpa using hb)
      obtain ⟨N, rfl⟩ : ∃ N', N = N' + 1 := ⟨N - 1, by simp at hb; omega⟩
      have hproperty : Consumes (suffixes (expression b) (N + 1) o) [dot, x]
          (q :: (us ++ rest)) m m [] (suffixes (expression b) N (.get o x)) :=
        .accepting_no (avoids_cons.2 (by rw [hd]; rfl))
          (.accepting_yes hd ((Consumes.expect hx).ending rfl))
      have hstop : Consumes (suffixes (expression b) N (.get o x)) [] (q :: (us ++ rest)) m m []
          (pure (.get o x)) := suffixes_stop b N (avoids_cons.2 (by rw [hq]; rfl))
      exact .of_eq (ho.trans ([dot, x] ++ []) rfl (hproperty.trans [] rfl hstop)) (by simp) (by simp)
  have ha : Consumes (assignTo (.get o x) q v) [] rest k k [] (pure (.set o x v)) := .refl _ _ _
  exact .of_eq (Consumes.assignment hq ht hv (by simp at hb ⊢; omega) hstart hrest ha) (by simp) (by simp)

theorem assignTo_of_not_assignable (he : e.assignable = false) :
    assignTo e q v = (do report (fault .invalidTarget q); return e) := by
  cases e <;> first | rfl | cases he

theorem Reads.invalidTarget (he : Reads (.expr (.chain .or) e) ts n m ds)
    (ha : e.assignable = false) (hq : q.kind = .mark .equal)
    (hstart : ∃ u vs, us = u :: vs ∧ startsExpression u.kind = true)
    (hv : Reads (.expr .assignment v) us m k es) :
    Reads (.expr .assignment e) (ts ++ q :: us) n k (ds ++ es ++ [fault .invalidTarget q]) := by
  intro b rest hb hrest
  have ht : Consumes (logicOr (expression b) (b + 1)) ts (q :: (us ++ rest)) n m ds (pure e) :=
    he b _ (by simpa using hb) (avoids_equal hq)
  have hr : Consumes (assignTo e q v) [] rest k k [fault .invalidTarget q] (pure e) := by
    intro finish reports
    simp [assignTo_of_not_assignable ha, bind_apply, report, pure_apply]
  exact .assignment hq ht hv (by simp at hb ⊢; omega) hstart hrest hr

end Operators

end Lox.Grammar
