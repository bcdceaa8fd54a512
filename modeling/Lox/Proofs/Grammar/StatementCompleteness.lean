import Lox.Proofs.Grammar.ExpressionCompleteness

/-!
# Statements that derive from the grammar are read

The lemmas for the rules of statements and declarations, and the induction over
derivations that puts all of them together.
-/

set_option autoImplicit false

namespace Lox.Grammar

variable {n m j l k : Nat} {ts us vs ws rest : List Token} {ds es fs gs : List Diagnostic}

section Pieces

variable {e : Expr} {x q s w : Token}

/-- An expression in front of a closing mark, when a bound on all tokens is known. -/
theorem Reads.expression_run {b : Nat} {c : Token} {a : Mark}
    (hm : a = .rightParen ∨ a = .semicolon ∨ a = .comma) (hc : c.kind = .mark a)
    (he : Reads (.expr .assignment e) ts n k ds) (hb : (ts ++ c :: rest).length ≤ b) :
    Consumes (expression b) ts (c :: rest) n k ds (pure e) := by
  obtain ⟨b, rfl⟩ : ∃ b', b = b' + 1 := ⟨b - 1, by simp at hb; omega⟩
  exact he b _ (by omega) (avoids_closer hm hc)

theorem Reads.noExpression : Reads (.optional none) [] n n [] := by
  intro b c rest _ _
  exact .ifNext_yes rfl (.refl _ _ _)

theorem Reads.someExpression (hstart : ∃ u vs, ts = u :: vs ∧ startsExpression u.kind = true)
    (he : Reads (.expr .assignment e) ts n k ds) : Reads (.optional (some e)) ts n k ds := by
  intro b c rest hb hc
  have hno : Avoids (· == c.kind) (ts ++ c :: rest) := by
    obtain ⟨u, vs, rfl, hu⟩ := hstart
    exact avoids_cons.2 (ne_of_startsExpression hu (by rcases hc with hc | hc <;> rw [hc] <;> rfl))
  have he : Consumes (expression b) ts (c :: rest) n k ds (pure e) := by
    rcases hc with hc | hc
    · exact he.expression_run (.inr (.inl rfl)) hc hb
    · exact he.expression_run (.inl rfl) hc hb
  exact .ifNext_no hno (.of_eq (he.ending rfl) (by simp) (by simp))

theorem Reads.bareVariable (hw : w.kind = .word .var) (hx : x.kind = .identifier)
    (hs : s.kind = .mark .semicolon) :
    Reads (.varDeclaration (.var x none)) [w, x, s] n n [] := by
  refine ⟨w, [x, s], rfl, hw, fun b rest _ => ?_⟩
  have hno : Consumes (do if ← accept (.mark .equal) then some <$> expression b else pure none)
      [] (s :: rest) n n [] (pure none) :=
    .accepting_no (avoids_cons.2 (by rw [hs]; rfl)) (.refl _ _ _)
  rw [varDeclaration_eq]
  exact (Consumes.expect hx).bind (hno.followedBy [s] rfl ((Consumes.expect hs).ending rfl))

theorem Reads.initialized (hw : w.kind = .word .var) (hx : x.kind = .identifier)
    (hq : q.kind = .mark .equal) (he : Reads (.expr .assignment e) ts n k ds)
    (hs : s.kind = .mark .semicolon) :
    Reads (.varDeclaration (.var x (some e))) (w :: x :: q :: ts ++ [s]) n k ds := by
  refine ⟨w, x :: q :: ts ++ [s], rfl, hw, fun b rest hb => ?_⟩
  have he : Consumes (expression b) ts (s :: rest) n k ds (pure e) :=
    he.expression_run (.inr (.inl rfl)) hs (by simp at hb ⊢; omega)
  have hi : Consumes (do if ← accept (.mark .equal) then some <$> expression b else pure none)
      (q :: ts) (s :: rest) n k ds (pure (some e)) := .accepting_yes hq (he.map some)
  rw [varDeclaration_eq]
  exact .of_eq ((Consumes.expect hx).bind (hi.followedBy [s] rfl ((Consumes.expect hs).ending rfl)))
    (by simp) (by simp)

theorem Reads.noInitializer (hs : s.kind = .mark .semicolon) :
    Reads (.initializer none) [s] n n [] := by
  intro b rest _
  exact .accepting_yes hs (.refl _ _ _)

theorem Reads.variableInitializer {d : Stmt} (hd : Reads (.varDeclaration d) ts n k ds) :
    Reads (.initializer (some d)) ts n k ds := by
  intro b rest hb
  obtain ⟨w, us, rfl, hw, hd⟩ := hd
  refine .accepting_no (avoids_cons.2 (by rw [hw]; rfl)) (.accepting_yes hw ?_)
  exact (hd b rest (by simp at hb ⊢; omega)).map some

theorem Consumes.expressionStatement {b : Nat} (he : Reads (.expr .assignment e) ts n k ds)
    (hs : s.kind = .mark .semicolon) (hb : (ts ++ s :: rest).length ≤ b) :
    Consumes (expressionStatement (expression b)) (ts ++ [s]) rest n k ds
      (pure (.expression e)) := by
  have he : Consumes (expression b) ts (s :: rest) n k ds (pure e) :=
    he.expression_run (.inr (.inl rfl)) hs hb
  exact .of_eq (he.bind ((Consumes.expect hs).ending rfl)) (by simp) (by simp)

theorem Reads.expressionInitializer
    (hstart : ∃ u vs, ts = u :: vs ∧ startsExpression u.kind = true)
    (he : Reads (.expr .assignment e) ts n k ds) (hs : s.kind = .mark .semicolon) :
    Reads (.initializer (some (.expression e))) (ts ++ [s]) n k ds := by
  intro b rest hb
  have hs : Consumes (expressionStatement (Grammar.expression b)) (ts ++ [s]) rest n k ds
      (pure (.expression e)) := .expressionStatement he hs (by simpa using hb)
  have h := hs.map some
  obtain ⟨u, vs, rfl, hu⟩ := hstart
  refine .accepting_no (avoids_cons.2 (ne_of_startsExpression hu rfl)) ?_
  exact .accepting_no (avoids_cons.2 (ne_of_startsExpression hu rfl)) h

end Pieces

section Statements

variable {e : Expr} {w o c s : Token} {yes no body : Stmt} {ss : List Stmt}

/-- A statement is read with a bound that is no zero. -/
theorem Reads.statement_of {s : Stmt} {d : Bool}
    (h : ∀ b rest, (ts ++ rest).length ≤ b + 1 →
      (d = true → Avoids (· == .word .else) rest) →
        Consumes (statementWith (expression (b + 1)) (statement b) (declarations b)) ts rest n k ds
          (pure s)) (hne : ts ≠ []) : Reads (.statement d s) ts n k ds := by
  intro b rest hb hrest
  obtain ⟨b, rfl⟩ : ∃ b', b = b' + 1 := by
    cases ts with
    | nil => exact absurd rfl hne
    | cons t ts => exact ⟨b - 1, by simp at hb; omega⟩
  exact h b rest hb hrest

theorem Reads.expression (hstart : ∃ u vs, ts = u :: vs ∧ startsExpression u.kind = true)
    (he : Reads (.expr .assignment e) ts n k ds) (hs : s.kind = .mark .semicolon) :
    Reads (.statement false (.expression e)) (ts ++ [s]) n k ds := by
  refine .statement_of (fun b rest hb _ => ?_) (by simp)
  have h : Consumes (expressionStatement (Grammar.expression (b + 1))) (ts ++ [s]) rest n k ds
      (pure (.expression e)) := .expressionStatement he hs (by simpa using hb)
  obtain ⟨u, vs, rfl, hu⟩ := hstart
  have hne (k : Kind) (hk : startsExpression k = false) :
      Avoids (· == k) (u :: vs ++ [s] ++ rest) := avoids_cons.2 (ne_of_startsExpression hu hk)
  refine .accepting_no (hne _ rfl) (.accepting_no (hne _ rfl) (.accepting_no (hne _ rfl) ?_))
  refine (Consumes.acceptIf_no (hne _ rfl)).bind ?_
  exact .accepting_no (hne _ rfl) (.accepting_no (hne _ rfl) h)

theorem Reads.print (hw : w.kind = .word .print) (he : Reads (.expr .assignment e) ts n k ds)
    (hs : s.kind = .mark .semicolon) : Reads (.statement false (.print e)) (w :: ts ++ [s]) n k ds := by
  refine .statement_of (fun b rest hb _ => ?_) (by simp)
  have he : Consumes (Grammar.expression (b + 1)) ts (s :: rest) n k ds (pure e) :=
    he.expression_run (.inr (.inl rfl)) hs (by simp at hb ⊢; omega)
  have h : Consumes (printStatement (Grammar.expression (b + 1))) (ts ++ [s]) rest n k ds
      (pure (.print e)) := by
    exact .of_eq (he.bind ((Consumes.expect hs).ending rfl)) (by simp) (by simp)
  have hne (k : Kind) (hk : (w.kind == k) = false) :
      Avoids (· == k) (w :: ts ++ [s] ++ rest) := avoids_cons.2 hk
  rw [hw] at hne
  exact .accepting_no (hne _ rfl) (.accepting_no (hne _ rfl) (.accepting_yes hw h))

theorem Reads.returns {e : Option Expr} (hw : w.kind = .word .return)
    (he : Reads (.optional e) ts n k ds) (hs : s.kind = .mark .semicolon) :
    Reads (.statement false (.return w e)) (w :: ts ++ [s]) n k ds := by
  refine .statement_of (fun b rest hb _ => ?_) (by simp)
  have he : Consumes (unlessNext (.mark .semicolon) (Grammar.expression (b + 1))) ts (s :: rest)
      n k ds (pure e) := by
    rw [← hs]
    exact he (b + 1) s rest (by simp at hb ⊢; omega) (.inl hs)
  have h : Consumes (returnStatement w (Grammar.expression (b + 1))) (ts ++ [s]) rest n k ds
      (pure (.return w e)) := by
    exact .of_eq (he.bind ((Consumes.expect hs).ending rfl)) (by simp) (by simp)
  have hne (k : Kind) (hk : (w.kind == k) = false) :
      Avoids (· == k) (w :: ts ++ [s] ++ rest) := avoids_cons.2 hk
  rw [hw] at hne
  refine .accepting_no (hne _ rfl) (.accepting_no (hne _ rfl) (.accepting_no (hne _ rfl) ?_))
  exact (Consumes.acceptIf_yes (by simp [hw])).bind h

theorem Reads.block (ho : o.kind = .mark .leftBrace) (hs : Reads (.declarations ss) ts n k ds)
    (hc : c.kind = .mark .rightBrace) : Reads (.statement false (.block ss)) (o :: ts ++ [c]) n k ds := by
  refine .statement_of (fun b rest hb _ => ?_) (by simp)
  have hs : Consumes (closedBy (declarations b)) (ts ++ [c]) rest n k ds (pure ss) := by
    have hs := hs.1 b c rest (by simp at hb ⊢; omega) hc
    exact .of_eq (hs.bind ((Consumes.expect hc).ending rfl)) (by simp) (by simp)
  have h : Consumes (do return Stmt.block (← closedBy (declarations b))) (ts ++ [c]) rest n k ds
      (pure (.block ss)) := hs.ending rfl
  have hne (k : Kind) (hk : (o.kind == k) = false) :
      Avoids (· == k) (o :: ts ++ [c] ++ rest) := avoids_cons.2 hk
  rw [ho] at hne
  refine .accepting_no (hne _ rfl) (.accepting_no (hne _ rfl) (.accepting_no (hne _ rfl) ?_))
  refine (Consumes.acceptIf_no (hne _ rfl)).bind ?_
  exact .accepting_no (hne _ rfl) (.accepting_yes ho h)

theorem Reads.ifThen {d : Bool} (hw : w.kind = .word .if) (ho : o.kind = .mark .leftParen)
    (he : Reads (.expr .assignment e) ts n m ds) (hc : c.kind = .mark .rightParen)
    (hy : Reads (.statement d yes) us m k es) :
    Reads (.statement true (.if e yes none)) (w :: o :: ts ++ c :: us) n k (ds ++ es) := by
  refine .statement_of (fun b rest hb hrest => ?_) (by simp)
  have he : Consumes (Grammar.expression (b + 1)) ts (c :: (us ++ rest)) n m ds (pure e) :=
    he.expression_run (.inl rfl) hc (by simp at hb ⊢; omega)
  have hy : Consumes (statement b) us rest m k es (pure yes) :=
    hy b rest (by simp at hb ⊢; omega) fun _ => hrest rfl
  have h : Consumes (ifStatement (Grammar.expression (b + 1)) (statement b)) (o :: ts ++ c :: us)
      rest n k (ds ++ es) (pure (.if e yes none)) := by
    have hno : Consumes (do if ← accept (.word .else) then some <$> statement b else pure none)
        [] rest k k [] (pure none) := .accepting_no (hrest rfl) (.refl _ _ _)
    rw [ifStatement_eq]
    exact .of_eq ((Consumes.expect ho).bind (he.followedBy (c :: us ++ []) (by simp)
      ((Consumes.expect hc).bind (hy.followedBy [] rfl (hno.ending rfl))))) (by simp) (by simp)
  have hne (k : Kind) (hk : (w.kind == k) = false) :
      Avoids (· == k) (w :: o :: ts ++ c :: us ++ rest) := avoids_cons.2 hk
  rw [hw] at hne
  exact .accepting_no (hne _ rfl) (.accepting_yes hw h)

theorem Reads.ifElse {t : Token} {d d' : Bool} (hw : w.kind = .word .if) (ho : o.kind = .mark .leftParen)
    (he : Reads (.expr .assignment e) ts n m ds) (hc : c.kind = .mark .rightParen)
    (hy : Reads (.statement d yes) us m j es) (hd : Complete d) (ht : t.kind = .word .else)
    (hn : Reads (.statement d' no) vs j k fs) :
    Reads (.statement d' (.if e yes (some no))) (w :: o :: ts ++ c :: us ++ t :: vs) n k
      (ds ++ es ++ fs) := by
  refine .statement_of (fun b rest hb hrest => ?_) (by simp)
  have he : Consumes (Grammar.expression (b + 1)) ts (c :: (us ++ t :: (vs ++ rest))) n m ds
      (pure e) := he.expression_run (.inl rfl) hc (by simp at hb ⊢; omega)
  have hy : Consumes (statement b) us (t :: (vs ++ rest)) m j es (pure yes) :=
    hy b _ (by simp at hb ⊢; omega) fun h => by rw [hd] at h; cases h
  have hn : Consumes (statement b) vs rest j k fs (pure no) :=
    hn b rest (by simp at hb ⊢; omega) hrest
  have h : Consumes (ifStatement (Grammar.expression (b + 1)) (statement b))
      (o :: ts ++ c :: us ++ t :: vs) rest n k (ds ++ es ++ fs) (pure (.if e yes (some no))) := by
    have hno : Consumes (do if ← accept (.word .else) then some <$> statement b else pure none)
        (t :: vs) rest j k fs (pure (some no)) := .accepting_yes ht (hn.map some)
    rw [ifStatement_eq]
    exact .of_eq ((Consumes.expect ho).bind (he.followedBy (c :: us ++ t :: vs) (by simp)
      ((Consumes.expect hc).bind (hy.followedBy (t :: vs) rfl (hno.ending rfl))))) (by simp) (by simp)
  have hne (k : Kind) (hk : (w.kind == k) = false) :
      Avoids (· == k) (w :: o :: ts ++ c :: us ++ t :: vs ++ rest) := avoids_cons.2 hk
  rw [hw] at hne
  exact .accepting_no (hne _ rfl) (.accepting_yes hw h)

theorem Reads.whileDo {d : Bool} (hw : w.kind = .word .while) (ho : o.kind = .mark .leftParen)
    (he : Reads (.expr .assignment e) ts n m ds) (hc : c.kind = .mark .rightParen)
    (hb : Reads (.statement d body) us m k es) :
    Reads (.statement d (.while e body)) (w :: o :: ts ++ c :: us) n k (ds ++ es) := by
  refine .statement_of (fun b rest hb' hrest => ?_) (by simp)
  have he : Consumes (Grammar.expression (b + 1)) ts (c :: (us ++ rest)) n m ds (pure e) :=
    he.expression_run (.inl rfl) hc (by simp at hb' ⊢; omega)
  have hb : Consumes (statement b) us rest m k es (pure body) :=
    hb b rest (by simp at hb' ⊢; omega) hrest
  have h : Consumes (whileStatement (Grammar.expression (b + 1)) (statement b)) (o :: ts ++ c :: us)
      rest n k (ds ++ es) (pure (.while e body)) := by
    exact .of_eq ((Consumes.expect ho).bind (he.bind ((Consumes.expect hc).bind
      (hb.ending rfl)))) (by simp) (by simp)
  have hne (k : Kind) (hk : (w.kind == k) = false) :
      Avoids (· == k) (w :: o :: ts ++ c :: us ++ rest) := avoids_cons.2 hk
  rw [hw] at hne
  refine .accepting_no (hne _ rfl) (.accepting_no (hne _ rfl) (.accepting_no (hne _ rfl) ?_))
  exact (Consumes.acceptIf_no (hne _ rfl)).bind (.accepting_yes hw h)

theorem Reads.forDo {d : Bool} {i : Option Stmt} {condition increment : Option Expr}
    (hw : w.kind = .word .for) (ho : o.kind = .mark .leftParen)
    (hi : Reads (.initializer i) ts n m ds) (he : Reads (.optional condition) us m j es)
    (hs : s.kind = .mark .semicolon) (hn : Reads (.optional increment) vs j l fs)
    (hc : c.kind = .mark .rightParen) (hb : Reads (.statement d body) ws l k gs) :
    Reads (.statement d (forLoop i condition increment body))
      (w :: o :: ts ++ us ++ s :: vs ++ c :: ws) n k (ds ++ es ++ fs ++ gs) := by
  refine .statement_of (fun b rest hb' hrest => ?_) (by simp)
  have hi : Consumes (forInitializer (Grammar.expression (b + 1))) ts
      (us ++ s :: (vs ++ c :: (ws ++ rest))) n m ds (pure i) :=
    hi (b + 1) _ (by simp at hb' ⊢; omega)
  have he : Consumes (unlessNext (.mark .semicolon) (Grammar.expression (b + 1))) us
      (s :: (vs ++ c :: (ws ++ rest))) m j es (pure condition) := by
    rw [← hs]
    exact he (b + 1) s _ (by simp at hb' ⊢; omega) (.inl hs)
  have hn : Consumes (unlessNext (.mark .rightParen) (Grammar.expression (b + 1))) vs
      (c :: (ws ++ rest)) j l fs (pure increment) := by
    rw [← hc]
    exact hn (b + 1) c _ (by simp at hb' ⊢; omega) (.inr hc)
  have hb : Consumes (statement b) ws rest l k gs (pure body) :=
    hb b rest (by simp at hb' ⊢; omega) hrest
  have h : Consumes (forStatement (Grammar.expression (b + 1)) (statement b))
      (o :: ts ++ us ++ s :: vs ++ c :: ws) rest n k (ds ++ es ++ fs ++ gs)
      (pure (forLoop i condition increment body)) := by
    exact .of_eq ((Consumes.expect ho).bind (hi.followedBy (us ++ (s :: vs ++ c :: ws)) (by simp)
      (he.followedBy (s :: vs ++ c :: ws) (by simp) ((Consumes.expect hs).bind
        (hn.followedBy (c :: ws) rfl ((Consumes.expect hc).bind (hb.ending rfl)))))))
      (by simp) (by simp)
  exact .accepting_yes hw h

end Statements

section Declarations

variable {x w o c l b d : Token} {s : Stmt} {ss : List Stmt} {f : Function} {fs : List Function}
  {ps : List Token} {count : Nat}

theorem Reads.parameter (hx : x.kind = .identifier) :
    Reads (.parameters count [x]) [x] n n (beyond .tooManyParameters count [x]) := by
  intro m rest hm hrest
  rw [← List.append_nil (beyond ..)]
  cases m with
  | zero => exact .limit ((Consumes.expect hx).ending rfl)
  | succ m =>
    exact .limit ((Consumes.expect hx).bind (.accepting_no hrest (.refl _ _ _)))

theorem Reads.moreParameters (hx : x.kind = .identifier) (hc : c.kind = .mark .comma)
    (hstart : ∃ u vs, ts = u :: vs ∧ (u.kind == .identifier) = true)
    (hs : Reads (.parameters (count + 1) ps) ts n k ds) :
    Reads (.parameters count (x :: ps)) (x :: c :: ts) n k
      (beyond .tooManyParameters count [x] ++ ds) := by
  intro m rest hm hrest
  obtain ⟨m, rfl⟩ : ∃ m', m = m' + 1 := by
    obtain ⟨_, _, rfl, -⟩ := hstart
    exact ⟨m - 1, by simp at hm; omega⟩
  have hs := hs m rest (by simp at hm ⊢; omega) hrest
  have hbeyond : beyond .tooManyParameters count [x] = beyond .tooManyParameters count (x :: c :: ts) :=
    rfl
  rw [hbeyond]
  exact .limit ((Consumes.expect hx).bind (.accepting_yes hc
    (.of_eq (hs.ending rfl) (by simp) (by simp))))

theorem Reads.noParameter : Reads (.someParameters []) [] n n [] := by
  intro m c rest _ hc
  exact .ifNext_yes hc (.refl _ _ _)

theorem Reads.someParameter (hstart : ∃ u vs, ts = u :: vs ∧ (u.kind == .identifier) = true)
    (hp : Reads (.parameters 0 ps) ts n k ds) : Reads (.someParameters ps) ts n k ds := by
  intro m c rest hm hc
  have hp := hp m (c :: rest) hm (avoids_cons.2 (by rw [hc]; rfl))
  obtain ⟨u, vs, rfl, hu⟩ := hstart
  exact .ifNext_no (avoids_cons.2 (by rw [eq_of_beq hu]; rfl)) hp

theorem Reads.function {body : List Stmt} (hx : x.kind = .identifier)
    (ho : o.kind = .mark .leftParen) (hp : Reads (.someParameters ps) ts n m ds)
    (hc : c.kind = .mark .rightParen) (hb : b.kind = .mark .leftBrace)
    (hs : Reads (.declarations body) us m k es) (hd : d.kind = .mark .rightBrace) :
    Reads (.function (.mk x ps body)) (x :: o :: ts ++ c :: b :: us ++ [d]) n k (ds ++ es) := by
  intro r j N rest hj hN
  have hp := hp N c (b :: us ++ d :: rest) (by simp at hN ⊢; omega) hc
  have hs : Consumes (closedBy (declarations j)) (us ++ [d]) rest m k es (pure body) := by
    have hs := hs.1 j d rest (by simp at hj ⊢; omega) hd
    exact .of_eq (hs.bind ((Consumes.expect hd).ending rfl)) (by simp) (by simp)
  rw [routine_eq]
  exact .of_eq ((Consumes.expect hx).bind ((Consumes.expect ho).bind
    (hp.followedBy (c :: b :: us ++ [d]) (by simp) ((Consumes.expect hc).bind
      ((Consumes.expect hb).bind (hs.ending rfl)))))) (by simp) (by simp)

theorem Reads.noFunction : Reads (.functions []) [] n n [] := by
  intro j N c rest _ _ hc
  cases N with
  | zero => exact .refl _ _ _
  | succ N => exact .endsBlock_yes hc (.refl _ _ _)

theorem Reads.moreFunctions (hstart : ∃ u vs, ts = u :: vs ∧ (u.kind == .identifier) = true)
    (hf : Reads (.function f) ts n m ds) (hfs : Reads (.functions fs) us m k es) :
    Reads (.functions (f :: fs)) (ts ++ us) n k (ds ++ es) := by
  intro j N c rest hj hN hc
  obtain ⟨u, vs, rfl, hu⟩ := hstart
  obtain ⟨N, rfl⟩ : ∃ N', N = N' + 1 := ⟨N - 1, by simp at hN; omega⟩
  have hf := hf .method j N (us ++ c :: rest) (by simpa using hj) (by simp at hN ⊢; omega)
  have hfs := hfs j N c rest (by simp at hj ⊢; omega) (by simp at hN; omega) hc
  refine .endsBlock_no (by rw [eq_of_beq hu]; decide) ?_
  exact .of_eq (hf.bind (hfs.ending rfl)) (by simp) (by simp)

theorem Reads.noSuperclass : Reads (.superclass none) [] n n [] := by
  intro rest hrest
  exact .accepting_no hrest (.refl _ _ _)

theorem Reads.someSuperclass (hl : l.kind = .mark .less) (hx : x.kind = .identifier) :
    Reads (.superclass (some ⟨n, x⟩)) [l, x] n (n + 1) [] := by
  intro rest _
  exact .accepting_yes hl ((Consumes.expect hx).bind ((Consumes.reference x).ending rfl))

theorem Reads.declaredStatement {t : Bool}
    (hstart : ∃ u vs, ts = u :: vs ∧ (startsExpression u.kind || opensStatement u.kind) = true)
    (hs : Reads (.statement t s) ts n k ds) : Reads (.declaration s) ts n k ds := by
  intro j rest hj hrest
  have hs := hs (j + 1) rest hj fun _ => hrest
  obtain ⟨u, vs, rfl, hu⟩ := hstart
  have hne (k : Kind) (hk : (startsExpression k || opensStatement k) = false) :
      Avoids (· == k) (u :: vs ++ rest) := by
    refine avoids_cons.2 (beq_eq_false_iff_ne.2 ?_)
    rintro rfl
    rw [hk] at hu
    cases hu
  exact .recovering (.accepting_no (hne _ rfl) (.accepting_no (hne _ rfl)
    (.accepting_no (hne _ rfl) hs)))

theorem Reads.declaredVariable (hs : Reads (.varDeclaration s) ts n k ds) :
    Reads (.declaration s) ts n k ds := by
  intro j rest hj _
  obtain ⟨w, us, rfl, hw, hs⟩ := hs
  have hs := hs (j + 1) rest (by simp at hj ⊢; omega)
  have hne (k : Kind) (hk : (w.kind == k) = false) : Avoids (· == k) (w :: us ++ rest) :=
    avoids_cons.2 hk
  rw [hw] at hne
  exact .recovering (.accepting_no (hne _ rfl) (.accepting_no (hne _ rfl) (.accepting_yes hw hs)))

theorem Reads.declaredFunction (hw : w.kind = .word .fun) (hf : Reads (.function f) ts n k ds) :
    Reads (.declaration (.function f)) (w :: ts) n k ds := by
  intro j rest hj _
  have hf := (hf .function j (j + 1) rest (by simp at hj ⊢; omega)
    (by simp at hj; omega)).map Stmt.function
  exact .recovering (.accepting_no (avoids_cons.2 (by rw [hw]; rfl)) (.accepting_yes hw hf))

theorem Reads.declaredClass {r : Option Reference} (hw : w.kind = .word .class)
    (hx : x.kind = .identifier) (hr : Reads (.superclass r) ts n m ds)
    (ho : o.kind = .mark .leftBrace) (hf : Reads (.functions fs) us m k es)
    (hc : c.kind = .mark .rightBrace) :
    Reads (.declaration (.class x r fs)) (w :: x :: ts ++ o :: us ++ [c]) n k (ds ++ es) := by
  intro j rest hj _
  have hr : Consumes superclass ts (o :: us ++ c :: rest) n m ds (pure r) :=
    hr _ (avoids_cons.2 (by rw [ho]; rfl))
  have hf := hf j (j + 1) c rest (by simp at hj ⊢; omega) (by simp at hj; omega) hc
  have h : Consumes (classDeclaration (declarations j) (j + 1)) (x :: ts ++ o :: us ++ [c]) rest
      n k (ds ++ es) (pure (.class x r fs)) := by
    exact .of_eq ((Consumes.expect hx).bind (hr.followedBy (o :: us ++ [c]) (by simp)
      ((Consumes.expect ho).bind (hf.followedBy [c] rfl ((Consumes.expect hc).ending rfl)))))
      (by simp) (by simp)
  exact .recovering (.accepting_yes hw h)

theorem Reads.noDeclaration : Reads (.declarations []) [] n n [] := by
  refine ⟨fun j c rest hj hc => ?_, fun j _ => ?_⟩
  · cases j with
    | zero => simp at hj
    | succ j => exact .endsBlock_yes hc (.refl _ _ _)
  · cases j with
    | zero => exact .refl _ _ _
    | succ j => exact .atEnd_yes (.refl _ _ _)

theorem Reads.moreDeclarations
    (hstart : ∃ u vs, ts = u :: vs ∧ startsDeclaration u.kind = true)
    (hnext : us = [] ∨ ∃ u vs, us = u :: vs ∧ startsDeclaration u.kind = true)
    (hs : Reads (.declaration s) ts n m ds) (hss : Reads (.declarations ss) us m k es) :
    Reads (.declarations (s :: ss)) (ts ++ us) n k (ds ++ es) := by
  obtain ⟨u, vs, rfl, hu⟩ := hstart
  have helse {rest : List Token} (hrest : Avoids (· == .word .else) rest) :
      Avoids (· == .word .else) (us ++ rest) := by
    rcases hnext with rfl | ⟨v, ws, rfl, hv⟩
    · exact hrest
    · refine avoids_cons.2 (beq_eq_false_iff_ne.2 fun h => ?_)
      rw [h] at hv
      cases hv
  refine ⟨fun j c rest hj hc => ?_, fun j hj => ?_⟩
  · obtain ⟨j, rfl⟩ : ∃ j', j = j' + 1 := ⟨j - 1, by simp at hj; omega⟩
    have hs := hs j (us ++ c :: rest) (by simpa using hj)
      (helse (avoids_cons.2 (by rw [hc]; rfl)))
    have hss := hss.1 j c rest (by simp at hj ⊢; omega) hc
    refine .endsBlock_no (fun h => ?_) (.of_eq (hs.bind (hss.ending rfl)) (by simp) (by simp))
    rw [h] at hu
    cases hu
  · obtain ⟨j, rfl⟩ : ∃ j', j = j' + 1 := ⟨j - 1, by simp at hj; omega⟩
    have hs := hs j (us ++ []) (by simpa using hj) (helse (avoids_nil _))
    have hss := hss.2 j (by simp at hj; omega)
    exact .atEnd_no (.of_eq (hs.bind (hss.ending rfl)) (by simp) (by simp))

end Declarations

/-- Every phrase that derives from the grammar is read. -/
theorem Derives.reads {p : Phrase} (h : Derives Complete p ts n k ds) : Reads p ts n k ds := by
  induction h with
  | literal ht => exact .literal ht
  | this ht => exact .this ht
  | var ht => exact .var ht
  | super ht hd hx => exact .super ht hd hx
  | grouping ho _ hc ih => exact .grouping ho ih hc
  | call _ _ ihp ihs => exact .call ihp ihs
  | noSuffix => exact .noSuffix
  | emptyCall ho hc _ ih => exact .emptyCall ho hc ih
  | argumentCall ho ha hc _ iha ihs => exact .argumentCall ho (ha.starts rfl) iha hc ihs
  | property hd hx _ ih => exact .property hd hx ih
  | argument he ih => exact .argument (he.starts rfl) ih
  | moreArguments he hc ha ihe iha =>
    exact .moreArguments (he.starts rfl) (ha.starts rfl) ihe hc iha
  | operator ho _ ih => exact .operator ho ih
  | noOperator he ih => exact .noOperator (he.starts rfl) ih
  | chain _ ho ihl iho => exact .chain ho.starts_operands ihl iho
  | noOperand => exact .noOperand
  | operand ho _ hs ihr ihs => exact .operand ho hs.starts_operands ihr ihs
  | noAssignment _ ih => exact .noAssignment ih
  | assignVar hx hq hv ih => exact .assignVar hx hq (hv.starts rfl) ih
  | assignProperty ho hd hx hq hv iho ihv =>
    exact .assignProperty iho (ho.starts rfl) hd hx hq (hv.starts rfl) ihv
  | invalidTarget _ ha hq hv ihe ihv => exact .invalidTarget ihe ha hq (hv.starts rfl) ihv
  | noExpression => exact .noExpression
  | someExpression he ih => exact .someExpression (he.starts rfl) ih
  | expression he hs ih => exact .expression (he.starts rfl) ih hs
  | print hw _ hs ih => exact .print hw ih hs
  | returns hw _ hs ih => exact .returns hw ih hs
  | block ho _ hc ih => exact .block ho ih hc
  | ifThen hw ho _ hc _ ihe ihy => exact .ifThen hw ho ihe hc ihy
  | ifElse hw ho _ hc _ hb hl _ ihe ihy ihn => exact .ifElse hw ho ihe hc ihy hb hl ihn
  | whileDo hw ho _ hc _ ihe ihb => exact .whileDo hw ho ihe hc ihb
  | forDo hw ho _ _ hs _ hc _ ihi ihe ihn ihb => exact .forDo hw ho ihi ihe hs ihn hc ihb
  | noInitializer hs => exact .noInitializer hs
  | variableInitializer _ ih => exact .variableInitializer ih
  | expressionInitializer he hs ih => exact .expressionInitializer (he.starts rfl) ih hs
  | bareVariable hw hx hs => exact .bareVariable hw hx hs
  | initialized hw hx hq _ hs ih => exact .initialized hw hx hq ih hs
  | declaredStatement hs ih => exact .declaredStatement (hs.starts rfl) ih
  | declaredVariable _ ih => exact .declaredVariable ih
  | declaredFunction hw _ ih => exact .declaredFunction hw ih
  | declaredClass hw hx _ ho _ hc ihr ihf => exact .declaredClass hw hx ihr ho ihf hc
  | noDeclaration => exact .noDeclaration
  | moreDeclarations hs hss ihs ihss =>
    exact .moreDeclarations (hs.starts rfl) hss.starts_declarations ihs ihss
  | noSuperclass => exact .noSuperclass
  | someSuperclass hl hx => exact .someSuperclass hl hx
  | function hx ho _ hc hb _ hd ihp ihs => exact .function hx ho ihp hc hb ihs hd
  | noFunction => exact .noFunction
  | moreFunctions hf _ ihf ihfs => exact .moreFunctions (hf.starts rfl) ihf ihfs
  | noParameter => exact .noParameter
  | someParameter hp ih => exact .someParameter (hp.starts rfl) ih
  | parameter hp => exact .parameter hp
  | moreParameters hp hc hs ih => exact .moreParameters hp hc (hs.starts rfl) ih

end Lox.Grammar
