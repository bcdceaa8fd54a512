import Mathlib
import Lox.Proofs.Grammar.Extension
import Lox.Proofs.Grammar.Opening

/-!
# Reading behind an unended statement

A statement without its semicolon fails at the token behind it, unless that token extends
it. The fault is passed over where the declaration around the statement began, so the rest is
read as if an empty block stood there, with one diagnostic before those of the rest.
-/

set_option autoImplicit false

namespace Lox.Grammar

variable {l r ts us rest X Y : List Token} {a b : Form} {n j : Nat} {cause : ParseCause}
  {d : Diagnostic} {finish : Token}

section Failing

/-- The step for the form consumes the tokens and fails at the first token behind them. -/
def Form.Fails (a : Form) (cause : ParseCause) (ts rest : List Token) : Prop :=
  ∀ n j, (ts ++ rest).length ≤ j → ∃ k, Consumes (a.step j) ts rest n k [] (fail cause)

theorem Branch.fails (h : Branch a b l r) (hbegins : b.Begins (ts ++ rest))
    (hts : b.Fails cause ts rest) : a.Fails cause (l ++ ts) rest := by
  intro n j hj
  obtain ⟨m, i, u, ho⟩ := h.opening n j
  obtain ⟨k, hk⟩ := hts m i (ho.bound _ (by simp at hj ⊢; omega))
  have hl := ho.consumes (ts ++ rest) (by simpa using hj) hbegins
  exact ⟨k, hl.trans ts rfl (hk.through u)⟩

theorem Nested.begins {L : Form → Form → List Token → List Token → Prop}
    (hL : ∀ {a b l r ts}, L a b l r → b.Begins ts → a.Begins (l ++ ts))
    (h : Nested L a b l r) (hts : b.Begins ts) : a.Begins (l ++ ts) := by
  induction h with
  | here => exact hts
  | inside h _ ih =>
    rw [List.append_assoc]
    exact hL h (ih hts)

theorem Nested.fails (h : Nested Branch a b l r) (hbegins : b.Begins (ts ++ rest))
    (hts : b.Fails cause ts rest) : a.Fails cause (l ++ ts) rest := by
  induction h with
  | here => exact hts
  | inside h hn ih =>
    rw [List.append_assoc]
    refine h.fails ?_ (ih hbegins hts)
    rw [List.append_assoc]
    exact hn.begins Branch.begins hbegins

theorem Consumes.expect_no {e : Expectation} (h : Avoids (· == e.kind) rest) :
    Consumes (Grammar.expect e) [] rest n n [] (fail (.missing e)) :=
  (Consumes.acceptIf_no h).ending rfl

/-- No expression begins with the token that comes next. -/
theorem Consumes.expression_no (h : Avoids startsExpression rest) (j : Nat) :
    Consumes (expression j) [] rest n n [] (fail .noExpression) := by
  cases j with
  | zero => exact .refl _ _ _
  | succ j =>
    have hprimary : Consumes (Grammar.primary (expression j)) [] rest n n [] (fail .noExpression) := by
      rw [primary_eq]
      exact (Consumes.acceptIf_no (h.mono fun _ => startsExpression_of_primary)).ending rfl
    have hstop : Consumes (unaryOperators (j + 1)) [] rest n n [] (pure []) :=
      unaryOperators_stop _ (h.mono fun k hk => by simp [startsExpression, hk])
    have hunary : Consumes (unary (expression j) (j + 1)) [] rest n n [] (fail .noExpression) :=
      .of_eq (hstop.followedBy [] rfl ((hprimary.through _).through _)) rfl rfl
    have hlevel {s : Kind → Bool} {join : Expr → Token → Expr → Expr} {p : Step Expr}
        (hp : Consumes p [] rest n n [] (fail .noExpression)) :
        Consumes (level s join p (j + 1)) [] rest n n [] (fail .noExpression) := hp.through _
    have hor : Consumes (logicOr (expression j) (j + 1)) [] rest n n [] (fail .noExpression) :=
      hlevel (hlevel (hlevel (hlevel (hlevel (hlevel hunary)))))
    exact hor.through _

end Failing

section Unended

variable {w x q : Token}

/-- What stands behind a statement: the end of the input or of a block, an `else` or another
declaration. -/
def Trails (rest : List Token) : Prop := ∀ t ∈ rest.head?,
  t.kind = .word .else ∨ t.kind = .mark .rightBrace ∨ startsDeclaration t.kind = true

theorem Trails.avoids {s : Kind → Bool} (h : Trails rest) (helse : s (.word .else) = false)
    (hclose : s (.mark .rightBrace) = false)
    (hs : ∀ k, startsDeclaration k = true → s k = false) : Avoids s rest := by
  intro t ht
  rcases h t ht with hk | hk | hk
  · rw [hk, helse]
  · rw [hk, hclose]
  · exact hs _ hk

/-- A token that begins a declaration and also continues an expression. -/
theorem reopens_of_continues {k : Kind} (hk : startsDeclaration k = true)
    (h : Level.continues .assignment k = true) : k = .mark .leftParen ∨ k = .mark .minus := by
  rw [Level.continues_assignment] at h
  cases k with
  | mark m =>
    cases m <;>
      first | exact .inl rfl | exact .inr rfl | exact absurd h (by decide) | exact absurd hk (by decide)
  | word w => cases w <;> first | exact absurd h (by decide) | exact absurd hk (by decide)
  | _ => cases h

/-- The next token is taken for the statement to go on: with an expression that it begins, the
statement is one with at most a violation. -/
def Form.Takes (a : Form) (ts : List Token) (t : Token) : Prop :=
  ∀ vs s n, Anywhere (.expr .assignment) (t :: vs) → s.kind = .mark .semicolon →
    ∃ k ds, a.Spans (ts ++ t :: vs ++ [s]) n k ds ∧ Mild (t :: vs) ds

/-- The statement fails at the next token, or that token is taken for it. -/
def Form.Decides (a : Form) (ts rest : List Token) : Prop :=
  (∃ cause, a.Fails cause ts rest) ∨
    ∃ t us, rest = t :: us ∧ startsExpression t.kind = true ∧ a.Takes ts t

/-- Behind an expression, a semicolon is missing or the expression goes on. -/
theorem decides_of_expression {es : List Token} {m : Expectation}
    (he : Anywhere (.expr .assignment) es) (hrest : Trails rest)
    (hfails : Avoids (Level.continues .assignment) rest → a.Fails (.missing m) ts rest)
    (htakes : ∀ vs s n e k ds, Derives Complete (.expr .assignment e) (es ++ vs) n k ds →
      s.kind = .mark .semicolon → ∃ k, a.Spans (ts ++ vs ++ [s]) n k ds) : a.Decides ts rest := by
  by_cases hc : Avoids (Level.continues .assignment) rest
  · exact .inl ⟨_, hfails hc⟩
  refine .inr ?_
  cases rest with
  | nil => exact absurd (avoids_nil _) hc
  | cons t us =>
    have ht : Level.continues .assignment t.kind = true := by
      simpa [avoids_cons] using hc
    have hk : t.kind = .mark .leftParen ∨ t.kind = .mark .minus := by
      rcases hrest t rfl with hk | hk | hk
      · rw [hk, Level.continues_assignment] at ht
        cases ht
      · rw [hk, Level.continues_assignment] at ht
        cases ht
      · exact reopens_of_continues hk ht
    refine ⟨t, us, rfl, by rcases hk with hk | hk <;> rw [hk] <;> rfl, fun vs s n hv hs => ?_⟩
    obtain ⟨e, m, he⟩ := he 0
    obtain ⟨f, k, hf⟩ := hv m
    obtain ⟨g, k, ds, hg, hmild⟩ := he.juxtaposed hf hk n
    obtain ⟨k, hspans⟩ := htakes _ s n g k ds hg hs
    exact ⟨k, ds, hspans, hmild⟩

/-- An expression in front of what neither continues it nor is demanded behind it. -/
theorem Derives.expression_fails {e : Expr} {k : Nat} {m : Expectation} {α : Type}
    (he : Derives Complete (.expr .assignment e) ts n k [])
    (hc : Avoids (Level.continues .assignment) rest) (hm : Avoids (· == m.kind) rest)
    (hj : (ts ++ rest).length ≤ j + 1) (u : Expr → Step α) :
    Consumes (do
      let e ← Grammar.expression (j + 1)
      let _ ← expect m
      u e) ts rest n k [] (fail (.missing m)) := by
  have he : Consumes (Grammar.expression (j + 1)) ts rest n k [] (pure e) := he.reads j rest hj hc
  exact .of_eq (he.followedBy [] rfl ((Consumes.expect_no hm).through _)) (by simp) rfl

theorem Trails.semicolon (h : Trails rest) : Avoids (· == .mark .semicolon) rest := by
  refine h.avoids rfl rfl fun k hk => beq_eq_false_iff_ne.2 ?_
  rintro rfl
  cases hk

theorem Trails.equal (h : Trails rest) : Avoids (· == .mark .equal) rest := by
  refine h.avoids rfl rfl fun k hk => beq_eq_false_iff_ne.2 ?_
  rintro rfl
  cases hk

theorem decides_expression (he : Anywhere (.expr .assignment) ts) (hrest : Trails rest) :
    (Form.statement false).Decides ts rest := by
  refine decides_of_expression he hrest (m := .endOfExpression) ?_ ?_
  · intro hc n j hj
    obtain ⟨e, k, he⟩ := he n
    obtain ⟨t, us, rfl, ht⟩ := he.starts rfl
    obtain ⟨j, rfl⟩ : ∃ j', j = j' + 1 := ⟨j - 1, by simp at hj; omega⟩
    have hne (k : Kind) (hk : startsExpression k = false) :
        Avoids (· == k) (t :: us ++ rest) := avoids_cons.2 (ne_of_startsExpression ht hk)
    refine ⟨k, .accepting_no (hne _ rfl) (.accepting_no (hne _ rfl) (.accepting_no (hne _ rfl) ?_))⟩
    refine (Consumes.acceptIf_no (hne _ rfl)).bind ?_
    refine .accepting_no (hne _ rfl) (.accepting_no (hne _ rfl) ?_)
    exact he.expression_fails (m := .endOfExpression) hc hrest.semicolon hj _
  · exact fun vs s n e k ds he hs => ⟨k, _, he.expression hs⟩

theorem decides_print (hw : w.kind = .word .print) (he : Anywhere (.expr .assignment) ts)
    (hrest : Trails rest) : (Form.statement false).Decides (w :: ts) rest := by
  refine decides_of_expression he hrest (m := .endOfPrint) ?_ ?_
  · intro hc n j hj
    obtain ⟨e, k, he⟩ := he n
    obtain ⟨j, rfl⟩ : ∃ j', j = j' + 1 := ⟨j - 1, by simp at hj; omega⟩
    have hne (k : Kind) (hk : (Kind.word .print == k) = false) :
        Avoids (· == k) (w :: ts ++ rest) := avoids_cons.2 (by rw [hw]; exact hk)
    refine ⟨k, .accepting_no (hne _ rfl) (.accepting_no (hne _ rfl) (.accepting_yes hw ?_))⟩
    exact he.expression_fails (m := .endOfPrint) hc hrest.semicolon (by simp at hj ⊢; omega) _
  · exact fun vs s n e k ds he hs => ⟨k, _, he.print hw hs⟩

theorem Consumes.return_fails {k : Nat} (hw : w.kind = .word .return)
    (h : Consumes (returnStatement w (Grammar.expression (j + 1))) ts rest n k [] (fail cause)) :
    Consumes (Grammar.statement (j + 1)) (w :: ts) rest n k [] (fail cause) := by
  have hne (k : Kind) (hk : (Kind.word .return == k) = false) :
      Avoids (· == k) (w :: ts ++ rest) := avoids_cons.2 (by rw [hw]; exact hk)
  refine .accepting_no (hne _ rfl) (.accepting_no (hne _ rfl) (.accepting_no (hne _ rfl) ?_))
  exact (Consumes.acceptIf_yes (by simp [hw])).bind h

/-- A bare `return` takes any expression behind it. -/
theorem decides_bareReturn (hw : w.kind = .word .return) (hrest : Trails rest) :
    (Form.statement false).Decides [w] rest := by
  by_cases hstart : Avoids startsExpression rest
  · refine .inl ⟨.noExpression, fun n j hj => ⟨n, ?_⟩⟩
    obtain ⟨j, rfl⟩ : ∃ j', j = j' + 1 := ⟨j - 1, by simp at hj; omega⟩
    have hnone : Consumes (unlessNext (.mark .semicolon) (Grammar.expression (j + 1))) [] rest n n []
        (fail .noExpression) :=
      .ifNext_no hrest.semicolon ((Consumes.expression_no hstart _).through _)
    exact .return_fails hw (hnone.through _)
  · cases rest with
    | nil => exact absurd (avoids_nil _) hstart
    | cons t us =>
      refine .inr ⟨t, us, rfl, by simpa [avoids_cons] using hstart, fun vs s n hv hs => ?_⟩
      obtain ⟨e, k, he⟩ := hv n
      exact ⟨k, [], ⟨_, he.someExpression.returns hw hs⟩, .inl rfl⟩

theorem decides_return (hw : w.kind = .word .return) (he : Anywhere (.expr .assignment) ts)
    (hrest : Trails rest) : (Form.statement false).Decides (w :: ts) rest := by
  refine decides_of_expression he hrest (m := .endOfReturn) ?_ ?_
  · intro hc n j hj
    obtain ⟨e, k, he⟩ := he n
    obtain ⟨t, us, rfl, ht⟩ := he.starts rfl
    obtain ⟨j, rfl⟩ : ∃ j', j = j' + 1 := ⟨j - 1, by simp at hj; omega⟩
    have hne : Avoids (· == .mark .semicolon) (t :: us ++ rest) :=
      avoids_cons.2 (ne_of_startsExpression ht rfl)
    have he : Consumes (Grammar.expression (j + 1)) (t :: us) rest n k [] (pure e) :=
      he.reads j rest (by simp at hj ⊢; omega) hc
    have hsome : Consumes (unlessNext (.mark .semicolon) (Grammar.expression (j + 1))) (t :: us)
        rest n k [] (pure (some e)) := .ifNext_no hne (he.ending rfl)
    refine ⟨k, .return_fails hw ?_⟩
    exact .of_eq (hsome.followedBy [] rfl
      ((Consumes.expect_no (e := .endOfReturn) hrest.semicolon).through _)) (by simp) rfl
  · exact fun vs s n e k ds he hs => ⟨k, _, he.someExpression.returns hw hs⟩

theorem decides_bareVariable (hw : w.kind = .word .var) (hx : x.kind = .identifier)
    (hrest : Trails rest) : Form.declaration.Decides [w, x] rest := by
  refine .inl ⟨.missing .endOfVariable, fun n j hj => ⟨n, ?_⟩⟩
  have hne (k : Kind) (hk : (Kind.word .var == k) = false) :
      Avoids (· == k) ([w, x] ++ rest) := avoids_cons.2 (by rw [hw]; exact hk)
  refine .accepting_no (hne _ rfl) (.accepting_no (hne _ rfl) (.accepting_yes hw ?_))
  have hno : Consumes (do if ← accept (.mark .equal) then some <$> Grammar.expression j else pure none)
      [] rest n n [] (pure none) := .accepting_no hrest.equal (.refl _ _ _)
  rw [varDeclaration_eq]
  exact (Consumes.expect hx).bind (hno.followedBy [] rfl
    ((Consumes.expect_no (e := .endOfVariable) hrest.semicolon).through _))

theorem decides_initialized (hw : w.kind = .word .var) (hx : x.kind = .identifier)
    (hq : q.kind = .mark .equal) (he : Anywhere (.expr .assignment) ts) (hrest : Trails rest) :
    Form.declaration.Decides (w :: x :: q :: ts) rest := by
  refine decides_of_expression he hrest (m := .endOfVariable) ?_ ?_
  · intro hc n j hj
    obtain ⟨e, k, he⟩ := he n
    obtain ⟨j, rfl⟩ : ∃ j', j = j' + 1 := ⟨j - 1, by simp at hj; omega⟩
    have hne (k : Kind) (hk : (Kind.word .var == k) = false) :
        Avoids (· == k) (w :: x :: q :: ts ++ rest) := avoids_cons.2 (by rw [hw]; exact hk)
    refine ⟨k, .accepting_no (hne _ rfl) (.accepting_no (hne _ rfl) (.accepting_yes hw ?_))⟩
    have he : Consumes (Grammar.expression (j + 1)) ts rest n k [] (pure e) :=
      he.reads j rest (by simp at hj ⊢; omega) hc
    have hi : Consumes (do
        if ← accept (.mark .equal) then some <$> Grammar.expression (j + 1) else pure none)
        (q :: ts) rest n k [] (pure (some e)) := .accepting_yes hq (he.map some)
    rw [varDeclaration_eq]
    exact .of_eq ((Consumes.expect hx).bind (hi.followedBy [] rfl
      ((Consumes.expect_no (e := .endOfVariable) hrest.semicolon).through _))) (by simp) rfl
  · exact fun vs s n e k ds he hs => ⟨k, _, (he.initialized hw hx hq hs).declaredVariable⟩

theorem Unended.decides (h : Unended a ts) (hrest : Trails rest) : a.Decides ts rest := by
  cases h with
  | expression he => exact decides_expression he hrest
  | print hw he => exact decides_print hw he hrest
  | returns hw he =>
    obtain ⟨o, k, ho⟩ := he 0
    cases ho with
    | noExpression => exact decides_bareReturn hw hrest
    | someExpression he => exact decides_return hw (he.anywhere rfl) hrest
  | bareVariable hw hx => exact decides_bareVariable hw hx hrest
  | initialized hw hx hq he => exact decides_initialized hw hx hq he hrest

end Unended

section Items

variable {enclosed : Bool} {m : Nat} {ds : List Diagnostic}

theorem items_succ {t : Token} {reports : Array Diagnostic} (ht : t.kind ≠ .mark .rightBrace) :
    items enclosed (j + 1) ⟨t :: ts, finish, n, reports⟩ = (do
      let s ← declarationWith (j + 1) (statement j) (declarations j)
      return s.toList ++ (← items enclosed j)) ⟨t :: ts, finish, n, reports⟩ := by
  cases enclosed with
  | false => rfl
  | true =>
    show declarations (j + 1) _ = _
    rw [declarations, bind_apply, endsBlock_apply]
    simp [ht, items]

/-- Declarations in front of other tokens of their list. -/
theorem Derives.items_consumes {ss : List Stmt} (h : Derives Complete (.declarations ss) ts n m ds)
    (hds : ds = []) (enclosed : Bool) : ss.length ≤ ts.length ∧ ∀ j rest, (ts ++ rest).length ≤ j →
      Avoids (· == .word .else) rest →
        Consumes (items enclosed j) ts rest n m [] ((ss ++ ·) <$> items enclosed (j - ss.length)) := by
  generalize hp : Phrase.declarations ss = p at h
  induction h generalizing ss with
  | noDeclaration =>
    cases hp
    refine ⟨Nat.le_refl _, fun j rest _ _ => ?_⟩
    simpa using Consumes.refl _ _ _
  | @moreDeclarations s ss ts us n i m _ _ hs hss _ ih =>
    cases hp
    obtain ⟨hds, hes⟩ := List.append_eq_nil_iff.1 hds
    obtain ⟨hlen, ih⟩ := ih hes rfl
    obtain ⟨t, vs, rfl, ht⟩ := hs.starts rfl
    refine ⟨by simp; omega, fun j rest hj hrest => ?_⟩
    obtain ⟨j, rfl⟩ : ∃ j', j = j' + 1 := ⟨j - 1, by simp at hj; omega⟩
    have helse : Avoids (· == .word .else) (us ++ rest) := by
      rcases hss.starts_declarations with rfl | ⟨u, ws, rfl, hu⟩
      · exact hrest
      · refine avoids_cons.2 (beq_eq_false_iff_ne.2 fun h => ?_)
        rw [h] at hu
        cases hu
    have hs : Consumes (declarationWith (j + 1) (statement j) (declarations j)) (t :: vs) (us ++ rest)
        n i [] (pure (some s)) := hds ▸ hs.reads j _ (by simpa using hj) helse
    have hss := (ih j rest (by simp at hj ⊢; omega) hrest).mapped (s :: ·)
    have hmap : ((s :: ss ++ ·) <$> items enclosed (j - ss.length) : Step (List Stmt)) =
        (s :: ·) <$> (ss ++ ·) <$> items enclosed (j - ss.length) := by simp
    have hj' : j + 1 - (s :: ss).length = j - ss.length := by simp
    rw [map_eq_pure_bind] at hss
    rw [hj', hmap]
    have hne : t.kind ≠ .mark .rightBrace := by
      intro h
      rw [h] at ht
      cases ht
    intro finish reports
    have h := hs.bind (f := fun s => (do return s.toList ++ (← items enclosed j))) hss finish reports
    rw [List.append_assoc, List.cons_append] at h ⊢
    exact (items_succ hne).trans h
  | _ => cases hp

theorem Steady.items (enclosed : Bool) (j : Nat) : Steady j (Grammar.items enclosed j) (Grammar.items enclosed j) := by
  cases enclosed with
  | false => exact .topLevel j
  | true => exact .declarations j

end Items

section Resuming

/-- The form is read alongside from `Y` and from `X`, where `d` is reported in addition. -/
structure Form.Resumes (d : Diagnostic) (finish : Token) (X Y : List Token) (a : Form) : Prop where
  left : a.Begins X
  right : a.Begins Y
  together : ∀ n j, X.length ≤ j → Y.length ≤ j → Together d Y.length
    (a.step j ⟨Y, finish, n, #[]⟩) (a.step j ⟨X, finish, n, #[]⟩)

theorem Together.consumes {α : Type} {N m : Nat} {p q : Step α} (hX : Consumes p l X n m [] q)
    (hY : Consumes p l Y n m [] q)
    (h : Together d N (q ⟨Y, finish, m, #[]⟩) (q ⟨X, finish, m, #[]⟩)) :
    Together d N (p ⟨l ++ Y, finish, n, #[]⟩) (p ⟨l ++ X, finish, n, #[]⟩) := by
  rw [hX, hY]
  exact h

/-- Behind other declarations of the list. -/
theorem Form.Resumes.behind {enclosed : Bool}
    (h : (Form.declarations enclosed).Resumes d finish X Y) (hX : Avoids (· == .word .else) X)
    (hY : Avoids (· == .word .else) Y) (hl : Anywhere .declarations l) :
    (Form.declarations enclosed).Resumes d finish (l ++ X) (l ++ Y) := by
  refine ⟨trivial, trivial, fun n j hjX hjY => ?_⟩
  obtain ⟨ss, m, hl⟩ := hl n
  obtain ⟨hlen, hitems⟩ := hl.items_consumes rfl enclosed
  refine .mono (n := Y.length) ?_ (by simp)
  refine .consumes (hitems j X hjX hX) (hitems j Y hjY hY) ?_
  simp only [List.length_append] at hjX hjY
  have hmore := h.together m (j - ss.length) (by omega) (by omega)
  rw [map_eq_pure_bind]
  exact hmore.bind fun _ _ c c' _ hc hN => .ok hc hN

theorem Form.Begins.ne {k : Kind} (h : Form.declaration.Begins ts) (hk : startsDeclaration k = false) :
    Avoids (· == k) ts := by
  obtain ⟨t, us, rfl, ht⟩ := h
  refine avoids_cons.2 (beq_eq_false_iff_ne.2 ?_)
  rintro rfl
  rw [hk] at ht
  cases ht

/-- As the first declaration of a list. -/
theorem Form.Resumes.item (h : Form.declaration.Resumes d finish X Y) (enclosed : Bool) :
    (Form.declarations enclosed).Resumes d finish X Y := by
  refine ⟨trivial, trivial, fun n j hX hY => ?_⟩
  have hcloseX : Avoids (· == .mark .rightBrace) X := h.left.ne rfl
  have hcloseY : Avoids (· == .mark .rightBrace) Y := h.right.ne rfl
  obtain ⟨t, xs, rfl, -⟩ := h.left
  obtain ⟨u, ys, rfl, -⟩ := h.right
  obtain ⟨j, rfl⟩ : ∃ j', j = j' + 1 := ⟨j - 1, by simp at hX; omega⟩
  show Together d _ (items enclosed (j + 1) _) (items enclosed (j + 1) _)
  rw [items_succ (by simpa [avoids_cons] using hcloseY),
    items_succ (by simpa [avoids_cons] using hcloseX)]
  refine (h.together n (j + 1) hX hY).recovering.bind fun s s' c c' hok hc hN => ?_
  have hless : c.rest.length < (u :: ys).length := length_of_declaration (by simp) hY hok
  refine ((Steady.items enclosed j _ _ _ hc ?_).bind fun _ _ c₁ c₁' _ h₁ hN₁ => .ok h₁ hN₁).mono hN
  simp only [List.length_cons] at hless hY
  omega

theorem Layer.resumes (h : Layer a b l r) (hXY : b.Resumes d finish X Y) :
    a.Resumes d finish (l ++ X) (l ++ Y) := by
  by_cases hb : b = .declaration
  · subst hb
    cases h with
    | item hl => exact (hXY.item _).behind (hXY.left.ne rfl) (hXY.right.ne rfl) hl
    | branch h => cases h
  refine ⟨h.begins hXY.left, h.begins hXY.right, fun n j hX hY => ?_⟩
  obtain ⟨m, i, u, ho⟩ := h.opening hb n j
  simp only [List.length_append] at hX hY
  refine .mono (n := Y.length) ?_ (by simp)
  refine .consumes (ho.consumes X (by simpa using hX) hXY.left)
    (ho.consumes Y (by simpa using hY) hXY.right) ?_
  refine (hXY.together m i (ho.bound _ hX) (ho.bound _ hY)).bind fun x y c c' _ hc hN => ?_
  exact (ho.steady _ hY x y _ _ _ hc hN).mono hN

theorem Nested.resumes (h : Nested Layer a b l r) (hXY : b.Resumes d finish X Y) :
    a.Resumes d finish (l ++ X) (l ++ Y) := by
  induction h with
  | here => exact hXY
  | inside h _ ih =>
    rw [List.append_assoc, List.append_assoc]
    exact h.resumes (ih hXY)

/-- The tokens to go on with if the first one is at fault. -/
def resumed : List Token → List Token
  | [] => []
  | t :: ts => boundary t ts

theorem recovering_fails {α : Type} {p : Step α} {k : Nat}
    (h : Consumes p ts rest n k [] (fail cause)) (reports : Array Diagnostic) :
    recovering p ⟨ts ++ rest, finish, n, reports⟩ =
      .ok none ⟨resumed rest, finish, k, reports.push (fault cause (rest.headD finish))⟩ := by
  rw [recovering_apply, h]
  cases rest <;> simp [fail, Cursor.passOver, Cursor.peek, resumed]

theorem consumes_emptyBlock {o c : Token} (ho : o.kind = .mark .leftBrace)
    (hc : c.kind = .mark .rightBrace) (hj : (o :: c :: rest).length ≤ j + 1) :
    Consumes (declarationWith (j + 1) (statement j) (declarations j)) [o, c] rest n n []
      (pure (some (.block []))) := by
  have hs : Consumes (statement (j + 1)) [o, c] rest n n [] (pure (.block [])) :=
    (Derives.block ho .noDeclaration hc).reads (j + 1) _ (by simpa using hj) nofun
  have hne (k : Kind) (hk : (Kind.mark .leftBrace == k) = false) :
      Avoids (· == k) ([o, c] ++ rest) := avoids_cons.2 (by rw [ho]; exact hk)
  exact .recovering (.accepting_no (hne _ rfl) (.accepting_no (hne _ rfl)
    (.accepting_no (hne _ rfl) hs)))

/-- A declaration that fails is passed over, as an empty block is. -/
theorem resumes_of_fails {o c : Token} (hfails : Form.declaration.Fails cause ts rest)
    (hts : Form.declaration.Begins (ts ++ rest)) (ho : o.kind = .mark .leftBrace)
    (hc : c.kind = .mark .rightBrace) (enclosed : Bool) :
    (Form.declarations enclosed).Resumes (fault cause (rest.headD finish)) finish (ts ++ rest)
      (o :: c :: resumed rest) := by
  refine ⟨trivial, trivial, fun n j hX hY => ?_⟩
  obtain ⟨j, rfl⟩ : ∃ j', j = j' + 1 := ⟨j - 1, by simp at hY; omega⟩
  obtain ⟨k, hfail⟩ := hfails n (j + 1) hX
  have hfault : declarationWith (j + 1) (statement j) (declarations j) ⟨ts ++ rest, finish, n, #[]⟩ =
      .ok none ⟨resumed rest, finish, k, #[fault cause (rest.headD finish)]⟩ :=
    recovering_fails hfail #[]
  have hblock : declarationWith (j + 1) (statement j) (declarations j)
      ⟨o :: c :: resumed rest, finish, n, #[]⟩ =
        .ok (some (.block [])) ⟨resumed rest, finish, n, #[]⟩ := consumes_emptyBlock ho hc hY finish #[]
  have hnext : n ≤ k := by
    obtain ⟨hi, hb⟩ := statement_sound_declarations_sound j
    exact ((declarationWith_sound (j + 1) hi hb).ok hfault).1.2
  have hc : Cursor.Alongside (fault cause (rest.headD finish)) ⟨resumed rest, finish, n, #[]⟩
      ⟨resumed rest, finish, k, #[fault cause (rest.headD finish)]⟩ := ⟨rfl, rfl, hnext, rfl⟩
  have hmore : Together (fault cause (rest.headD finish)) (resumed rest).length _ _ :=
    Steady.items enclosed j _ _ _ hc (by simp at hY ⊢; omega)
  have hclose : Avoids (· == .mark .rightBrace) (ts ++ rest) := hts.ne rfl
  obtain ⟨t, us, hts, -⟩ := hts
  show Together _ _ (items enclosed (j + 1) _) (items enclosed (j + 1) _)
  rw [hts] at hfault hclose ⊢
  rw [items_succ (by rw [ho]; decide), items_succ (by simpa [avoids_cons] using hclose), bind_apply,
    bind_apply, hfault, hblock]
  exact (hmore.bind fun _ _ c c' _ h hN => .ok h hN).mono (by simp; omega)

end Resuming

end Lox.Grammar
