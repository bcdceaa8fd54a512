import Mathlib
import Lox.Proofs.Grammar.Locality
import Lox.Proofs.Grammar.Mirrored
import Lox.Proofs.Grammar.Place
import Lox.Proofs.Grammar.Recovery
import Lox.Proofs.Grammar.Violations

/-!
# A semicolon left out

Main statement: without the semicolon that ends a statement, the statement is one with the
expression behind it, or there is one diagnostic and then those of what reading resumes with,
the declaration around the statement being replaced by an empty block. This is one diagnostic
if another simple statement follows or nothing does. If a closing brace follows there can be
more, as that brace is passed over.
-/

set_option autoImplicit false

namespace Lox.Grammar

variable {before after front ts us X Y : List Token} {a : Form} {s t o c finish : Token} {n k : Nat}
  {ds : List Diagnostic} {d : Diagnostic} {cause : ParseCause}

section Simple

/-- Only the first token of a statement can be a word that begins one. -/
theorem Unended.inside (h : Unended a ts) : ∃ t us, ts = t :: us ∧ t.kind ≠ .mark .semicolon ∧
    ∀ u ∈ us, inside u.kind = true := by
  cases h with
  | expression he =>
    obtain ⟨e, k, he⟩ := he 0
    obtain ⟨t, us, rfl, ht⟩ := he.starts rfl
    have hinside := he.inside rfl
    exact ⟨t, us, rfl, ne_semicolon_of_inside (hinside t (by simp)), fun u hu => hinside u (by simp [hu])⟩
  | print hw he =>
    obtain ⟨e, k, he⟩ := he 0
    exact ⟨_, _, rfl, by rw [hw]; nofun, he.inside rfl⟩
  | returns hw he =>
    obtain ⟨e, k, he⟩ := he 0
    exact ⟨_, _, rfl, by rw [hw]; nofun, he.inside rfl⟩
  | bareVariable hw hx => exact ⟨_, _, rfl, by rw [hw]; nofun, by simp [hx]; rfl⟩
  | initialized hw hx hq he =>
    obtain ⟨e, k, he⟩ := he 0
    refine ⟨_, _, rfl, by rw [hw]; nofun, ?_⟩
    simpa [hx, hq] using ⟨rfl, rfl, he.inside rfl⟩

/-- A statement that is passed over ends with its semicolon. -/
theorem Unended.resumed (h : Unended a ts) (hs : s.kind = .mark .semicolon) :
    resumed (ts ++ s :: us) = us := by
  obtain ⟨t, vs, rfl, ht, hvs⟩ := h.inside
  have hsplit : t :: (vs ++ [s]) = (t :: vs) ++ [s] := rfl
  have hboundary : boundary t ((vs ++ [s]) ++ us) = us := by
    refine boundary_semicolon hs hsplit ?_ ?_
    · exact List.forall_mem_cons.2 ⟨ht, fun u hu => ne_semicolon_of_inside (hvs u hu)⟩
    · refine List.forall_mem_append.2 ⟨fun u hu => not_starts_of_inside (hvs u hu), ?_⟩
      simp [hs]
      rfl
  simpa [Grammar.resumed] using hboundary

/-- The first declaration of a list. -/
theorem Anywhere.first (h : Anywhere .declarations ts) : ts = [] ∨ ∃ us vs, ts = us ++ vs ∧
    Anywhere .declaration us ∧ Anywhere .declarations vs := by
  obtain ⟨ss, k, h⟩ := h 0
  generalize hds : ([] : List Diagnostic) = ds at h
  cases h with
  | noDeclaration => exact .inl rfl
  | moreDeclarations hs hss =>
    obtain ⟨hds, hes⟩ := List.append_eq_nil_iff.1 hds.symm
    exact .inr ⟨_, _, rfl, hs.anywhere hds, hss.anywhere hes⟩

/-- A declaration that begins with an expression is one with a semicolon behind it. -/
theorem Anywhere.expression (h : Anywhere .declaration (t :: ts))
    (ht : startsExpression t.kind = true) :
    ∃ us s, t :: ts = us ++ [s] ∧ s.kind = .mark .semicolon ∧ Anywhere (.expr .assignment) us := by
  have hword {w : Token} {k : Kind} (hw : w.kind = k) (hk : startsExpression k = false) : w ≠ t := by
    rintro rfl
    rw [hw, hk] at ht
    cases ht
  obtain ⟨x, k, h⟩ := h 0
  generalize hds : ([] : List Diagnostic) = ds, hts : t :: ts = us at h
  cases h with
  | declaredStatement h =>
    cases h with
    | expression he hs => exact ⟨_, _, rfl, hs, he.anywhere hds.symm⟩
    | print hw | returns hw | block hw | ifThen hw | ifElse hw | whileDo hw | forDo hw =>
      exact absurd (List.cons.inj hts).1.symm (hword hw rfl)
  | declaredVariable h =>
    cases h with
    | bareVariable hw | initialized hw => exact absurd (List.cons.inj hts).1.symm (hword hw rfl)
  | declaredFunction hw | declaredClass hw => exact absurd (List.cons.inj hts).1.symm (hword hw rfl)

end Simple

section Merged

theorem Mild.mono (h : Mild ts ds) (hts : ∀ t ∈ ts, t ∈ us) : Mild us ds :=
  h.imp_right fun ⟨q, hq, h⟩ => ⟨q, hts q hq, h⟩

theorem Mild.length_le (h : Mild ts ds) : ds.length ≤ 1 := by
  rcases h with rfl | ⟨q, -, -, rfl⟩ <;> simp

namespace Place

theorem trails (p : Place before after) : Trails after := by
  rw [p.after_eq]
  rcases p.branched.tail with htails | ⟨t, us, htails, ht⟩
  · rcases p.declared.nearest with ⟨⟨⟩, -, -⟩ | ⟨enclosed, l, r, ls, rs, hn, -, hrs, -, hback⟩
    rw [htails, hback, List.nil_append]
    obtain ⟨ss, k, hss⟩ := hrs 0
    rcases hss.starts_declarations with rfl | ⟨t, us, rfl, ht⟩
    · rcases hn.closes with ⟨-, -, rfl⟩ | ⟨t, us, rfl, ht⟩
      · nofun
      · rintro _ ⟨⟩
        exact .inr (.inl ht)
    · rintro _ ⟨⟩
      exact .inr (.inr ht)
  · rw [htails]
    rintro _ ⟨⟩
    exact .inl ht

/-- What stands behind the statement and begins with an expression is a statement of the same
list. -/
theorem next (p : Place before after) (hafter : after = t :: us)
    (ht : startsExpression t.kind = true) : p.tails = [] ∧ ∃ vs s rest,
      after = t :: vs ++ s :: rest ∧ s.kind = .mark .semicolon ∧
        Anywhere (.expr .assignment) (t :: vs) ∧
          Nested Layer (.declarations false) .declaration p.front rest := by
  have hne {u : Token} {vs : List Token} {k : Kind} (hu : u.kind = k)
      (hk : startsExpression k = false) (h : t :: us = u :: vs) : False := by
    obtain ⟨rfl, -⟩ := List.cons.inj h
    rw [hu, hk] at ht
    cases ht
  have hafter := hafter.symm.trans p.after_eq
  rcases p.branched.tail with htails | ⟨u, vs, htails, hu⟩
  swap
  · exact (hne hu rfl (by rw [hafter, htails]; rfl)).elim
  refine ⟨htails, ?_⟩
  rcases p.declared.nearest with ⟨⟨⟩, -, -⟩ | ⟨enclosed, l, r, ls, rs, hn, hls, hrs, hfront, hback⟩
  rw [htails, List.nil_append, hback] at hafter
  rcases hrs.first with rfl | ⟨xs, ys, rfl, hxs, hys⟩
  · rcases hn.closes with ⟨-, -, rfl⟩ | ⟨u, vs, rfl, hu⟩
    · cases hafter
    · exact (hne hu rfl hafter).elim
  obtain ⟨x, xs, rfl, -⟩ := hxs.starts (s := startsDeclaration) fun _ => rfl
  obtain ⟨rfl, hus⟩ := List.cons.inj hafter
  obtain ⟨vs, s, hvs, hs, he⟩ := hxs.expression ht
  obtain ⟨v, vs, rfl, -⟩ := he.starts (s := startsExpression) fun _ => rfl
  obtain ⟨rfl, rfl⟩ := List.cons.inj hvs
  refine ⟨vs, s, ys ++ r, by simp_all, hs, he, ?_⟩
  rw [hfront]
  exact hn.snoc (.item hls hys)

/-- Taken together with the expression behind it, the statement is one with a semicolon. -/
theorem merged (p : Place before after) (hafter : after = t :: us)
    (ht : startsExpression t.kind = true) (htakes : p.form.Takes p.tokens t) (n : Nat) :
    ∃ program k ds, Derives Complete (.declarations program) (before ++ after) n k ds ∧
      Mild after ds := by
  obtain ⟨htails, vs, s, rest, hvs, hs, he, hrest⟩ := p.next hafter ht
  obtain ⟨i, hfill⟩ := hrest.fill Layer.fill n
  obtain ⟨j, hfill'⟩ := p.branched.fill Branch.fill i
  obtain ⟨k, ds, hspans, hmild⟩ := htakes vs s j he hs
  obtain ⟨k, hspans⟩ := hfill' _ k ds hspans
  obtain ⟨k, program, hd⟩ := hfill _ k ds hspans
  have heq : before ++ after = p.front ++ p.heads ++ p.tokens ++ (t :: vs ++ s :: rest) :=
    congrArg₂ _ p.before_eq hvs
  refine ⟨program, k, ds, ?_, hmild.mono fun u hu => hvs ▸ List.mem_append_left _ hu⟩
  rw [heq]
  simpa [htails] using hd

end Place

end Merged

section Resumed

/-- At the fault the declaration is passed over. -/
theorem Place.resumes (p : Place before after) (h : p.form.Fails cause p.tokens after)
    (ho : o.kind = .mark .leftBrace) (hc : c.kind = .mark .rightBrace) :
    (Form.declarations false).Resumes (fault cause (after.headD finish)) finish (before ++ after)
      (p.front ++ o :: c :: resumed after) := by
  have hbegins := p.unended.begins after
  have hfails : Form.declaration.Fails cause (p.heads ++ p.tokens) after :=
    p.branched.fails hbegins h
  have hdeclared : Form.declaration.Begins (p.heads ++ p.tokens ++ after) := by
    rw [List.append_assoc]
    exact p.branched.begins Branch.begins hbegins
  rcases p.declared.nearest with ⟨⟨⟩, -, -⟩ | ⟨enclosed, l, r, ls, rs, hn, hls, -, hfront, -⟩
  have hlist : (Form.declarations enclosed).Resumes (fault cause (after.headD finish)) finish _ _ :=
    resumes_of_fails hfails hdeclared ho hc enclosed
  have hbehind := hlist.behind (hdeclared.ne rfl) (avoids_cons.2 (by rw [ho]; rfl)) hls
  have h := hn.resumes hbehind
  have heq : before ++ after = l ++ (ls ++ (p.heads ++ p.tokens ++ after)) := by
    have hbefore := congrArg (· ++ after) (p.before_eq.trans (by rw [hfront]))
    simpa using hbefore
  rwa [heq, hfront, List.append_assoc l ls]

/-- With an empty block instead of the declaration, the program is read as before. -/
theorem blocked {rest : List Token} (h : Nested Layer (.declarations false) .declaration front rest)
    (ho : o.kind = .mark .leftBrace) (hc : c.kind = .mark .rightBrace) (n : Nat) :
    ∃ program k, Derives Complete (.declarations program) (front ++ o :: c :: rest) n k [] := by
  obtain ⟨m, hfill⟩ := h.fill Layer.fill n
  have hblock : Form.declaration.Spans [o, c] m m [] :=
    ⟨_, (Derives.block ho .noDeclaration hc).declaredStatement⟩
  obtain ⟨k, program, hd⟩ := hfill _ _ _ hblock
  exact ⟨program, k, by simpa using hd⟩

/-- Nothing stands behind the statement, or another one without braces in the same list. -/
def Place.Plain (p : Place before after) : Prop := after = [] ∨ ∃ a ts s rest, Unended a ts ∧
  s.kind = .mark .semicolon ∧ after = ts ++ s :: rest ∧
    Nested Layer (.declarations false) .declaration p.front rest

theorem Place.Plain.resumed {p : Place before after} (h : p.Plain) :
    Nested Layer (.declarations false) .declaration p.front (resumed after) := by
  rcases h with rfl | ⟨a, ts, s, rest, hts, hs, rfl, hrest⟩
  · have hback := p.after_eq
    rw [List.nil_eq, List.append_eq_nil_iff] at hback
    have h := p.declared
    rwa [hback.2] at h
  · rwa [hts.resumed hs]

theorem mem_resumed : ∀ t ∈ resumed ts, t ∈ ts := by
  cases ts with
  | nil => exact fun _ h => h
  | cons t us =>
    obtain ⟨vs, hvs⟩ := Setting.boundary_suffix t us
    intro u hu
    have hu : u ∈ vs ++ boundary t us := List.mem_append_right _ hu
    exact List.mem_cons_of_mem t (hvs ▸ hu)

theorem Form.Resumes.diagnostics (h : (Form.declarations false).Resumes d finish X Y)
    (hX : ∀ t ∈ X, t.kind ≠ .finish) (hY : ∀ t ∈ Y, t.kind ≠ .finish) (hf : finish.kind = .finish)
    (n : Nat) :
    (readProgram n (X ++ [finish])).diagnostics = d :: (readProgram n (Y ++ [finish])).diagnostics := by
  have hread {Z : List Token} (hZ : ∀ t ∈ Z, t.kind ≠ .finish) (hlen : Z.length ≤ max X.length Y.length) :
      (readProgram n (Z ++ [finish])).diagnostics =
        reported (topLevel (max X.length Y.length) ⟨Z, finish, n, #[]⟩) := by
    rw [← topLevel_eq ⟨hZ, hf⟩ (Nat.le_refl Z.length) hlen]
    exact diagnostics_ofStep (p := topLevel) hZ hf n
  rw [hread hX (Nat.le_max_left ..), hread hY (Nat.le_max_right ..)]
  exact (h.together n _ (Nat.le_max_left ..) (Nat.le_max_right ..)).reported

theorem Derives.diagnostics {program : List Stmt}
    (h : Derives Complete (.declarations program) ts n k ds) (hts : ∀ t ∈ ts, t.kind ≠ .finish)
    (hf : finish.kind = .finish) : (Grammar.readProgram n (ts ++ [finish])).diagnostics = ds := by
  rw [h.readProgram hts hf]
  cases ds <;> rfl

end Resumed

section LeftOut

/-- Each semicolon of a program is in the clauses of a `for` or ends a statement. Without one
that ends a statement, the program is read with no diagnostic or that of an assignment behind
the statement, or with one at the token behind the statement and then those of what reading
resumes with. There is one diagnostic at most if another simple statement or nothing follows. -/
theorem diagnostics_without_semicolon (hts : ∀ t ∈ before ++ s :: after, t.kind ≠ .finish)
    (hf : finish.kind = .finish) (hs : s.kind = .mark .semicolon)
    (hread : ∃ program, (readProgram n (before ++ s :: after ++ [finish])).result = .ok program) :
    (InClauses (.declarations false) before s after ∨ Nonempty (Place before after)) ∧
    ∀ p : Place before after,
      (Mild after (readProgram n (before ++ after ++ [finish])).diagnostics ∨ ∃ cause, ∀ o c : Token,
        o.kind = .mark .leftBrace → c.kind = .mark .rightBrace →
          (readProgram n (before ++ after ++ [finish])).diagnostics = fault cause (after.headD finish) ::
            (readProgram n (p.front ++ o :: c :: resumed after ++ [finish])).diagnostics) ∧
      (p.Plain → (readProgram n (before ++ after ++ [finish])).diagnostics.length ≤ 1) := by
  constructor
  · obtain ⟨program, hread⟩ := hread
    have h := (readProgram_eq_ok_iff (k := (readProgram n (before ++ s :: after ++ [finish])).nextId)
      hts hf).1 (by rw [← hread])
    exact h.exists_place hs rfl
  · intro p
    have hbefore (t : Token) (ht : t ∈ before) : t.kind ≠ .finish := hts t (by simp [ht])
    have hafter (t : Token) (ht : t ∈ after) : t.kind ≠ .finish := hts t (by simp [ht])
    have hall : ∀ t ∈ before ++ after, t.kind ≠ .finish := List.forall_mem_append.2 ⟨hbefore, hafter⟩
    rcases p.unended.decides p.trails with ⟨cause, hfails⟩ | ⟨t, us, hafter', ht, htakes⟩
    · have hrest (o c : Token) (ho : o.kind = .mark .leftBrace) (hc : c.kind = .mark .rightBrace) :
          ∀ t ∈ p.front ++ o :: c :: resumed after, t.kind ≠ .finish := by
        refine List.forall_mem_append.2 ⟨fun t ht => hbefore t (by simp [p.before_eq, ht]), ?_⟩
        refine List.forall_mem_cons.2 ⟨by rw [ho]; nofun, List.forall_mem_cons.2 ⟨by rw [hc]; nofun, ?_⟩⟩
        exact fun t ht => hafter t (mem_resumed t ht)
      have hone (o c : Token) (ho : o.kind = .mark .leftBrace) (hc : c.kind = .mark .rightBrace) :
          (readProgram n (before ++ after ++ [finish])).diagnostics = fault cause (after.headD finish) ::
            (readProgram n (p.front ++ o :: c :: resumed after ++ [finish])).diagnostics :=
        (p.resumes hfails ho hc).diagnostics hall (hrest o c ho hc) hf n
      refine ⟨.inr ⟨cause, hone⟩, fun hplain => ?_⟩
      let o : Token := ⟨.mark .leftBrace, "", 0⟩
      let c : Token := ⟨.mark .rightBrace, "", 0⟩
      obtain ⟨program, k, hd⟩ := blocked (o := o) (c := c) hplain.resumed rfl rfl n
      have hnone : (readProgram n (p.front ++ o :: c :: resumed after ++ [finish])).diagnostics = [] :=
        hd.diagnostics (hrest o c rfl rfl) hf
      rw [hone o c rfl rfl, hnone]
      exact Nat.le_refl 1
    · obtain ⟨program, k, ds, hd, hmild⟩ := p.merged hafter' ht htakes n
      rw [hd.diagnostics hall hf]
      exact ⟨.inl hmild, fun _ => hmild.length_le⟩

theorem anywhere_name (x : String) : Anywhere (.expr .assignment) [⟨.identifier, x, 1⟩] := by
  have hread : readExpression 0 ([⟨.identifier, x, 1⟩] ++ [⟨.finish, "", 1⟩]) =
      ⟨.ok (.var ⟨0, ⟨.identifier, x, 1⟩⟩), 1⟩ := rfl
  exact ((readExpression_eq_ok_iff (by simp) rfl).1 hread).anywhere rfl

theorem diagnostics_without_semicolon_pair :
    ∃ p : Place [⟨.identifier, "a", 1⟩] [⟨.identifier, "b", 1⟩, ⟨.mark .semicolon, ";", 1⟩],
      p.Plain ∧ (readProgram 0 [⟨.identifier, "a", 1⟩, ⟨.identifier, "b", 1⟩,
        ⟨.mark .semicolon, ";", 1⟩, ⟨.finish, "", 1⟩]).diagnostics.length ≤ 1 := by
  have hb : Anywhere .declarations [⟨.identifier, "b", 1⟩, ⟨.mark .semicolon, ";", 1⟩] := by
    intro n
    obtain ⟨e, k, he⟩ := anywhere_name "b" n
    have hs : Derives Complete (.statement false (.expression e))
        [⟨.identifier, "b", 1⟩, ⟨.mark .semicolon, ";", 1⟩] n k [] := he.expression rfl
    exact ⟨_, k, by simpa using hs.declaredStatement.moreDeclarations .noDeclaration⟩
  let p : Place [⟨.identifier, "a", 1⟩] [⟨.identifier, "b", 1⟩, ⟨.mark .semicolon, ";", 1⟩] :=
    ⟨[], [], _, [], _, _, .single (.item anywhere_noDeclaration hb), .single .statement,
      .expression (anywhere_name "a"), rfl, rfl⟩
  have hplain : p.Plain := .inr ⟨_, _, _, [], .expression (anywhere_name "b"), rfl, rfl,
    .single (.item anywhere_noDeclaration anywhere_noDeclaration)⟩
  refine ⟨p, hplain, ?_⟩
  have h := @diagnostics_without_semicolon [⟨.identifier, "a", 1⟩]
    [⟨.identifier, "b", 1⟩, ⟨.mark .semicolon, ";", 1⟩] ⟨.mark .semicolon, ";", 1⟩ ⟨.finish, "", 1⟩ 0
    (by decide) rfl rfl ⟨_, rfl⟩
  exact (h.2 p).2 hplain

/-- Without the semicolon of `{ a; }` there are two diagnostics. -/
theorem two_diagnostics_without_semicolon :
    (∃ program, (readProgram 0 [⟨.mark .leftBrace, "\x7b", 1⟩, ⟨.identifier, "a", 1⟩,
      ⟨.mark .semicolon, ";", 1⟩, ⟨.mark .rightBrace, "\x7d", 1⟩, ⟨.finish, "", 1⟩]).result =
        .ok program) ∧
    Nonempty (Place [⟨.mark .leftBrace, "\x7b", 1⟩, ⟨.identifier, "a", 1⟩]
      [⟨.mark .rightBrace, "\x7d", 1⟩]) ∧
    (readProgram 0 [⟨.mark .leftBrace, "\x7b", 1⟩, ⟨.identifier, "a", 1⟩,
      ⟨.mark .rightBrace, "\x7d", 1⟩, ⟨.finish, "", 1⟩]).diagnostics =
        [fault (.missing .endOfExpression) ⟨.mark .rightBrace, "\x7d", 1⟩,
          fault (.missing .closeBlock) ⟨.finish, "", 1⟩] := by
  refine ⟨⟨_, rfl⟩, ⟨?_⟩, rfl⟩
  exact ⟨[⟨.mark .leftBrace, "\x7b", 1⟩], [], _, [], [⟨.mark .rightBrace, "\x7d", 1⟩], _,
    .inside (Layer.item anywhere_noDeclaration anywhere_noDeclaration)
      (.inside (Layer.branch .statement) (.inside (Layer.block rfl rfl)
        (.single (Layer.item anywhere_noDeclaration anywhere_noDeclaration)))), .single .statement,
    .expression (anywhere_name "a"), rfl, rfl⟩

end LeftOut

end Lox.Grammar
