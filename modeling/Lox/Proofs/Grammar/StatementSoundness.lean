import Lox.Proofs.Grammar.ExpressionSoundness

/-!
# Statements read derive from the grammar

The same for statements and declarations, where two things are added. A dangling
statement is never left in front of an `else`, which is why none stands before one. And reading on after a fault has reported it, so nothing is claimed of
the tokens passed over.
-/

set_option autoImplicit false

namespace Lox.Grammar

/-- The tokens derive the statement, and if it is dangling no `else` follows. -/
def StatementOf : Language Stmt := fun s ts rest n k =>
  ∃ d, Derives Complete (.statement d s) ts n k [] ∧
    (d = true → ∀ t ∈ rest.head?, t.kind ≠ .word .else)

section Pieces

variable {expr : Step Expr} {body : Step (List Stmt)}

theorem unlessNext_sound (k : Kind) (he : Sound expr (Of Complete (.expr .assignment))) :
    Sound (unlessNext k expr) (Of Complete .optional) := by
  refine (Sound.ifNext k (Sound.pure none) (he.bind fun e => Sound.pure (some e))).mono ?_
  rintro o ts rest n m (⟨rfl, rfl, rfl⟩ | ⟨e, us, vs, j, rfl, he, rfl, rfl, rfl⟩)
  · exact .noExpression
  · simpa [Of] using Derives.someExpression he

theorem closedBy_sound (hb : Sound body (Of Complete .declarations)) :
    Sound (closedBy body) fun ss ts _ n k => ∃ us c, ts = us ++ [c] ∧
      c.kind = .mark .rightBrace ∧ Derives Complete (.declarations ss) us n k [] := by
  refine (hb.bind fun ss => (Sound.expect .closeBlock).bind fun _ => Sound.pure ss).mono ?_
  rintro ss ts rest n k ⟨_, us, vs, m, rfl, hs, c, us', vs', m', rfl, ⟨rfl, rfl, hc⟩, rfl, rfl, rfl⟩
  exact ⟨us, c, rfl, hc, hs⟩

theorem varDeclaration_sound (he : Sound expr (Of Complete (.expr .assignment))) :
    Sound (varDeclaration expr) fun s ts _ n k => ∀ w : Token, w.kind = .word .var →
      Derives Complete (.varDeclaration s) (w :: ts) n k [] := by
  rw [varDeclaration_eq]
  refine ((Sound.expect .variableName).bind fun x =>
    (Sound.accepting (.mark .equal) (he.map some) (Sound.pure none)).bind fun i =>
      (Sound.expect .endOfVariable).bind fun _ => Sound.pure (Stmt.var x i)).mono ?_
  rintro s ts rest n k ⟨x, us, vs, m, rfl, ⟨rfl, rfl, hx⟩, i, us', vs', m', rfl, hi, c, us'', vs'',
    m'', rfl, ⟨rfl, rfl, hc⟩, rfl, rfl, rfl⟩ w hw
  rcases hi with ⟨q, us, rfl, hq, e, rfl, he⟩ | ⟨-, rfl, rfl, rfl⟩
  · simpa using Derives.initialized hw hx hq he hc
  · exact .bareVariable hw hx hc

theorem expressionStatement_sound (he : Sound expr (Of Complete (.expr .assignment))) :
    Sound (expressionStatement expr) fun s ts _ n k => ∃ e us c, s = .expression e ∧
      ts = us ++ [c] ∧ c.kind = .mark .semicolon ∧
        Derives Complete (.expr .assignment e) us n k [] := by
  refine (he.bind fun e => (Sound.expect .endOfExpression).bind
    fun _ => Sound.pure (Stmt.expression e)).mono ?_
  rintro s ts rest n k ⟨e, us, vs, m, rfl, he, c, us', vs', m', rfl, ⟨rfl, rfl, hc⟩, rfl, rfl, rfl⟩
  exact ⟨e, us, c, rfl, rfl, hc, he⟩

theorem forInitializer_sound (he : Sound expr (Of Complete (.expr .assignment))) :
    Sound (forInitializer expr) (Of Complete .initializer) := by
  refine (Sound.accepting (.mark .semicolon) (Sound.pure none) (Sound.accepting (.word .var)
    ((varDeclaration_sound he).map some) ((expressionStatement_sound he).map some))).mono ?_
  rintro o ts rest n k (⟨c, us, rfl, hc, rfl, rfl, rfl⟩ | ⟨-, ⟨w, us, rfl, hw, s, rfl, hs⟩ |
    ⟨-, s, rfl, e, us, c, rfl, rfl, hc, he⟩⟩)
  · exact .noInitializer hc
  · exact .variableInitializer (hs w hw)
  · exact .expressionInitializer he hc

end Pieces

section Statements

variable {expr : Step Expr} {inner : Step Stmt} {body : Step (List Stmt)}

theorem printStatement_sound (he : Sound expr (Of Complete (.expr .assignment))) :
    Sound (printStatement expr) fun s ts rest n k => ∀ w : Token,
      w.kind = .word .print → StatementOf s (w :: ts) rest n k := by
  refine (he.bind fun e => (Sound.expect .endOfPrint).bind
    fun _ => Sound.pure (Stmt.print e)).mono ?_
  rintro s ts rest n k ⟨e, us, vs, m, rfl, he, c, us', vs', m', rfl, ⟨rfl, rfl, hc⟩, rfl, rfl, rfl⟩ w hw
  exact ⟨false, .print hw he hc, nofun⟩

theorem returnStatement_sound {w : Token} (he : Sound expr (Of Complete (.expr .assignment))) :
    Sound (returnStatement w expr) fun s ts rest n k =>
      w.kind = .word .return → StatementOf s (w :: ts) rest n k := by
  refine ((unlessNext_sound (.mark .semicolon) he).bind fun e => (Sound.expect .endOfReturn).bind
    fun _ => Sound.pure (Stmt.return w e)).mono ?_
  rintro s ts rest n k ⟨e, us, vs, m, rfl, he, c, us', vs', m', rfl, ⟨rfl, rfl, hc⟩, rfl, rfl, rfl⟩ hw
  exact ⟨false, .returns hw he hc, nofun⟩

theorem ifStatement_sound (he : Sound expr (Of Complete (.expr .assignment))) (hi : Sound inner StatementOf) :
    Sound (ifStatement expr inner) fun s ts rest n k => ∀ w : Token,
      w.kind = .word .if → StatementOf s (w :: ts) rest n k := by
  rw [ifStatement_eq]
  refine ((Sound.expect .openIf).bind fun _ => he.bind fun e => (Sound.expect .closeIf).bind
    fun _ => hi.bind fun yes => (Sound.accepting (.word .else) (hi.map some)
      (Sound.pure none)).bind fun no => Sound.pure (Stmt.if e yes no)).mono ?_
  rintro s ts rest n k ⟨o, us, vs, m, rfl, ⟨rfl, rfl, ho⟩, e, us', vs', m', rfl, he,
    c, us'', vs'', m'', rfl, ⟨rfl, rfl, hc⟩, yes, xs, ys, j, rfl, ⟨d, hyes, hd⟩, no, xs', ys', j',
    rfl, hno,
    rfl, rfl, rfl⟩ w hw
  rcases hno with ⟨l, zs, rfl, hl, no, rfl, d', hno, hd'⟩ | ⟨hl, rfl, rfl, rfl⟩
  · have hcomplete : Complete d := by
      cases d with
      | false => rfl
      | true => exact absurd hl (hd rfl l rfl)
    refine ⟨d', ?_, hd'⟩
    simpa using Derives.ifElse hw ho he hc hyes hcomplete hl hno
  · refine ⟨true, ?_, fun _ => hl⟩
    simpa using Derives.ifThen hw ho he hc hyes

theorem whileStatement_sound (he : Sound expr (Of Complete (.expr .assignment))) (hi : Sound inner StatementOf) :
    Sound (whileStatement expr inner) fun s ts rest n k => ∀ w : Token,
      w.kind = .word .while → StatementOf s (w :: ts) rest n k := by
  refine ((Sound.expect .openWhile).bind fun _ => he.bind fun e => (Sound.expect .closeWhile).bind
    fun _ => hi.bind fun b => Sound.pure (Stmt.while e b)).mono ?_
  rintro s ts rest n k ⟨o, us, vs, m, rfl, ⟨rfl, rfl, ho⟩, e, us', vs', m', rfl, he,
    c, us'', vs'', m'', rfl, ⟨rfl, rfl, hc⟩, b, xs, ys, j, rfl, ⟨d, hb, hd⟩,
    rfl, rfl, rfl⟩ w hw
  refine ⟨d, ?_, hd⟩
  simpa using Derives.whileDo hw ho he hc hb

theorem forStatement_sound (he : Sound expr (Of Complete (.expr .assignment))) (hi : Sound inner StatementOf) :
    Sound (forStatement expr inner) fun s ts rest n k => ∀ w : Token,
      w.kind = .word .for → StatementOf s (w :: ts) rest n k := by
  refine ((Sound.expect .openFor).bind fun _ => (forInitializer_sound he).bind fun i =>
    (unlessNext_sound (.mark .semicolon) he).bind fun condition =>
      (Sound.expect .endOfCondition).bind fun _ =>
        (unlessNext_sound (.mark .rightParen) he).bind fun increment =>
          (Sound.expect .closeFor).bind fun _ => hi.bind fun b =>
            Sound.pure (forLoop i condition increment b)).mono ?_
  rintro s ts rest n k ⟨o, us, vs, m, rfl, ⟨rfl, rfl, ho⟩, i, us₁, vs₁, m₁, rfl, hi,
    condition, us₂, vs₂, m₂, rfl, hcondition, semicolon, us₃, vs₃, m₃, rfl, ⟨rfl, rfl, hs⟩,
    increment, us₄, vs₄, m₄, rfl, hincrement, c, us₅, vs₅, m₅, rfl, ⟨rfl, rfl, hc⟩,
    b, us₆, vs₆, m₆, rfl, ⟨d, hb, hd⟩, rfl, rfl, rfl⟩ w hw
  refine ⟨d, ?_, hd⟩
  simpa using Derives.forDo hw ho hi hcondition hs hincrement hc hb

theorem statementWith_sound (he : Sound expr (Of Complete (.expr .assignment)))
    (hi : Sound inner StatementOf) (hb : Sound body (Of Complete .declarations)) :
    Sound (statementWith expr inner body) StatementOf := by
  have hblock : Sound (do return Stmt.block (← closedBy body)) fun s ts _ n k => ∃ ss us c,
      s = .block ss ∧ ts = us ++ [c] ∧ c.kind = .mark .rightBrace ∧
        Derives Complete (.declarations ss) us n k [] := by
    refine ((closedBy_sound hb).bind fun ss => Sound.pure (Stmt.block ss)).mono ?_
    rintro s ts rest n k ⟨ss, us, vs, m, rfl, ⟨us, c, rfl, hc, hs⟩, rfl, rfl, rfl⟩
    exact ⟨ss, us, c, rfl, by simp, hc, hs⟩
  have hrest := Sound.accepting (.word .while) (whileStatement_sound he hi)
    (Sound.accepting (.mark .leftBrace) hblock (expressionStatement_sound he))
  have hreturn := Sound.taking (· == .word .return) (fun w => returnStatement_sound (w := w) he) hrest
  rw [← Sound.ifTaking_eq] at hreturn
  refine (Sound.accepting (.word .for) (forStatement_sound he hi) (Sound.accepting (.word .if)
    (ifStatement_sound he hi) (Sound.accepting (.word .print) (printStatement_sound he)
      hreturn))).mono ?_
  rintro s ts rest n k (⟨w, us, rfl, hw, hs⟩ | ⟨-, ⟨w, us, rfl, hw, hs⟩ | ⟨-, ⟨w, us, rfl, hw, hs⟩ |
    ⟨-, ⟨w, us, rfl, hw, hs⟩ | ⟨w, us, rfl, hw, hs⟩ |
      ⟨-, ⟨o, us, rfl, ho, ss, us, c, rfl, rfl, hc, hs⟩ | ⟨-, e, us, c, rfl, rfl, hc, he⟩⟩⟩⟩⟩)
  · exact hs w hw
  · exact hs w hw
  · exact hs w hw
  · exact hs (eq_of_beq hw)
  · exact hs w hw
  · exact ⟨false, .block ho hs hc, nofun⟩
  · exact ⟨false, .expression he hc, nofun⟩

end Statements

section Declarations

variable {inner : Step Stmt} {body : Step (List Stmt)}

/-- What was passed over has been reported. -/
theorem recovering_sound {α : Type} {p : Step α} {L : Language α} (hp : Sound p L) :
    Sound (recovering p) fun o ts rest n k => ∃ a, o = some a ∧ L a ts rest n k where
  ok {c c' o} hc := by
    rw [recovering_apply] at hc
    cases hpc : p c with
    | ok a d =>
      rw [hpc] at hc
      obtain ⟨rfl, rfl⟩ := EStateM.Result.ok.inj hc
      obtain ⟨hb, hl⟩ := hp.ok hpc
      refine ⟨hb, fun hr => ?_⟩
      obtain ⟨ts, hts, ha⟩ := hl hr
      exact ⟨ts, hts, a, rfl, ha⟩
    | error e d =>
      rw [hpc] at hc
      obtain ⟨-, rfl⟩ := EStateM.Result.ok.inj hc
      have hb := hp.error hpc
      refine ⟨⟨?_, hb.2⟩, fun hr => ?_⟩
      · have := hb.1
        simp only [Cursor.passOver_reports, Array.size_push]
        omega
      · have := hb.1
        simp only [Cursor.passOver_reports, Array.size_push] at hr
        omega
  error {c c' d} hc := by
    rw [recovering_apply] at hc
    split at hc <;> cases hc

theorem endsBlock_sound :
    Sound endsBlock fun b ts rest n m => m = n ∧ ts = [] ∧
      b = (rest.head?.any (·.kind == .mark .rightBrace) || rest.isEmpty) where
  ok {c c' b} hc := by
    rw [endsBlock_apply] at hc
    obtain ⟨rfl, rfl⟩ := EStateM.Result.ok.inj hc
    exact ⟨.refl _, fun _ => ⟨[], rfl, rfl, rfl, rfl⟩⟩
  error hc := by simp [endsBlock_apply] at hc

theorem parametersFrom_sound (n count : Nat) :
    Sound (parametersFrom n count) (Of Complete (.parameters count)) := by
  induction n generalizing count with
  | zero =>
    refine ((limit_sound .tooManyParameters count).bind fun _ => (Sound.expect .parameterName).bind
      fun p => Sound.pure [p]).mono ?_
    rintro ps ts rest n k ⟨_, us, vs, m, rfl, ⟨rfl, rfl, hc⟩, p, us', vs', m', rfl, ⟨rfl, rfl, hp⟩,
      rfl, rfl, rfl⟩
    have h : Derives Complete (.parameters count [p]) _ k k _ := .parameter hp
    simpa [Of, beyond_eq_nil hc] using h
  | succ n ih =>
    refine ((limit_sound .tooManyParameters count).bind fun _ =>
      (Sound.expect .parameterName).bind fun p => Sound.accepting (.mark .comma)
        ((ih (count + 1)).bind fun ps => Sound.pure (p :: ps)) (Sound.pure [p])).mono ?_
    rintro ps ts rest m k ⟨_, us, vs, m', rfl, ⟨rfl, rfl, hc⟩, p, us', vs', m'', rfl, ⟨rfl, rfl, hp⟩,
      ⟨c, ws, rfl, hcomma, ps, xs, ys, m₃, rfl, hps, rfl, rfl, rfl⟩ | ⟨-, rfl, rfl, rfl⟩⟩
    · have h : Derives Complete (.parameters count (p :: ps)) _ _ _ _ :=
        .moreParameters hp hcomma hps
      simpa [Of, beyond_eq_nil hc] using h
    · have h : Derives Complete (.parameters count [p]) _ k k _ := .parameter hp
      simpa [Of, beyond_eq_nil hc] using h

theorem routine_sound (r : Routine) (n : Nat) (hb : Sound body (Of Complete .declarations)) :
    Sound (routine r body n) (Of Complete .function) := by
  have hps : Sound (do if ← nextIs (.mark .rightParen) then pure [] else parametersFrom n 0)
      (Of Complete .someParameters) := by
    refine (Sound.ifNext (.mark .rightParen) (Sound.pure []) (parametersFrom_sound n 0)).mono ?_
    rintro ps ts rest n k (⟨rfl, rfl, rfl⟩ | h)
    · exact .noParameter
    · exact .someParameter h
  rw [routine_eq]
  refine ((Sound.expect (.routineName r)).bind fun x => (Sound.expect (.openParameters r)).bind
    fun _ => hps.bind fun ps => (Sound.expect .closeParameters).bind fun _ =>
      (Sound.expect (.openBody r)).bind fun _ => (closedBy_sound hb).bind fun ss =>
        Sound.pure (Function.mk x ps ss)).mono ?_
  rintro f ts rest n k ⟨x, us, vs, m, rfl, ⟨rfl, rfl, hx⟩, o, us₁, vs₁, m₁, rfl, ⟨rfl, rfl, ho⟩,
    ps, us₂, vs₂, m₂, rfl, hps, c, us₃, vs₃, m₃, rfl, ⟨rfl, rfl, hc⟩, b, us₄, vs₄, m₄, rfl,
    ⟨rfl, rfl, hb⟩, ss, us₅, vs₅, m₅, rfl, ⟨us₆, d, rfl, hd, hss⟩, rfl, rfl, rfl⟩
  simpa [Of] using Derives.function hx ho hps hc hb hss hd

theorem methods_sound (n : Nat) (hb : Sound body (Of Complete .declarations)) :
    Sound (methods body n) (Of Complete .functions) := by
  induction n with
  | zero =>
    refine (Sound.pure []).mono ?_
    rintro fs ts rest n k ⟨rfl, rfl, rfl⟩
    exact .noFunction
  | succ n ih =>
    refine (Sound.ifM endsBlock_sound (Sound.pure []) ((routine_sound .method n hb).bind
      fun f => ih.bind fun fs => Sound.pure (f :: fs))).mono ?_
    rintro fs ts rest m k (⟨-, rfl, rfl, rfl⟩ | ⟨-, f, us, vs, j, rfl, hf, fs, us', vs', j', rfl, hfs,
      rfl, rfl, rfl⟩)
    · exact .noFunction
    · simpa [Of] using Derives.moreFunctions hf hfs

theorem superclass_sound : Sound superclass (Of Complete .superclass) := by
  refine (Sound.accepting (.mark .less) ((Sound.expect .superclassName).bind fun x =>
    (Sound.reference x).bind fun r => Sound.pure (some r)) (Sound.pure none)).mono ?_
  rintro o ts rest n k (⟨l, us, rfl, hl, x, us, vs, m, rfl, ⟨rfl, rfl, hx⟩, r, us', vs', m', rfl,
    ⟨rfl, rfl, rfl⟩, rfl, rfl, rfl⟩ | ⟨-, rfl, rfl, rfl⟩)
  · exact .someSuperclass hl hx
  · exact .noSuperclass

theorem classDeclaration_sound (n : Nat) (hb : Sound body (Of Complete .declarations)) :
    Sound (classDeclaration body n) fun s ts _ m k => ∀ w : Token, w.kind = .word .class →
      Derives Complete (.declaration s) (w :: ts) m k [] := by
  refine ((Sound.expect .className).bind fun x => superclass_sound.bind fun r =>
    (Sound.expect .openClass).bind fun _ => (methods_sound n hb).bind fun fs =>
      (Sound.expect .closeClass).bind fun _ => Sound.pure (Stmt.class x r fs)).mono ?_
  rintro s ts rest m k ⟨x, us, vs, j, rfl, ⟨rfl, rfl, hx⟩, r, us₁, vs₁, j₁, rfl, hr,
    o, us₂, vs₂, j₂, rfl, ⟨rfl, rfl, ho⟩, fs, us₃, vs₃, j₃, rfl, hfs, c, us₄, vs₄, j₄, rfl,
    ⟨rfl, rfl, hc⟩, rfl, rfl, rfl⟩ w hw
  simpa using Derives.declaredClass hw hx hr ho hfs hc

theorem declarationWith_sound (n : Nat) (hi : Sound inner StatementOf)
    (hb : Sound body (Of Complete .declarations)) :
    Sound (declarationWith n inner body) fun o ts _ m k => ∃ s, o = some s ∧
      Derives Complete (.declaration s) ts m k [] := by
  refine recovering_sound ((Sound.accepting (.word .class) (classDeclaration_sound n hb)
    (Sound.accepting (.word .fun) ((routine_sound .function n hb).map Stmt.function)
      (Sound.accepting (.word .var) (varDeclaration_sound (expression_sound n))
        (statementWith_sound (expression_sound n) hi hb)))).mono ?_)
  rintro s ts rest m k (⟨w, us, rfl, hw, hs⟩ | ⟨-, ⟨w, us, rfl, hw, f, rfl, hf⟩ |
    ⟨-, ⟨w, us, rfl, hw, hs⟩ | ⟨-, d, hs, -⟩⟩⟩)
  · exact hs w hw
  · exact .declaredFunction hw hf
  · exact .declaredVariable (hs w hw)
  · exact .declaredStatement hs

theorem statement_sound_declarations_sound (n : Nat) :
    Sound (statement n) StatementOf ∧ Sound (declarations n) (Of Complete .declarations) := by
  induction n with
  | zero =>
    refine ⟨Sound.fail _ _, (Sound.pure []).mono ?_⟩
    rintro ss ts rest m k ⟨rfl, rfl, rfl⟩
    exact .noDeclaration
  | succ n ih =>
    refine ⟨statementWith_sound (expression_sound (n + 1)) ih.1 ih.2, ?_⟩
    refine (Sound.ifM endsBlock_sound (Sound.pure []) ((declarationWith_sound (n + 1) ih.1
      ih.2).bind fun s => ih.2.bind fun ss => Sound.pure (s.toList ++ ss))).mono ?_
    rintro ss ts rest m k (⟨-, rfl, rfl, rfl⟩ | ⟨-, _, us, vs, j, rfl, ⟨s, rfl, hs⟩, ss, us', vs', j',
      rfl, hss, rfl, rfl, rfl⟩)
    · exact .noDeclaration
    · simpa [Of] using Derives.moreDeclarations hs hss

/-- With a bound that suffices, the declarations of a program end with its tokens. -/
theorem topLevel_sound (n : Nat) :
    Sound (topLevel n) fun ss ts rest m k => Derives Complete (.declarations ss) ts m k [] ∧
      ((ts ++ rest).length ≤ n → rest = []) := by
  induction n with
  | zero =>
    refine (Sound.pure []).mono ?_
    rintro ss ts rest m k ⟨rfl, rfl, rfl⟩
    exact ⟨.noDeclaration, by simp⟩
  | succ n ih =>
    obtain ⟨hi, hb⟩ := statement_sound_declarations_sound n
    refine (Sound.ifM Sound.atEnd (Sound.pure []) ((declarationWith_sound (n + 1) hi hb).bind
      fun s => ih.bind fun ss => Sound.pure (s.toList ++ ss))).mono ?_
    rintro ss ts rest m k (⟨hend, rfl, rfl, rfl⟩ | ⟨-, _, us, vs, j, rfl, ⟨s, rfl, hs⟩, ss, us', vs', j',
      rfl, ⟨hss, hend⟩, rfl, rfl, rfl⟩)
    · exact ⟨.noDeclaration, fun _ => by simpa using hend.symm⟩
    · obtain ⟨t, vs, rfl, -⟩ := hs.starts rfl
      refine ⟨by simpa using Derives.moreDeclarations hs hss, fun h => hend ?_⟩
      simp only [List.length_append, List.length_cons] at h ⊢
      omega

theorem wholeExpression_sound (n : Nat) :
    Sound (wholeExpression n) fun e ts rest m k =>
      Derives Complete (.expr .assignment e) ts m k [] ∧ rest = [] := by
  have he : Sound (expression n) (Of Complete (.expr .assignment)) := expression_sound n
  refine (he.bind fun e => Sound.ifM Sound.atEnd (Sound.pure e)
    (Sound.fail .leftover fun _ _ _ _ _ => False)).mono ?_
  rintro e ts rest m k ⟨_, us, vs, j, rfl, he, ⟨hend, rfl, rfl, rfl⟩ | ⟨-, h⟩⟩
  · exact ⟨by simpa [Of] using he, by simpa using hend.symm⟩
  · exact h.elim

end Declarations

end Lox.Grammar
