import Lox.Proofs.Grammar.Shape
import Lox.Proofs.Grammar.Step

/-!
# Expressions read derive from the grammar

If a step yields an expression and reports nothing, the tokens it consumed derive that
expression. The proofs follow the steps from the primary expressions up; each level is
sound if the reader of nested expressions, which it is built from, is.
-/

set_option autoImplicit false

namespace Lox.Grammar

/-- The tokens consumed derive the phrase of the value without a violation. -/
def Of {α : Type} (before : Bool → Prop) (phrase : α → Phrase) : Language α :=
  fun a ts _ n k => Derives before (phrase a) ts n k []

section Expressions

variable {before : Bool → Prop} {inner : Step Expr}

theorem superAccess_sound {t : Token} (ht : t.kind = .word .super) :
    Sound (superAccess t) fun e ts _ n k => Derives before (.expr .primary e) (t :: ts) n k [] := by
  refine ((Sound.expect .dotAfterSuper).bind fun _ => (Sound.expect .superMethodName).bind
    fun x => (Sound.reference t).bind fun r => Sound.pure (Expr.super r x)).mono ?_
  rintro e ts rest n k ⟨dot, us, vs, m, rfl, ⟨rfl, rfl, hd⟩, x, us', vs', m', rfl, ⟨rfl, rfl, hx⟩,
    r, us'', vs'', m'', rfl, ⟨rfl, rfl, rfl⟩, rfl, rfl, rfl⟩
  exact .super ht hd hx

theorem group_sound {t : Token} (ht : t.kind = .mark .leftParen)
    (hi : Sound inner (Of before (.expr .assignment))) :
    Sound (group inner) fun e ts _ n k => Derives before (.expr .primary e) (t :: ts) n k [] := by
  refine (hi.bind fun e => (Sound.expect .closeGroup).bind
    fun _ => Sound.pure (Expr.grouping e)).mono ?_
  rintro e ts rest n k ⟨e, us, vs, m, rfl, he, c, us', vs', m', rfl, ⟨rfl, rfl, hc⟩, rfl, rfl, rfl⟩
  simpa using Derives.grouping ht he hc

theorem primaryOf_sound (hi : Sound inner (Of before (.expr .assignment))) {t : Token}
    {p : Step Expr} (hp : primaryOf inner t = some p) :
    Sound p fun e ts _ n k => Derives before (.expr .primary e) (t :: ts) n k [] := by
  have hliteral : ∀ v, literal? t.kind = some v →
      Sound (return .literal v) fun e ts _ n k =>
        Derives before (.expr .primary e) (t :: ts) n k [] := by
    refine fun v hv => (Sound.pure (Expr.literal v)).mono ?_
    rintro e ts rest n k ⟨rfl, rfl, rfl⟩
    exact .literal hv
  unfold primaryOf at hp
  split at hp <;> cases hp
  case h_1 hk => exact hliteral _ (by rw [hk]; rfl)
  case h_2 hk => exact hliteral _ (by rw [hk]; rfl)
  case h_3 hk => exact hliteral _ (by rw [hk]; rfl)
  case h_4 hk => exact hliteral _ (by rw [hk]; rfl)
  case h_5 hk => exact hliteral _ (by rw [hk]; rfl)
  case h_6 hk => exact superAccess_sound hk
  case h_7 hk =>
    refine ((Sound.reference t).bind fun r => Sound.pure (Expr.this r)).mono ?_
    rintro e ts rest n k ⟨r, us, vs, m, rfl, ⟨rfl, rfl, rfl⟩, rfl, rfl, rfl⟩
    exact .this hk
  case h_8 hk =>
    refine ((Sound.reference t).bind fun r => Sound.pure (Expr.var r)).mono ?_
    rintro e ts rest n k ⟨r, us, vs, m, rfl, ⟨rfl, rfl, rfl⟩, rfl, rfl, rfl⟩
    exact .var hk
  case h_9 hk => exact group_sound hk hi

theorem primary_sound (hi : Sound inner (Of before (.expr .assignment))) :
    Sound (primary inner) (Of before (.expr .primary)) where
  ok {c c' e} hc := by
    unfold primary at hc
    split at hc
    · exact absurd hc (by simp [fail])
    · rename_i t ts hts
      split at hc
      · rename_i p hp
        obtain ⟨hb, hl⟩ := (primaryOf_sound hi hp).ok hc
        refine ⟨hb, fun hr => ?_⟩
        obtain ⟨us, hus, he⟩ := hl hr
        exact ⟨t :: us, by simpa [hts] using hus, he⟩
      · exact absurd hc (by simp [fail])
  error {c c' d} hc := by
    unfold primary at hc
    split at hc
    · exact (Sound.fail (α := Expr) .noExpression (fun _ _ _ _ _ => True)).error hc
    · split at hc
      · rename_i p hp
        have hb := (primaryOf_sound hi hp).error hc
        exact hb
      · exact (Sound.fail (α := Expr) .noExpression (fun _ _ _ _ _ => True)).error hc

theorem limit_sound (cause : ParseCause) (count : Nat) :
    Sound (limit cause count) fun _ ts _ n k => ts = [] ∧ k = n ∧ count < maxArity := by
  unfold limit
  split
  · exact Sound.report (fun c => fault cause c.peek) (fun _ => ()) _
  · refine (Sound.pure ()).mono ?_
    rintro _ ts rest n k ⟨-, rfl, rfl⟩
    exact ⟨rfl, rfl, by omega⟩

theorem argumentsFrom_sound (hi : Sound inner (Of before (.expr .assignment))) (n count : Nat) :
    Sound (argumentsFrom inner n count) (Of before (.arguments count)) := by
  induction n generalizing count with
  | zero =>
    refine ((limit_sound .tooManyArguments count).bind fun _ => hi.bind
      fun e => Sound.pure [e]).mono ?_
    rintro es ts rest n k ⟨_, us, vs, m, rfl, ⟨rfl, rfl, hc⟩, e, us', vs', m', rfl, he, rfl, rfl, rfl⟩
    have h : Derives before (.arguments count [e]) _ _ _ _ := .argument he
    simpa [Of, beyond_eq_nil hc] using h
  | succ n ih =>
    refine ((limit_sound .tooManyArguments count).bind fun _ => hi.bind fun e =>
      Sound.accepting (.mark .comma) ((ih (count + 1)).bind fun args => Sound.pure (e :: args))
        (Sound.pure [e])).mono ?_
    rintro es ts rest m k ⟨_, us, vs, m', rfl, ⟨rfl, rfl, hc⟩, e, us', vs', m'', rfl, he,
      ⟨c, ws, rfl, hcomma, args, xs, ys, m₃, rfl, ha, rfl, rfl, rfl⟩ | ⟨-, rfl, rfl, rfl⟩⟩
    · have h : Derives before (.arguments count (e :: args)) _ _ _ _ := .moreArguments he hcomma ha
      simpa [Of, beyond_eq_nil hc] using h
    · have h : Derives before (.arguments count [e]) _ _ _ _ := .argument he
      simpa [Of, beyond_eq_nil hc] using h

theorem callArguments_sound (hi : Sound inner (Of before (.expr .assignment))) (n : Nat) :
    Sound (callArguments inner n) fun a ts _ m k => ∃ us c, ts = us ++ [c] ∧ a.2 = c ∧
      c.kind = .mark .rightParen ∧ ((a.1 = [] ∧ us = [] ∧ k = m) ∨
        Derives before (.arguments 0 a.1) us m k []) := by
  rw [callArguments_eq]
  refine ((Sound.ifNext (.mark .rightParen) (Sound.pure []) (argumentsFrom_sound hi n 0)).bind
    fun args => (Sound.expect .closeArguments).bind fun c => Sound.pure (args, c)).mono ?_
  rintro a ts rest m k ⟨args, us, vs, m', rfl, ha, c, us', vs', m'', rfl, ⟨rfl, rfl, hc⟩,
    rfl, rfl, rfl⟩
  refine ⟨us, c, rfl, rfl, hc, ?_⟩
  rcases ha with ⟨rfl, rfl, rfl⟩ | ha
  · exact .inl ⟨rfl, rfl, rfl⟩
  · exact .inr ha

theorem suffixes_sound (hi : Sound inner (Of before (.expr .assignment))) (n : Nat) (e : Expr) :
    Sound (suffixes inner n e) (Of before (.suffixes e)) := by
  induction n generalizing e with
  | zero =>
    refine (Sound.pure e).mono ?_
    rintro e' ts rest m k ⟨rfl, rfl, rfl⟩
    exact .noSuffix
  | succ n ih =>
    refine (Sound.accepting (.mark .leftParen)
      ((callArguments_sound hi n).bind fun a => ih (.call e a.2 a.1))
      (Sound.accepting (.mark .dot)
        ((Sound.expect .propertyName).bind fun x => ih (.get e x)) (Sound.pure e))).mono ?_
    rintro e' ts rest m k (⟨o, us, rfl, ho, ⟨args, c⟩, vs, ws, m', rfl, ⟨vs', c', rfl, rfl, hc, ha⟩, hs⟩ |
      ⟨-, ⟨dot, us, rfl, hd, x, vs, ws, m', rfl, ⟨rfl, rfl, hx⟩, hs⟩ | ⟨-, rfl, rfl, rfl⟩⟩)
    · rcases ha with ⟨rfl, rfl, rfl⟩ | ha
      · exact .emptyCall ho hc hs
      · simpa [Of] using Derives.argumentCall ho ha hc hs
    · exact .property hd hx hs
    · exact .noSuffix

theorem call_sound (hi : Sound inner (Of before (.expr .assignment))) (n : Nat) :
    Sound (call inner n) (Of before (.expr .call)) := by
  refine ((primary_sound hi).bind fun e => suffixes_sound hi n e).mono ?_
  rintro e ts rest m k ⟨p, us, vs, m', rfl, hp, hs⟩
  exact .call hp hs

theorem Derives.operators {ops ts : List Token} {e : Expr} {n k : Nat} {ds : List Diagnostic}
    (ho : ∀ op ∈ ops, isUnaryOperator op.kind) (he : Derives before (.expr .call e) ts n k ds) :
    Derives before (.expr .unary (ops.foldr Expr.unary e)) (ops ++ ts) n k ds := by
  induction ops with
  | nil => exact .noOperator he
  | cons op ops ih =>
    exact .operator (ho op List.mem_cons_self) (ih fun o h => ho o (List.mem_cons_of_mem _ h))

theorem unaryOperators_sound (n : Nat) :
    Sound (unaryOperators n) fun ops ts _ m k =>
      k = m ∧ ts = ops ∧ ∀ op ∈ ops, isUnaryOperator op.kind := by
  induction n with
  | zero =>
    refine (Sound.pure []).mono ?_
    rintro ops ts rest m k ⟨rfl, rfl, rfl⟩
    exact ⟨rfl, rfl, by simp⟩
  | succ n ih =>
    refine (Sound.taking isUnaryOperator (fun op => ih.bind fun ops => Sound.pure (op :: ops))
      (Sound.pure [])).mono ?_
    rintro ops ts rest m k (⟨op, us, rfl, hop, ops, vs, ws, m', rfl, ⟨rfl, rfl, ho⟩, rfl, rfl, rfl⟩ |
      ⟨rfl, rfl, rfl⟩)
    · exact ⟨rfl, by simp, by simpa using ⟨hop, ho⟩⟩
    · exact ⟨rfl, rfl, by simp⟩

theorem unary_sound (hi : Sound inner (Of before (.expr .assignment))) (n : Nat) :
    Sound (unary inner n) (Of before (.expr .unary)) := by
  refine ((unaryOperators_sound n).bind fun ops => (call_sound hi n).bind
    fun e => Sound.pure (ops.foldr Expr.unary e)).mono ?_
  rintro e ts rest m k ⟨ops, us, vs, m', rfl, ⟨rfl, rfl, ho⟩, e, us', vs', m'', rfl, he,
    rfl, rfl, rfl⟩
  simpa [Of] using Derives.operators ho he

section Chains

variable {c : Chain} {operand : Step Expr}

theorem leftChain_sound (hr : Sound operand (Of before (.expr c.operand))) (n : Nat) (e : Expr) :
    Sound (leftChain c.operator c.join operand n e) (Of before (.operands c e)) := by
  induction n generalizing e with
  | zero =>
    refine (Sound.pure e).mono ?_
    rintro e' ts rest m k ⟨rfl, rfl, rfl⟩
    exact .noOperand
  | succ n ih =>
    refine (Sound.taking c.operator (fun op => hr.bind fun r => ih (c.join e op r))
      (Sound.pure e)).mono ?_
    rintro e' ts rest m k (⟨op, us, rfl, hop, r, vs, ws, m', rfl, hr, hs⟩ | ⟨rfl, rfl, rfl⟩)
    · exact .operand hop hr hs
    · exact .noOperand

theorem level_sound (hr : Sound operand (Of before (.expr c.operand))) (n : Nat) :
    Sound (level c.operator c.join operand n) (Of before (.expr (.chain c))) := by
  refine (hr.bind fun e => leftChain_sound hr n e).mono ?_
  rintro e ts rest m k ⟨l, us, vs, m', rfl, hl, hs⟩
  exact .chain hl hs

end Chains

theorem logicOr_sound (hi : Sound inner (Of before (.expr .assignment))) (n : Nat) :
    Sound (logicOr inner n) (Of before (.expr (.chain .or))) := by
  have hfactor : Sound (factor inner n) (Of before (.expr (.chain .factor))) :=
    level_sound (c := .factor) (unary_sound hi n) n
  have hterm : Sound (term inner n) (Of before (.expr (.chain .term))) :=
    level_sound (c := .term) hfactor n
  have hcomparison : Sound (comparison inner n) (Of before (.expr (.chain .comparison))) :=
    level_sound (c := .comparison) hterm n
  have hequality : Sound (equality inner n) (Of before (.expr (.chain .equality))) :=
    level_sound (c := .equality) hcomparison n
  have hand : Sound (logicAnd inner n) (Of before (.expr (.chain .and))) :=
    level_sound (c := .and) hequality n
  exact level_sound (c := .or) hand n

theorem assignTo_sound (before : Bool → Prop) (target v : Expr) (q : Token) :
    Sound (assignTo target q v) fun e ts _ j k => ts = [] ∧ ∀ us vs n m,
      Derives before (.expr (.chain .or) target) us n m [] → q.kind = .mark .equal →
        Derives before (.expr .assignment v) vs m j [] →
          Derives before (.expr .assignment e) (us ++ q :: vs) n k [] := by
  unfold assignTo
  split
  case h_1 ref =>
    refine ((Sound.reference ref.name).bind fun r => Sound.pure (Expr.assign r v)).mono ?_
    rintro e ts rest j k ⟨r, us, vs, m', rfl, ⟨rfl, rfl, rfl⟩, rfl, rfl, rfl⟩
    refine ⟨rfl, fun us vs n m ht hq hv => ?_⟩
    obtain ⟨x, rfl, hx, rfl, rfl, -⟩ := (ht.call_of_or rfl).var_inv
    exact .assignVar hx hq hv
  case h_2 o x =>
    refine (Sound.pure (Expr.set o x v)).mono ?_
    rintro e ts rest j k ⟨rfl, rfl, rfl⟩
    refine ⟨rfl, fun us vs n m ht hq hv => ?_⟩
    obtain ⟨us, dot, rfl, hd, hx, ho⟩ := (ht.call_of_or rfl).get_inv
    simpa using Derives.assignProperty ho hd hx hq hv
  case h_3 =>
    have hr : Sound (report (fault .invalidTarget q)) fun _ _ _ _ _ => False :=
      Sound.report (fun _ => fault .invalidTarget q) (fun _ => ()) _
    refine (hr.bind fun _ => Sound.pure target).mono ?_
    rintro e ts rest j k ⟨_, _, _, _, _, h, _⟩
    exact h.elim

theorem assignment_sound (hi : Sound inner (Of before (.expr .assignment))) (n : Nat) :
    Sound (assignment inner n) (Of before (.expr .assignment)) := by
  refine ((logicOr_sound hi n).bind fun target => Sound.taking (· == .mark .equal)
    (fun q => hi.bind fun v => assignTo_sound before target v q) (Sound.pure target)).mono ?_
  rintro e ts rest m k ⟨target, us, vs, j, rfl, ht,
    ⟨q, us', rfl, hq, v, vs, ws, j', rfl, hv, rfl, ha⟩ | ⟨rfl, rfl, rfl⟩⟩
  · simpa [Of] using ha us vs m j ht (eq_of_beq hq) hv
  · simpa [Of] using Derives.noAssignment ht

/-- Every expression read derives from the grammar. -/
theorem expression_sound (n : Nat) :
    Sound (expression n) (Of before (.expr .assignment)) := by
  induction n with
  | zero => exact Sound.fail _ _
  | succ n ih => exact assignment_sound ih (n + 1)

end Expressions

end Lox.Grammar
