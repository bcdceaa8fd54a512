import Lox.Proofs.Grammar.Prompt
import Lox.Proofs.Grammar.Shape

/-!
# Every production fails promptly

Each step of the reader is prompt for what the grammar has for it: from the names and marks
of a primary expression up to whole programs.
-/

set_option autoImplicit false

namespace Lox.Grammar

section Empty

variable {c : Cursor} (hc : c.rest = [])

include hc

theorem accept_nil (k : Kind) : accept k c = .ok false c := by
  obtain ⟨rest, finish, n, reports⟩ := c
  obtain rfl : rest = [] := hc
  exact accept_no nofun

theorem ifAccept_nil {α : Type} {p q : Step α} (k : Kind) :
    (do if ← accept k then p else q : Step α) c = q c := by
  rw [bind_apply, accept_nil hc]
  rfl

theorem acceptIf_nil {α : Type} {s : Kind → Bool} {u : Option Token → Step α} :
    (acceptIf s >>= u) c = u none c :=
  acceptIf_none (by rw [hc]; exact nofun) u

theorem suffixes_nil (inner : Step Expr) (n : Nat) (e : Expr) : suffixes inner n e c = .ok e c := by
  cases n with
  | zero => rfl
  | succ n => exact (ifAccept_nil hc _).trans (ifAccept_nil hc _)

theorem unaryOperators_nil (n : Nat) : unaryOperators n c = .ok [] c := by
  cases n with
  | zero => rfl
  | succ n => exact acceptIf_nil hc

theorem leftChain_nil (s : Kind → Bool) (join : Expr → Token → Expr → Expr) (p : Step Expr) (n : Nat)
    (e : Expr) : leftChain s join p n e c = .ok e c := by
  cases n with
  | zero => rfl
  | succ n => exact acceptIf_nil hc

theorem expression_nil (n : Nat) : expression n c = fail .noExpression c := by
  cases n with
  | zero => rfl
  | succ n =>
    have hprimary : primary (expression n) c = fail .noExpression c := by
      unfold primary
      rw [hc]
    have hunary : unary (expression n) (n + 1) c = fail .noExpression c := by
      rw [unary, bind_apply, unaryOperators_nil hc]
      dsimp only
      rw [bind_apply, call, bind_apply, hprimary]
      rfl
    have hlevel {s : Kind → Bool} {join : Expr → Token → Expr → Expr} {p : Step Expr}
        (hp : p c = fail .noExpression c) : level s join p (n + 1) c = fail .noExpression c := by
      rw [level, bind_apply, hp]
      rfl
    have hor : logicOr (expression n) (n + 1) c = fail .noExpression c :=
      hlevel (hlevel (hlevel (hlevel (hlevel (hlevel hunary)))))
    rw [expression, assignment, bind_apply, hor]
    rfl

theorem statement_nil (n : Nat) : statement n c = fail .noExpression c := by
  cases n with
  | zero => rfl
  | succ n =>
    rw [statement, statementWith, ifAccept_nil hc, ifAccept_nil hc, ifAccept_nil hc]
    apply (acceptIf_nil hc).trans
    show (do if ← accept (.word .while) then _ else _ : Step Stmt) c = _
    rw [ifAccept_nil hc, ifAccept_nil hc, expressionStatement, bind_apply, expression_nil hc]
    rfl

theorem declarations_nil (n : Nat) : declarations n c = .ok [] c := by
  cases n with
  | zero => rfl
  | succ n =>
    rw [declarations, bind_apply, endsBlock_apply, hc]
    rfl

theorem topLevel_nil (n : Nat) : topLevel n c = .ok [] c := by
  cases n with
  | zero => rfl
  | succ n =>
    rw [topLevel, bind_apply, atEnd_eq, hc]
    rfl

theorem methods_nil (body : Step (List Stmt)) (n : Nat) : methods body n c = .ok [] c := by
  cases n with
  | zero => rfl
  | succ n =>
    rw [methods, bind_apply, endsBlock_apply, hc]
    rfl

end Empty

theorem primaryOf_isSome (inner : Step Expr) (t : Token) :
    (primaryOf inner t).isSome = startsPrimary t.kind := by
  unfold primaryOf
  cases t.kind with
  | word w => cases w <;> rfl
  | mark m => cases m <;> rfl
  | _ => rfl

/-- The token that begins a primary expression is consumed, no other is. -/
theorem primary_eq (inner : Step Expr) : primary inner = (do
    match ← acceptIf startsPrimary with
    | some t => (primaryOf inner t).getD (fail .noExpression)
    | none => fail .noExpression) := by
  funext c
  rcases next_cases startsPrimary c with hc | ⟨t, ts, hrest, ht⟩
  · rw [acceptIf_none hc]
    unfold primary
    cases hrest : c.rest with
    | nil => rfl
    | cons t ts =>
      have ht : startsPrimary t.kind = false := hc t (by rw [hrest]; rfl)
      rw [← primaryOf_isSome inner, Option.isSome_eq_false_iff, Option.isNone_iff_eq_none] at ht
      simp only [ht]
  · rw [acceptIf_some hrest ht]
    unfold primary
    rw [hrest]
    rw [← primaryOf_isSome inner] at ht
    obtain ⟨p, hp⟩ := Option.isSome_iff_exists.1 ht
    simp only [hp]
    rfl

namespace Prompt

variable {s n m j : Nat}

theorem ending {α β : Type} {k : Nat} {e : Ebnf} {p p' : Step α} (hp : Prompt s k n e p p')
    (f : α → β) : Prompt s k n e (do return f (← p)) (do return f (← p')) := by
  have h := hp.andThen (k := 0) fun x => pure s _ (f x)
  exact h.mono fun _ => matches_seq_empty.1

/-- There need not be any. -/
theorem noMore {α : Type} (s n : Nat) (e : Ebnf) (x : α) :
    Prompt s 0 n (.star e) (Pure.pure x : Step α) (Pure.pure x) :=
  (pure s n x).mono fun ts hts => by
    cases hts
    exact .done

section Lists

variable {α : Type}

/-- Items with commas between them, each of them checked against the limit. -/
structure Lists (cause : ParseCause) (item : Step α) (list : Nat → Nat → Step (List α)) : Prop where
  last (count : Nat) : list 0 count = (do
    Grammar.limit cause count
    return [← item])
  more (n count : Nat) : list (n + 1) count = (do
    Grammar.limit cause count
    let x ← item
    if ← accept (.mark .comma) then return x :: (← list n (count + 1)) else return [x])

theorem lists_arguments (inner : Step Expr) :
    Lists .tooManyArguments inner (Grammar.argumentsFrom inner) :=
  ⟨fun _ => rfl, fun _ _ => rfl⟩

theorem lists_parameters :
    Lists .tooManyParameters (Grammar.expect .parameterName) Grammar.parametersFrom :=
  ⟨fun _ => rfl, fun _ _ => rfl⟩

theorem list {cause : ParseCause} {x : Ebnf} {item item' : Step α}
    {list list' : Nat → Nat → Step (List α)} (hcause : cause.unwinds = false)
    (hlist : Lists cause item list) (hlist' : Lists cause item' list')
    (hitem : Prompt s 0 n x item item') (hgrows : ∀ n count, Grows (list' n count)) (hj : j ≤ n)
    (count : Nat) : Prompt s 0 j (.listOf x) (list j count) (list' (j + s) count) := by
  induction j generalizing count with
  | zero =>
    have hlast : Prompt s 0 0 (.seq .empty (.seq x .empty)) (list 0 count) (list' (0 + s) count) := by
      rw [Nat.zero_add, hlist.last]
      cases s with
      | zero =>
        rw [hlist'.last]
        exact (limit 0 0 hcause count).bind fun _ => (hitem.within hj).bind fun y => pure 0 0 [y]
      | succ s =>
        rw [hlist'.more]
        apply (limit (s + 1) 0 hcause count).bind
        intro _
        apply (hitem.within hj).bind
        intro y
        apply (pure (s + 1) 0 [y]).atZero
        · exact .accepting _ ((hgrows s _).bind fun _ => .pure _) (.pure _)
        · exact fun c hc => ifAccept_nil hc _
    exact hlast.mono fun ts hts => (matches_empty_seq.1 hts).seq_mono fun us hus => by
      cases hus
      exact .seq .done .empty
  | succ j ih =>
    rw [Nat.add_right_comm, hlist.more, hlist'.more]
    have htail (y : α) := accepting (j := .mark .comma)
      (e := .optional (.seq (.mark .comma) (.listOf x))) ((ih (Nat.le_of_succ_le hj) (count + 1)).ending
        (y :: ·)) (pure s (j + 1) [y]) (fun t ts ht hts => .left (.behind ht hts))
        fun ts hts => .right hts
    exact ((limit s _ hcause count).bind fun _ => (hitem.within hj).bind htail).mono fun ts hts =>
      (matches_empty_seq.1 hts).listOf

end Lists

section Expressions

theorem superAccess (s n : Nat) (t : Token) : Prompt s 0 n (.all [.mark .dot, .name])
    (Grammar.superAccess t) (Grammar.superAccess t) := by
  apply (expect s n .dotAfterSuper).lax.bind
  intro _
  apply (expect s n .superMethodName).lax.bind
  intro method
  exact (reference s n t).ending (Expr.super · method)

variable {inner inner' : Step Expr} (hinner : Prompt s 0 n .expression inner inner')

include hinner

theorem group (hm : m ≤ n) : Prompt s 0 m (.all [.expression, .mark .rightParen])
    (Grammar.group inner) (Grammar.group inner') := by
  apply (hinner.within hm).bind
  intro e
  apply (expect s m .closeGroup).lax.bind
  intro _
  exact pure s m _

/-- What may stand behind the token that begins a primary expression. -/
theorem primaryOf (hm : m ≤ n) {t : Token} (ht : startsPrimary t.kind = true) :
    ∃ e p p', Grammar.primaryOf inner t = some p ∧ Grammar.primaryOf inner' t = some p' ∧
      Prompt s 0 m e p p' ∧
      ∀ ts, Matches e ts → Matches (.nonterminal (.level .primary)) (t :: ts) := by
  have hsingle {e : Ebnf} (he : Matches e [t])
      (hmem : e ∈ [.terminal .number, .terminal .string, .word .true, .word .false, .word .nil,
        .word .this, .name, .all [.mark .leftParen, .expression, .mark .rightParen],
        .all [.word .super, .mark .dot, .name]]) (ts : List Token) (hts : Matches .empty ts) :
      Matches (.nonterminal (.level .primary)) (t :: ts) := by
    cases hts
    exact .nonterminal (.oneOf hmem he)
  unfold Grammar.primaryOf
  cases hk : t.kind with
  | number x =>
    have he : Matches (.terminal .number) [t] := .terminal (by rw [hk]; rfl)
    exact ⟨_, _, _, rfl, rfl, pure s m _, hsingle he (by simp)⟩
  | string x =>
    have he : Matches (.terminal .string) [t] := .terminal (by rw [hk]; rfl)
    exact ⟨_, _, _, rfl, rfl, pure s m _, hsingle he (by simp)⟩
  | identifier =>
    exact ⟨_, _, _, rfl, rfl, (reference s m t).ending Expr.var, hsingle (.kind hk) (by simp [Ebnf.name])⟩
  | word w =>
    rw [hk] at ht
    cases w with
    | «true» | «false» | nil =>
      exact ⟨_, _, _, rfl, rfl, pure s m _, hsingle (.kind hk) (by simp [Ebnf.word])⟩
    | this =>
      exact ⟨_, _, _, rfl, rfl, (reference s m t).ending Expr.this,
        hsingle (.kind hk) (by simp [Ebnf.word])⟩
    | super =>
      refine ⟨_, _, _, rfl, rfl, superAccess s m t, fun ts hts => ?_⟩
      exact .nonterminal (.oneOf (e := .all [.word .super, .mark .dot, .name]) (by simp)
        (.behind hk hts))
    | _ => cases ht
  | mark a =>
    rw [hk] at ht
    cases a with
    | leftParen =>
      refine ⟨_, _, _, rfl, rfl, group hinner hm, fun ts hts => ?_⟩
      exact .nonterminal (.oneOf
        (e := .all [.mark .leftParen, .expression, .mark .rightParen]) (by simp) (.behind hk hts))
    | _ => cases ht
  | finish =>
    rw [hk] at ht
    cases ht

theorem primary (hm : m ≤ n + 1) : Prompt s 0 m (.nonterminal (.level .primary))
    (Grammar.primary inner) (Grammar.primary inner') := by
  rw [primary_eq, primary_eq]
  apply taking
  · intro t ht
    obtain ⟨e, p, p', hp, hp', h, he⟩ := primaryOf hinner (m := m - 1) (by omega) ht
    refine ⟨e, ?_, he⟩
    simp only [hp, hp', Option.getD_some]
    exact h
  · exact fail s 0 m _ rfl

theorem argumentsFrom (hj : j ≤ n) (count : Nat) : Prompt s 0 j (.listOf .expression)
    (Grammar.argumentsFrom inner j count) (Grammar.argumentsFrom inner' (j + s) count) :=
  list rfl (lists_arguments inner) (lists_arguments inner') hinner
    (Grows.argumentsFrom hinner.grows') hj count

theorem callArguments (hj : j ≤ n) :
    Prompt s 0 j (.all [.optional (.nonterminal .arguments), .mark .rightParen])
      (Grammar.callArguments inner j) (Grammar.callArguments inner' (j + s)) := by
  rw [callArguments_eq, callArguments_eq]
  have hnone := (pure s j ([] : List Expr)).mono (b := .optional (.nonterminal .arguments))
    fun ts hts => .right hts
  have hsome := (argumentsFrom hinner hj 0).mono (b := .optional (.nonterminal .arguments))
    fun ts hts => .left (.nonterminal hts)
  apply (ifNext _ hnone hsome).bind
  intro args
  apply (expect s j .closeArguments).lax.bind
  intro c
  exact pure s j _

/-- What may be repeated behind a primary expression. -/
def suffix : Ebnf := .oneOf [.all [.mark .leftParen, .optional (.nonterminal .arguments),
  .mark .rightParen], .all [.mark .dot, .name]]

theorem suffixes (hj : j ≤ n + 1) (e : Expr) : Prompt s 0 j (.star suffix)
    (Grammar.suffixes inner j e) (Grammar.suffixes inner' (j + s) e) := by
  induction j generalizing e with
  | zero =>
    exact (noMore s 0 suffix e).atZero (.suffixes hinner.grows' _ e) fun c hc =>
      suffixes_nil hc inner' _ e
  | succ j ih =>
    have hj' : j ≤ n := Nat.le_of_succ_le_succ hj
    have hrest (e : Expr) := ih (Nat.le_succ_of_le hj') e
    rw [Nat.add_right_comm]
    apply accepting (e := .star suffix)
    · apply (callArguments hinner hj').bind
      rintro ⟨args, paren⟩
      exact hrest (.call e paren args)
    · apply accepting (e := .star suffix)
      · apply (expect s _ .propertyName).lax.bind
        intro name
        exact hrest (.get e name)
      · exact noMore s _ suffix e
      · intro t ts ht hts
        obtain ⟨us, vs, rfl, hx, hs⟩ := matches_seq.1 hts
        exact .more (.right (.behind ht (matches_seq_empty.2 hx))) hs
      · exact fun ts hts => hts
    · intro t ts ht hts
      obtain ⟨us, vs, rfl, hc, hs⟩ := matches_seq.1 hts
      exact .more (.left (.behind ht hc)) hs
    · exact fun ts hts => hts

theorem call (hm : m ≤ n + 1) : Prompt s 0 m (.nonterminal (.level .call))
    (Grammar.call inner m) (Grammar.call inner' (m + s)) := by
  have h := (primary hinner hm).bind fun e => suffixes hinner hm e
  exact h.mono fun ts hts => .nonterminal (hts.seq_mono fun us hus => matches_seq_empty.2 hus)

omit hinner in
theorem unaryOperators (s j : Nat) : Prompt s 0 j (.star (.oneOf [.mark .bang, .mark .minus]))
    (Grammar.unaryOperators j) (Grammar.unaryOperators (j + s)) := by
  induction j with
  | zero =>
    exact (noMore s 0 _ []).atZero (.unaryOperators _) fun c hc => unaryOperators_nil hc _
  | succ j ih =>
    rw [Nat.add_right_comm]
    apply taking
    · intro op hop
      have hop : Matches (.oneOf [.mark .bang, .mark .minus]) [op] := by
        rcases Bool.or_eq_true_iff.1 hop with h | h
        · exact .left (.kind (beq_iff_eq.1 h))
        · exact .right (.kind (beq_iff_eq.1 h))
      exact ⟨_, ih.ending (op :: ·), fun ts hts => .more hop hts⟩
    · exact noMore s _ _ []

omit hinner in
theorem matches_unary {ts us : List Token}
    (hops : Matches (.star (.oneOf [.mark .bang, .mark .minus])) ts)
    (hcall : Matches (.nonterminal (.level .call)) us) :
    Matches (.nonterminal (.level .unary)) (ts ++ us) := by
  generalize he : Ebnf.star _ = e at hops
  induction hops with
  | done => exact .nonterminal (.right hcall)
  | more ha hs _ ih =>
    cases he
    have h := ih rfl
    rw [List.append_assoc]
    exact .nonterminal (.left (.seq ha (matches_seq_empty.2 h)))
  | _ => cases he

theorem unary (hm : m ≤ n + 1) : Prompt s 0 m (.nonterminal (.level .unary))
    (Grammar.unary inner m) (Grammar.unary inner' (m + s)) := by
  have h := (unaryOperators s m).bind fun ops =>
    (call hinner hm).ending fun e => ops.foldr Expr.unary e
  apply h.mono
  intro ts hts
  obtain ⟨us, vs, rfl, hops, hcall⟩ := matches_seq.1 hts
  exact matches_unary hops hcall

omit hinner in
theorem leftChain {c : Chain} {p p' : Step Expr}
    (hp : Prompt s 0 n (.nonterminal (.level c.operand)) p p') (hj : j ≤ n) (e : Expr) :
    Prompt s 0 j (.star (.all [.oneOf (c.operators.map .kind), .nonterminal (.level c.operand)]))
      (Grammar.leftChain c.operator c.join p j e)
      (Grammar.leftChain c.operator c.join p' (j + s) e) := by
  induction j generalizing e with
  | zero =>
    exact (noMore s 0 _ e).atZero (.leftChain hp.grows' _ e) fun d hd =>
      leftChain_nil hd _ _ _ _ e
  | succ j ih =>
    rw [Nat.add_right_comm]
    apply taking
    · intro op hop
      refine ⟨_, (hp.within (Nat.le_of_succ_le hj)).bind fun r =>
        ih (Nat.le_of_succ_le hj) (c.join e op r), fun ts hts => ?_⟩
      obtain ⟨us, vs, rfl, hr, hs⟩ := matches_seq.1 hts
      have hkind : Matches (.oneOf (c.operators.map .kind)) [op] :=
        .oneOf (List.mem_map.2 ⟨_, Chain.operator_iff.1 hop, rfl⟩) (.kind rfl)
      exact .more (.seq hkind (matches_seq_empty.2 hr)) hs
    · exact noMore s _ _ e

omit hinner in
theorem level {c : Chain} {p p' : Step Expr}
    (hp : Prompt s 0 m (.nonterminal (.level c.operand)) p p') :
    Prompt s 0 m (.nonterminal (.level (.chain c))) (Grammar.level c.operator c.join p m)
      (Grammar.level c.operator c.join p' (m + s)) := by
  have h := hp.bind fun e => leftChain hp (Nat.le_refl m) e
  exact h.mono fun ts hts => .nonterminal (hts.seq_mono fun us hus => matches_seq_empty.2 hus)

theorem logicOr (hm : m ≤ n + 1) : Prompt s 0 m (.nonterminal (.level (.chain .or)))
    (Grammar.logicOr inner m) (Grammar.logicOr inner' (m + s)) :=
  have hterm := level (c := .term) (level (c := .factor) (unary hinner hm))
  have hequality := level (c := .equality) (level (c := .comparison) hterm)
  level (c := .or) (level (c := .and) hequality)

omit hinner in
theorem assignTo (s n : Nat) (target : Expr) (equals : Token) (value : Expr) :
    Prompt s 0 n .empty (Grammar.assignTo target equals value)
      (Grammar.assignTo target equals value) := by
  cases target with
  | var r => exact (reference s n r.name).ending (Expr.assign · value)
  | get object name => exact pure s n _
  | _ => exact (report s n rfl equals).ending fun _ => _

theorem assignment (hm : m ≤ n + 1) : Prompt s 0 m .expression
    (Grammar.assignment inner m) (Grammar.assignment inner' (m + s)) := by
  have htail (target : Expr) : Prompt s 0 m (.optional (.seq (.mark .equal) .expression))
      (do
        match ← accept? (.mark .equal) with
        | some equals => Grammar.assignTo target equals (← inner)
        | none => return target)
      (do
        match ← accept? (.mark .equal) with
        | some equals => Grammar.assignTo target equals (← inner')
        | none => return target) := by
    apply taking
    · intro equals hq
      refine ⟨_, (hinner.within (by omega)).bind fun value => assignTo s _ target equals value,
        fun ts hts => .left (.behind (beq_iff_eq.1 hq) (matches_seq_empty.1 hts))⟩
    · exact (pure s m target).mono fun ts hts => .right hts
  apply ((logicOr hinner hm).bind htail).mono
  intro ts hts
  obtain ⟨us, vs, rfl, hor, hvs⟩ := matches_seq.1 hts
  apply Matches.nonterminal
  cases hvs with
  | left h => exact .left (.seq hor (h.seq_mono fun us hus => matches_seq_empty.2 hus))
  | right h =>
    cases h
    rw [List.append_nil]
    exact .right hor

end Expressions

theorem expression (s n : Nat) :
    Prompt s 0 n .expression (Grammar.expression n) (Grammar.expression (n + s)) := by
  induction n with
  | zero =>
    exact (fail s 0 0 _ rfl).atZero (.expression _) fun c hc => expression_nil hc _
  | succ n ih =>
    rw [Nat.add_right_comm]
    have h := assignment ih (Nat.le_refl (n + 1))
    rwa [Nat.add_right_comm] at h

section Statements

variable {expr expr' : Step Expr} {inner inner' : Step Stmt} {body body' : Step (List Stmt)}

/-- The insides of a block. -/
def inside : Ebnf := .star (.nonterminal .declaration)

theorem closedBy (hbody : Prompt s 0 n inside body body') :
    Prompt s 0 n (.all [inside, .mark .rightBrace]) (Grammar.closedBy body)
      (Grammar.closedBy body') := by
  apply hbody.bind
  intro ss
  apply (expect s n .closeBlock).lax.bind
  intro _
  exact pure s n ss

theorem parametersFrom (s j count : Nat) : Prompt s 0 j (.listOf .name)
    (Grammar.parametersFrom j count) (Grammar.parametersFrom (j + s) count) :=
  list rfl lists_parameters lists_parameters (expect s j .parameterName).lax Grows.parametersFrom
    (Nat.le_refl j) count

theorem routine (r : Routine) (hm : m ≤ j + 2) (hbody : Prompt s 0 (m - 1) inside body body') :
    Prompt s 1 m (.nonterminal .function) (Grammar.routine r body j)
      (Grammar.routine r body' (j + s)) := by
  rw [routine_eq, routine_eq]
  have hnone := (pure s (m - 1 - 1) ([] : List Token)).mono
    (b := .optional (.nonterminal .parameters)) fun _ hts => .right hts
  have hsome := ((parametersFrom s j 0).within (m := m - 1 - 1) (by omega)).mono
    (b := .optional (.nonterminal .parameters)) fun ts hts => .left (.nonterminal hts)
  have h := (expect s m (.routineName r)).consuming fun x =>
    ((expect s (m - 1) (.openParameters r)).consuming fun _ =>
      (ifNext (.mark .rightParen) hnone hsome).bind fun ps =>
        (expect s _ .closeParameters).lax.bind fun _ => (expect s _ (.openBody r)).lax.bind fun _ =>
          (closedBy (hbody.within (m := m - 1 - 1) (by omega))).ending (Function.mk x ps ·)).lax
  apply h.mono
  intro ts hts
  apply Matches.nonterminal
  apply hts.seq_mono
  intro us hus
  apply hus.seq_mono
  intro vs hvs
  apply hvs.seq_mono
  intro ws hws
  apply hws.seq_mono
  intro xs hxs
  exact matches_seq_empty.2 (.nonterminal hxs)

theorem methods (hbody : Prompt s 0 n inside body body') (hj : j ≤ n + 1) :
    Prompt s 0 j (.star (.nonterminal .function)) (Grammar.methods body j)
      (Grammar.methods body' (j + s)) := by
  induction j with
  | zero =>
    exact (noMore s 0 _ []).atZero (.methods hbody.grows' _) fun c hc => methods_nil hc body' _
  | succ j ih =>
    rw [Nat.add_right_comm]
    apply ifEndsBlock (noMore s _ _ [])
    have hj' : j ≤ n := Nat.le_of_succ_le_succ hj
    have hf := routine .method (m := j + 1) (j := j) (by omega) (hbody.within hj')
    apply ((hf.consuming fun f => (ih (Nat.le_succ_of_le hj')).ending (f :: ·)).lax).mono
    intro ts hts
    obtain ⟨us, vs, rfl, hf, hfs⟩ := matches_seq.1 hts
    exact .more hf hfs

theorem superclass (s n : Nat) : Prompt s 0 n (.optional (.all [.mark .less, .name]))
    Grammar.superclass Grammar.superclass := by
  apply accepting
  · apply (expect s _ .superclassName).lax.bind
    intro x
    exact (reference s _ x).ending some
  · exact pure s n none
  · exact fun t ts ht hts => .left (.behind ht hts)
  · exact fun ts hts => .right hts

/-- What stands behind the word. -/
theorem classDeclaration (hbody : Prompt s 0 n inside body body') :
    Prompt s 0 n (.all [.name, .optional (.all [.mark .less, .name]), .mark .leftBrace,
        .star (.nonterminal .function), .mark .rightBrace])
      (Grammar.classDeclaration body (n + 1)) (Grammar.classDeclaration body' (n + 1 + s)) := by
  apply (expect s n .className).lax.bind
  intro x
  apply (superclass s n).bind
  intro r
  apply (expect s n .openClass).lax.bind
  intro _
  apply ((methods hbody (Nat.le_refl _)).within (Nat.le_succ n)).bind
  intro ms
  apply (expect s n .closeClass).lax.bind
  intro _
  exact pure s n _

section Simple

variable (hexpr : Prompt s 0 (n + 1) .expression expr expr')

include hexpr

theorem unlessNext (k : Kind) (hm : m ≤ n + 1) : Prompt s 0 m (.optional .expression)
    (Grammar.unlessNext k expr) (Grammar.unlessNext k expr') :=
  ifNext k ((pure s m none).mono fun _ hts => .right hts)
    (((hexpr.within hm).ending some).mono fun _ hts => .left hts)

theorem varDeclaration (hm : m ≤ n + 1) :
    Prompt s 0 m (.all [.name, .optional (.all [.mark .equal, .expression]), .mark .semicolon])
      (Grammar.varDeclaration expr) (Grammar.varDeclaration expr') := by
  rw [varDeclaration_eq, varDeclaration_eq]
  apply (expect s m .variableName).lax.bind
  intro x
  have hinitializer : Prompt s 0 m (.optional (.all [.mark .equal, .expression]))
      (do if ← accept (.mark .equal) then some <$> expr else Pure.pure none)
      (do if ← accept (.mark .equal) then some <$> expr' else Pure.pure none) :=
    accepting (hexpr.within (by omega)).map (pure s m none)
      (fun _ _ ht hts => .left (.behind ht (matches_seq_empty.2 hts))) fun ts hts => .right hts
  apply hinitializer.bind
  intro i
  apply (expect s m .endOfVariable).lax.bind
  intro _
  exact pure s m _

theorem expressionStatement (hm : m ≤ n + 1) : Prompt s 1 m (.nonterminal .exprStmt)
    (Grammar.expressionStatement expr) (Grammar.expressionStatement expr') := by
  have h := (hexpr.within hm).bind fun e =>
    (expect s m .endOfExpression).consuming fun _ => pure s _ (Stmt.expression e)
  exact h.mono fun ts hts => .nonterminal hts

theorem forInitializer (hm : m ≤ n + 1) :
    Prompt s 0 m (.oneOf [.mark .semicolon, .nonterminal .varDecl, .nonterminal .exprStmt])
      (Grammar.forInitializer expr) (Grammar.forInitializer expr') := by
  apply accepting
  · exact pure s _ none
  · apply accepting (e := .oneOf [.nonterminal .varDecl, .nonterminal .exprStmt])
    · exact (varDeclaration hexpr (by omega)).map
    · exact (expressionStatement hexpr hm).lax.map
    · exact fun t ts ht hts => .left (.nonterminal (.behind ht hts))
    · exact fun ts hts => .right hts
  · intro t ts ht hts
    cases hts
    exact .left (.kind ht)
  · exact fun ts hts => .right hts

theorem printStatement : Prompt s 0 n (.all [.expression, .mark .semicolon])
    (Grammar.printStatement expr) (Grammar.printStatement expr') := by
  apply (hexpr.within (Nat.le_succ n)).bind
  intro e
  apply (expect s n .endOfPrint).lax.bind
  intro _
  exact pure s n _

theorem returnStatement (t : Token) :
    Prompt s 0 n (.all [.optional .expression, .mark .semicolon])
      (Grammar.returnStatement t expr) (Grammar.returnStatement t expr') := by
  apply (unlessNext hexpr _ (Nat.le_succ n)).bind
  intro e
  apply (expect s n .endOfReturn).lax.bind
  intro _
  exact pure s n _

variable (hinner : Prompt s 0 n (.nonterminal .statement) inner inner')

include hinner

theorem ifStatement : Prompt s 0 n
    (.all [.mark .leftParen, .expression, .mark .rightParen, .nonterminal .statement,
      .optional (.all [.word .else, .nonterminal .statement])])
    (Grammar.ifStatement expr inner) (Grammar.ifStatement expr' inner') := by
  rw [ifStatement_eq, ifStatement_eq]
  apply (expect s n .openIf).lax.bind
  intro _
  apply (hexpr.within (Nat.le_succ n)).bind
  intro e
  apply (expect s n .closeIf).lax.bind
  intro _
  apply hinner.bind
  intro yes
  have helse : Prompt s 0 n (.optional (.all [.word .else, .nonterminal .statement]))
      (do if ← accept (.word .else) then some <$> inner else Pure.pure none)
      (do if ← accept (.word .else) then some <$> inner' else Pure.pure none) :=
    accepting (hinner.within (Nat.sub_le n 1)).map (pure s n none)
      (fun _ _ ht hts => .left (.behind ht (matches_seq_empty.2 hts))) fun ts hts => .right hts
  apply helse.bind
  intro no
  exact pure s n _

theorem whileStatement : Prompt s 0 n
    (.all [.mark .leftParen, .expression, .mark .rightParen, .nonterminal .statement])
    (Grammar.whileStatement expr inner) (Grammar.whileStatement expr' inner') := by
  apply (expect s n .openWhile).lax.bind
  intro _
  apply (hexpr.within (Nat.le_succ n)).bind
  intro e
  apply (expect s n .closeWhile).lax.bind
  intro _
  apply hinner.bind
  intro b
  exact pure s n _

theorem forStatement : Prompt s 0 n
    (.all [.mark .leftParen,
      .oneOf [.mark .semicolon, .nonterminal .varDecl, .nonterminal .exprStmt],
      .optional .expression, .mark .semicolon, .optional .expression, .mark .rightParen,
      .nonterminal .statement])
    (Grammar.forStatement expr inner) (Grammar.forStatement expr' inner') := by
  apply (expect s n .openFor).lax.bind
  intro _
  apply (forInitializer hexpr (Nat.le_succ n)).bind
  intro i
  apply (unlessNext hexpr _ (Nat.le_succ n)).bind
  intro e
  apply (expect s n .endOfCondition).lax.bind
  intro _
  apply (unlessNext hexpr _ (Nat.le_succ n)).bind
  intro e'
  apply (expect s n .closeFor).lax.bind
  intro _
  apply hinner.bind
  intro b
  exact pure s n _

end Simple

/-- `n` tokens are left behind the first one of the statement. -/
theorem statementWith (hexpr : Prompt s 0 (n + 1) .expression expr expr')
    (hinner : Prompt s 0 n (.nonterminal .statement) inner inner')
    (hbody : Prompt s 0 n inside body body') :
    Prompt s 1 (n + 1) (.nonterminal .statement) (Grammar.statementWith expr inner body)
      (Grammar.statementWith expr' inner' body') := by
  have hone (r : Nonterminal) {ts : List Token} (hr : r ∈ [Nonterminal.forStmt, .ifStmt,
      .printStmt, .returnStmt, .whileStmt, .block, .exprStmt]) (h : Matches (Ebnf.rule r) ts) :
      Matches (.nonterminal .statement) ts :=
    .nonterminal (.oneOf (List.mem_map_of_mem (f := Ebnf.nonterminal) hr) (.nonterminal h))
  apply accepting (forStatement hexpr hinner) _
    (fun _ _ ht hts => hone .forStmt (by decide) (.behind ht hts)) fun _ hts => hts
  apply accepting (ifStatement hexpr hinner) _
    (fun _ _ ht hts => hone .ifStmt (by decide) (.behind ht hts)) fun _ hts => hts
  apply accepting (printStatement hexpr) _
    (fun _ _ ht hts => hone .printStmt (by decide) (.behind ht hts)) fun _ hts => hts
  apply taking
  · intro t ht
    exact ⟨_, returnStatement hexpr t, fun _ hts =>
      hone .returnStmt (by decide) (.behind (beq_iff_eq.1 ht) hts)⟩
  · apply accepting (whileStatement hexpr hinner) _
      (fun _ _ ht hts => hone .whileStmt (by decide) (.behind ht hts)) fun _ hts => hts
    apply accepting ((closedBy hbody).ending Stmt.block) _
      (fun _ _ ht hts => hone .block (by decide) (.behind ht hts)) fun _ hts => hts
    exact (expressionStatement hexpr (Nat.le_refl _)).mono fun _ hts =>
      .nonterminal (.oneOf (by simp) hts)

theorem declaring (hinner : Prompt s 0 n (.nonterminal .statement) inner inner')
    (hbody : Prompt s 0 n inside body body') :
    Prompt s 1 (n + 1) (.nonterminal .declaration) (Grammar.declaring (n + 1) inner body)
      (Grammar.declaring (n + 1 + s) inner' body') := by
  have hexpr := expression s (n + 1)
  have hone (r : Nonterminal) {ts : List Token} (hr : r ∈ [Nonterminal.classDecl, .funDecl,
      .varDecl, .statement]) (h : Matches (Ebnf.rule r) ts) :
      Matches (.nonterminal .declaration) ts :=
    .nonterminal (.oneOf (List.mem_map_of_mem (f := Ebnf.nonterminal) hr) (.nonterminal h))
  apply accepting (classDeclaration hbody) _
    (fun _ _ ht hts => hone .classDecl (by decide) (.behind ht hts)) fun _ hts => hts
  apply accepting (routine .function (by omega) (hbody.within (Nat.sub_le _ _))).lax.map _
    (fun _ _ ht hts => hone .funDecl (by decide) (.behind ht (matches_seq_empty.2 hts)))
    fun _ hts => hts
  apply accepting (varDeclaration hexpr (Nat.le_succ n)) _
    (fun _ _ ht hts => hone .varDecl (by decide) (.behind ht hts)) fun _ hts => hts
  exact (statementWith hexpr hinner hbody).mono fun _ hts => .nonterminal (.oneOf (by simp) hts)

/-- A declaration and those behind it. -/
theorem moreDeclarations {more more' : Step (List Stmt)}
    (hinner : Prompt s 0 n (.nonterminal .statement) inner inner')
    (hbody : Prompt s 0 n inside body body') (hmore : Prompt s 0 n inside more more') :
    Prompt s 0 (n + 1) inside
      (do return (← declarationWith (n + 1) inner body).toList ++ (← more))
      (do return (← declarationWith (n + 1 + s) inner' body').toList ++ (← more')) := by
  have hd := (declaring hinner hbody).recovering
  have h := hd.consuming fun o => hmore.ending (o.toList ++ ·)
  apply h.lax.mono
  intro ts hts
  obtain ⟨us, vs, rfl, hs, hss⟩ := matches_seq.1 hts
  exact .more hs hss

theorem statement_declarations (s n : Nat) :
    Prompt s 0 n (.nonterminal .statement) (Grammar.statement n) (Grammar.statement (n + s)) ∧
      Prompt s 0 n inside (Grammar.declarations n) (Grammar.declarations (n + s)) := by
  induction n with
  | zero =>
    constructor
    · exact (fail s 0 0 _ rfl).atZero (Grows.statement_declarations _).1 fun c hc =>
        statement_nil hc _
    · exact (noMore s 0 _ []).atZero (Grows.statement_declarations _).2 fun c hc =>
        declarations_nil hc _
  | succ n ih =>
    obtain ⟨hinner, hbody⟩ := ih
    have hexpr := expression s (n + 1)
    have hmore := moreDeclarations hinner hbody hbody
    rw [Nat.add_right_comm] at hexpr hmore ⊢
    exact ⟨(statementWith hexpr hinner hbody).lax, ifEndsBlock (noMore s _ _ []) hmore⟩

theorem topLevel (s n : Nat) :
    Prompt s 0 n inside (Grammar.topLevel n) (Grammar.topLevel (n + s)) := by
  induction n with
  | zero => exact (noMore s 0 _ []).atZero (.topLevel _) fun c hc => topLevel_nil hc _
  | succ n ih =>
    obtain ⟨hinner, hbody⟩ := statement_declarations s n
    have hmore := moreDeclarations hinner hbody ih
    rw [Nat.add_right_comm] at hmore ⊢
    exact ifAtEnd (noMore s _ _ []) hmore

end Statements

theorem wholeExpression (s n : Nat) :
    Prompt s 0 n .expression (Grammar.wholeExpression n) (Grammar.wholeExpression (n + s)) := by
  have hcause : ParseCause.leftover.unwinds = true := rfl
  have h := (expression s n).bind fun e => ifAtEnd (pure s n e) (fail s 0 n .empty hcause)
  exact h.mono fun _ => matches_seq_empty.1

end Prompt

end Lox.Grammar
