import Mathlib.Data.List.Forall2
import Lox.Proofs.Grammar.Reading
import Lox.Proofs.Grammar.Tracking

/-!
# The grammar read elsewhere

Every production is tracked: from tokens counted from another start, with others behind
them, it reads the same tree, counted from that start, and reports the same. Main
statement: a program read with other identities and on other lines is the same program.
-/

set_option autoImplicit false

namespace Lox.Grammar.Setting.Tracks

variable {S : Setting} {n m b j : Nat}

section Expressions

variable {inner inner' : Step Expr} (hinner : S.Tracks 1 n (Expr.shift S.shift) inner inner')

theorem superAccess (n : Nat) (t : Token) :
    S.Tracks 0 n (Expr.shift S.shift) (Grammar.superAccess t)
      (Grammar.superAccess (t.shift S.shift)) := by
  apply (expect n _).lax.bind
  intro _
  apply (expect n _).lax.bind
  intro method
  apply (reference n t).bind
  intro r
  exact .pure n (Expr.shift S.shift) (.super r method)

include hinner

theorem group (hm : m ≤ n) : S.Tracks 0 m (Expr.shift S.shift) (Grammar.group inner)
    (Grammar.group inner') := by
  apply (hinner.mono hm).lax.bind
  intro e
  apply (expect m _).lax.bind
  intro _
  exact .pure m (Expr.shift S.shift) (.grouping e)

theorem primaryOf (hm : m ≤ n) (t : Token) :
    Option.Rel (S.Tracks 0 m (Expr.shift S.shift)) (Grammar.primaryOf inner t)
      (Grammar.primaryOf inner' (t.shift S.shift)) := by
  have hliteral (v : Literal) : Option.Rel (S.Tracks 0 m (Expr.shift S.shift))
      (some (Pure.pure (.literal v))) (some (Pure.pure (.literal v))) :=
    .some (.pure m (Expr.shift S.shift) (.literal v))
  have hnamed (u : Reference → Expr)
      (hu : ∀ r, (u r).shift S.shift = u (r.shift S.shift)) :
      S.Tracks 0 m (Expr.shift S.shift) (do return u (← Grammar.reference t))
        (do return u (← Grammar.reference (t.shift S.shift))) := by
    apply (reference m t).bind
    intro r
    rw [← hu]
    exact .pure m (Expr.shift S.shift) (u r)
  unfold Grammar.primaryOf
  simp only [Token.shift_kind]
  cases t.kind with
  | word w =>
    cases w with
    | «false» | «true» | nil => exact hliteral _
    | super => exact .some (superAccess m t)
    | this => exact .some (hnamed .this fun _ => rfl)
    | _ => exact .none
  | number x => exact hliteral _
  | string s => exact hliteral _
  | identifier => exact .some (hnamed .var fun _ => rfl)
  | mark a =>
    cases a with
    | leftParen => exact .some (group hinner hm)
    | _ => exact .none
  | finish => exact .none

theorem primary (hm : m ≤ n + 1) : S.Tracks 1 m (Expr.shift S.shift) (Grammar.primary inner)
    (Grammar.primary inner') := by
  intro c c' hc hf
  have hfail := fail (S := S) 1 m (Expr.shift S.shift) .noExpression c c' hc hf
  unfold Grammar.primary
  cases hrest : c.rest with
  | nil =>
    by_cases hx : S.exact
    · rw [hf.nil hx hrest]
      exact hfail
    · exact hfail.ofSpent hrest hx
  | cons t ts =>
    rw [hf.cons hrest]
    have hlen : ts.length ≤ m - 1 := by
      rw [hrest] at hc
      exact Nat.le_sub_one_of_lt hc
    have huntil : c.Until 1 { c with rest := ts } := ⟨[t], hrest, Nat.le_refl _⟩
    have h := primaryOf hinner (m := m - 1) (by omega) t
    dsimp only
    generalize Grammar.primaryOf inner t = p, Grammar.primaryOf inner' (t.shift S.shift) = p' at h
    cases h with
    | none => exact hfail
    | some h => exact (h _ _ hlen (hf.withRest ts)).after huntil

theorem argumentsFrom (hj : j ≤ n) (count : Nat) :
    S.Tracks 1 j (Expr.shiftAll S.shift) (Grammar.argumentsFrom inner j count)
      (Grammar.argumentsFrom inner' (j + S.spare) count) := by
  induction j generalizing count with
  | zero =>
    apply atZero fun j => Grammar.argumentsFrom inner' j count
    apply (limit 0 _ count).bind
    intro _
    apply (hinner.mono hj).consuming
    intro e
    exact .pure _ (Expr.shiftAll S.shift) [e]
  | succ j ih =>
    rw [Nat.add_right_comm]
    apply (limit _ _ count).bind
    intro _
    apply (hinner.mono hj).consuming
    intro e
    apply accepting
    · apply ((ih (Nat.le_of_succ_le hj) _).mono (Nat.sub_le _ _)).lax.bind
      intro es
      exact .pure _ (Expr.shiftAll S.shift) (e :: es)
    · exact .pure _ (Expr.shiftAll S.shift) [e]

theorem callArguments (hj : j ≤ n) :
    S.Tracks 1 j (Prod.map (Expr.shiftAll S.shift) (Token.shift S.shift))
      (Grammar.callArguments inner j) (Grammar.callArguments inner' (j + S.spare)) := by
  rw [callArguments_eq, callArguments_eq]
  have hargs := (nextIs j (.mark .rightParen)).ifElse (.pure j (Expr.shiftAll S.shift) [])
    (argumentsFrom hinner hj 0).lax
  apply hargs.bind
  intro args
  apply (expect j _).consuming
  intro t
  exact .pure _ (Prod.map (Expr.shiftAll S.shift) (Token.shift S.shift)) (args, t)

theorem suffixes (hj : j ≤ n + 1) (e : Expr) :
    S.Tracks 0 j (Expr.shift S.shift) (Grammar.suffixes inner j e)
      (Grammar.suffixes inner' (j + S.spare) (e.shift S.shift)) := by
  induction j generalizing e with
  | zero => exact atZero (Grammar.suffixes inner' · (e.shift S.shift)) (.pure 0 _ e)
  | succ j ih =>
    have hj' : j ≤ n := Nat.le_of_succ_le_succ hj
    have hrest (e : Expr) := ih (Nat.le_succ_of_le hj') e
    rw [Nat.add_right_comm]
    apply accepting
    · apply (callArguments hinner hj').lax.bind
      rintro ⟨args, paren⟩
      exact hrest (.call e paren args)
    · apply accepting
      · apply (expect _ _).lax.bind
        intro name
        exact hrest (.get e name)
      · exact .pure _ (Expr.shift S.shift) e

theorem call (hm : m ≤ n + 1) : S.Tracks 1 m (Expr.shift S.shift) (Grammar.call inner m)
    (Grammar.call inner' (m + S.spare)) := by
  apply (primary hinner hm).consuming
  intro e
  exact (suffixes hinner hm e).mono (Nat.sub_le _ _)

omit hinner in
theorem unaryOperators (j : Nat) :
    S.Tracks 0 j (List.map (Token.shift S.shift)) (Grammar.unaryOperators j)
      (Grammar.unaryOperators (j + S.spare)) := by
  induction j with
  | zero => exact atZero Grammar.unaryOperators (.pure 0 (List.map (Token.shift S.shift)) [])
  | succ j ih =>
    rw [Nat.add_right_comm]
    apply acceptIf_bind
    · intro op _
      apply ih.bind
      intro ops
      exact .pure _ (List.map (Token.shift S.shift)) (op :: ops)
    · exact .pure _ (List.map (Token.shift S.shift)) []

theorem unary (hm : m ≤ n + 1) : S.Tracks 1 m (Expr.shift S.shift) (Grammar.unary inner m)
    (Grammar.unary inner' (m + S.spare)) := by
  apply (unaryOperators m).bind
  intro ops
  apply (call hinner hm).consuming
  intro e
  rw [← shift_foldr_unary]
  exact .pure _ (Expr.shift S.shift) (ops.foldr Expr.unary e)

omit hinner in
theorem leftChain {s : Kind → Bool} {join : Expr → Token → Expr → Expr} {p p' : Step Expr}
    (hjoin : ∀ l op r, (join l op r).shift S.shift =
      join (l.shift S.shift) (op.shift S.shift) (r.shift S.shift))
    (hp : S.Tracks 1 n (Expr.shift S.shift) p p') (hj : j ≤ n) (e : Expr) :
    S.Tracks 0 j (Expr.shift S.shift) (Grammar.leftChain s join p j e)
      (Grammar.leftChain s join p' (j + S.spare) (e.shift S.shift)) := by
  induction j generalizing e with
  | zero => exact atZero (Grammar.leftChain s join p' · (e.shift S.shift)) (.pure 0 _ e)
  | succ j ih =>
    rw [Nat.add_right_comm]
    apply acceptIf_bind
    · intro op _
      apply (hp.mono (Nat.le_of_succ_le hj)).lax.bind
      intro r
      rw [← hjoin]
      exact ih (Nat.le_of_succ_le hj) (join e op r)
    · exact .pure _ (Expr.shift S.shift) e

omit hinner in
theorem level {s : Kind → Bool} {join : Expr → Token → Expr → Expr} {p p' : Step Expr}
    (hjoin : ∀ l op r, (join l op r).shift S.shift =
      join (l.shift S.shift) (op.shift S.shift) (r.shift S.shift))
    (hp : S.Tracks 1 m (Expr.shift S.shift) p p') :
    S.Tracks 1 m (Expr.shift S.shift) (Grammar.level s join p m)
      (Grammar.level s join p' (m + S.spare)) := by
  apply hp.consuming
  intro e
  exact (leftChain hjoin hp (Nat.le_refl _) e).mono (Nat.sub_le _ _)

theorem logicOr (hm : m ≤ n + 1) : S.Tracks 1 m (Expr.shift S.shift) (Grammar.logicOr inner m)
    (Grammar.logicOr inner' (m + S.spare)) := by
  have hbinary (l : Expr) (op : Token) (r : Expr) : (Expr.binary l op r).shift S.shift =
      .binary (l.shift S.shift) (op.shift S.shift) (r.shift S.shift) := rfl
  have hlogical (l : Expr) (op : Token) (r : Expr) : (Expr.logical l op r).shift S.shift =
      .logical (l.shift S.shift) (op.shift S.shift) (r.shift S.shift) := rfl
  have hterm := level (s := isTermOperator) hbinary
    (level (s := isFactorOperator) hbinary (unary hinner hm))
  have hequality := level (s := isEqualityOperator) hbinary
    (level (s := isComparisonOperator) hbinary hterm)
  exact level hlogical (level hlogical hequality)

omit hinner in
theorem assignTo (n : Nat) (target : Expr) (equals : Token) (value : Expr) :
    S.Tracks 0 n (Expr.shift S.shift) (Grammar.assignTo target equals value)
      (Grammar.assignTo (target.shift S.shift) (equals.shift S.shift) (value.shift S.shift)) := by
  have hinvalid : S.Tracks 0 n (Expr.shift S.shift)
      (do Grammar.report (fault .invalidTarget equals); return target)
      (do Grammar.report (fault .invalidTarget (equals.shift S.shift))
          return target.shift S.shift) := by
    apply (report n (fault .invalidTarget equals)).bind
    intro _
    exact .pure n (Expr.shift S.shift) target
  cases target with
  | var ref =>
    apply (reference n ref.name).bind
    intro r
    exact .pure n (Expr.shift S.shift) (.assign r value)
  | get object name => exact .pure n (Expr.shift S.shift) (.set object name value)
  | _ => exact hinvalid

theorem assignment (hm : m ≤ n + 1) :
    S.Tracks 1 m (Expr.shift S.shift) (Grammar.assignment inner m)
      (Grammar.assignment inner' (m + S.spare)) := by
  apply (logicOr hinner hm).consuming
  intro target
  apply acceptIf_bind
  · intro equals _
    apply (hinner.mono (by omega)).lax.bind
    intro value
    exact assignTo _ target equals value
  · exact .pure _ (Expr.shift S.shift) target

end Expressions

theorem expression (n : Nat) :
    S.Tracks 1 n (Expr.shift S.shift) (Grammar.expression n) (Grammar.expression (n + S.spare)) := by
  induction n with
  | zero => exact atZero Grammar.expression (.fail 1 0 _ _)
  | succ n ih =>
    rw [Nat.add_right_comm]
    have h := assignment ih (Nat.le_refl (n + 1))
    rwa [Nat.add_right_comm] at h

section Statements

variable {expr expr' : Step Expr} {inner inner' : Step Stmt} {body body' : Step (List Stmt)}

theorem closedBy (hbody : S.Tracks 0 n (Stmt.shiftAll S.shift) body body') :
    S.Tracks 1 n (Stmt.shiftAll S.shift) (Grammar.closedBy body) (Grammar.closedBy body') := by
  apply hbody.bind
  intro ss
  apply (expect n _).consuming
  intro _
  exact .pure _ (Stmt.shiftAll S.shift) ss

theorem parametersFrom (j count : Nat) :
    S.Tracks 1 j (List.map (Token.shift S.shift)) (Grammar.parametersFrom j count)
      (Grammar.parametersFrom (j + S.spare) count) := by
  induction j generalizing count with
  | zero =>
    apply atZero fun j => Grammar.parametersFrom j count
    apply (limit 0 _ count).bind
    intro _
    apply (expect 0 _).consuming
    intro p
    exact .pure _ (List.map (Token.shift S.shift)) [p]
  | succ j ih =>
    rw [Nat.add_right_comm]
    apply (limit _ _ count).bind
    intro _
    apply (expect _ _).consuming
    intro p
    apply accepting
    · apply ((ih _).mono (Nat.sub_le _ _)).lax.bind
      intro ps
      exact .pure _ (List.map (Token.shift S.shift)) (p :: ps)
    · exact .pure _ (List.map (Token.shift S.shift)) [p]

theorem routine (r : Routine) (hm : m ≤ j + 2)
    (hbody : S.Tracks 0 (m - 1) (Stmt.shiftAll S.shift) body body') :
    S.Tracks 1 m (Function.shift S.shift) (Grammar.routine r body j)
      (Grammar.routine r body' (j + S.spare)) := by
  rw [routine_eq, routine_eq]
  apply (expect m _).consuming
  intro x
  apply Tracks.lax
  apply (expect (m - 1) _).consuming
  intro _
  have hparams := (nextIs (m - 1 - 1) (.mark .rightParen)).ifElse
    (.pure _ (List.map (Token.shift S.shift)) []) ((parametersFrom j 0).mono (by omega)).lax
  apply hparams.bind
  intro ps
  apply (expect _ _).lax.bind
  intro _
  apply (expect _ _).lax.bind
  intro _
  apply (closedBy (hbody.mono (by omega))).lax.bind
  intro ss
  exact .pure _ (Function.shift S.shift) (.mk x ps ss)

theorem methods (hbody : S.Tracks 0 n (Stmt.shiftAll S.shift) body body') (hj : j ≤ n + 1) :
    S.Tracks 0 j (Function.shiftAll S.shift) (Grammar.methods body j)
      (Grammar.methods body' (j + S.spare)) := by
  induction j with
  | zero => exact atZero (Grammar.methods body') (.pure 0 (Function.shiftAll S.shift) [])
  | succ j ih =>
    rw [Nat.add_right_comm]
    apply (endsBlock _).ifElse (.pure _ (Function.shiftAll S.shift) [])
    have hj' : j ≤ n := Nat.le_of_succ_le_succ hj
    apply ((routine .method (Nat.le_succ _) (hbody.mono hj')).consuming _).lax
    intro f
    apply (ih (Nat.le_succ_of_le hj')).bind
    intro fs
    exact .pure _ (Function.shiftAll S.shift) (f :: fs)

theorem superclass (n : Nat) : S.Tracks 0 n (Option.map (Reference.shift S.shift))
    Grammar.superclass Grammar.superclass := by
  apply accepting
  · apply (expect _ _).lax.bind
    intro t
    apply (reference _ t).bind
    intro r
    exact .pure _ (Option.map (Reference.shift S.shift)) (some r)
  · exact .pure n (Option.map (Reference.shift S.shift)) none

theorem classDeclaration (hbody : S.Tracks 0 n (Stmt.shiftAll S.shift) body body') :
    S.Tracks 1 n (Stmt.shift S.shift) (Grammar.classDeclaration body (n + 1))
      (Grammar.classDeclaration body' (n + 1 + S.spare)) := by
  apply (expect n _).consuming
  intro x
  apply (superclass _).bind
  intro r
  apply (expect _ _).lax.bind
  intro _
  apply ((methods hbody (Nat.le_refl (n + 1))).mono (by omega)).bind
  intro fs
  apply (expect _ _).lax.bind
  intro _
  exact .pure _ (Stmt.shift S.shift) (.class x r fs)

section Simple

variable (hexpr : S.Tracks 1 n (Expr.shift S.shift) expr expr')

include hexpr

theorem unlessNext (k : Kind) (hm : m ≤ n) :
    S.Tracks 0 m (Option.map (Expr.shift S.shift)) (Grammar.unlessNext k expr)
      (Grammar.unlessNext k expr') := by
  apply (nextIs m k).ifElse (.pure m (Option.map (Expr.shift S.shift)) none)
  apply (hexpr.mono hm).lax.bind
  intro e
  exact .pure m (Option.map (Expr.shift S.shift)) (some e)

theorem varDeclaration (hm : m ≤ n) : S.Tracks 1 m (Stmt.shift S.shift)
    (Grammar.varDeclaration expr) (Grammar.varDeclaration expr') := by
  rw [varDeclaration_eq, varDeclaration_eq]
  apply (expect m _).consuming
  intro x
  have hinitializer : S.Tracks 0 (m - 1) (Option.map (Expr.shift S.shift))
      (do if ← accept (.mark .equal) then some <$> expr else Pure.pure none)
      (do if ← accept (.mark .equal) then some <$> expr' else Pure.pure none) :=
    accepting _ ((hexpr.mono (by omega)).lax.map fun _ => rfl)
      (.pure _ (Option.map (Expr.shift S.shift)) none)
  apply hinitializer.bind
  intro e
  apply (expect _ _).lax.bind
  intro _
  exact .pure _ (Stmt.shift S.shift) (.var x e)

theorem expressionStatement (hm : m ≤ n) : S.Tracks 1 m (Stmt.shift S.shift)
    (Grammar.expressionStatement expr) (Grammar.expressionStatement expr') := by
  apply (hexpr.mono hm).consuming
  intro e
  apply (expect _ _).lax.bind
  intro _
  exact .pure _ (Stmt.shift S.shift) (.expression e)

theorem printStatement (hm : m ≤ n) : S.Tracks 1 m (Stmt.shift S.shift)
    (Grammar.printStatement expr) (Grammar.printStatement expr') := by
  apply (hexpr.mono hm).consuming
  intro e
  apply (expect _ _).lax.bind
  intro _
  exact .pure _ (Stmt.shift S.shift) (.print e)

theorem returnStatement (t : Token) (hm : m ≤ n) : S.Tracks 1 m (Stmt.shift S.shift)
    (Grammar.returnStatement t expr) (Grammar.returnStatement (t.shift S.shift) expr') := by
  apply (unlessNext hexpr _ hm).bind
  intro e
  apply (expect _ _).consuming
  intro _
  exact .pure _ (Stmt.shift S.shift) (.return t e)

theorem forInitializer (hm : m ≤ n) : S.Tracks 0 m (Option.map (Stmt.shift S.shift))
    (Grammar.forInitializer expr) (Grammar.forInitializer expr') := by
  apply accepting _ (.pure _ (Option.map (Stmt.shift S.shift)) none)
  apply accepting
  · exact (varDeclaration hexpr (by omega)).lax.map fun _ => rfl
  · exact (expressionStatement hexpr hm).lax.map fun _ => rfl

variable (hinner : S.Tracks 1 n (Stmt.shift S.shift) inner inner')

include hinner

theorem ifStatement : S.Tracks 1 n (Stmt.shift S.shift) (Grammar.ifStatement expr inner)
    (Grammar.ifStatement expr' inner') := by
  rw [ifStatement_eq, ifStatement_eq]
  apply (expect n _).consuming
  intro _
  apply (hexpr.mono (by omega)).lax.bind
  intro e
  apply (expect _ _).lax.bind
  intro _
  apply (hinner.mono (by omega)).lax.bind
  intro yes
  have helse : S.Tracks 0 (n - 1) (Option.map (Stmt.shift S.shift))
      (do if ← accept (.word .else) then some <$> inner else Pure.pure none)
      (do if ← accept (.word .else) then some <$> inner' else Pure.pure none) :=
    accepting _ ((hinner.mono (by omega)).lax.map fun _ => rfl)
      (.pure _ (Option.map (Stmt.shift S.shift)) none)
  apply helse.bind
  intro no
  rw [← Stmt.shiftOption_eq]
  exact .pure _ (Stmt.shift S.shift) (.if e yes no)

theorem whileStatement : S.Tracks 1 n (Stmt.shift S.shift) (Grammar.whileStatement expr inner)
    (Grammar.whileStatement expr' inner') := by
  apply (expect n _).consuming
  intro _
  apply (hexpr.mono (by omega)).lax.bind
  intro e
  apply (expect _ _).lax.bind
  intro _
  apply (hinner.mono (by omega)).lax.bind
  intro s
  exact .pure _ (Stmt.shift S.shift) (.while e s)

theorem forStatement : S.Tracks 1 n (Stmt.shift S.shift) (Grammar.forStatement expr inner)
    (Grammar.forStatement expr' inner') := by
  apply (expect n _).consuming
  intro _
  apply (forInitializer hexpr (by omega)).bind
  intro i
  apply (unlessNext hexpr _ (by omega)).bind
  intro e
  apply (expect _ _).lax.bind
  intro _
  apply (unlessNext hexpr _ (by omega)).bind
  intro e'
  apply (expect _ _).lax.bind
  intro _
  apply (hinner.mono (by omega)).lax.bind
  intro s
  rw [← shift_forLoop]
  exact .pure _ (Stmt.shift S.shift) (forLoop i e e' s)

end Simple

/-- `n` tokens are left behind the first one of the statement. -/
theorem statementWith (hexpr : S.Tracks 1 (n + 1) (Expr.shift S.shift) expr expr')
    (hinner : S.Tracks 1 n (Stmt.shift S.shift) inner inner')
    (hbody : S.Tracks 0 n (Stmt.shiftAll S.shift) body body') :
    S.Tracks 1 (n + 1) (Stmt.shift S.shift) (Grammar.statementWith expr inner body)
      (Grammar.statementWith expr' inner' body') := by
  have hexpr' := hexpr.mono (Nat.le_succ n)
  apply accepting _ (forStatement hexpr' hinner).lax
  apply accepting _ (ifStatement hexpr' hinner).lax
  apply accepting _ (printStatement hexpr' (Nat.le_refl n)).lax
  apply acceptIf_bind
  · intro t _
    exact (returnStatement hexpr' t (Nat.le_refl n)).lax
  · apply accepting _ (whileStatement hexpr' hinner).lax
    apply accepting
    · apply (closedBy hbody).lax.bind
      intro ss
      exact .pure _ (Stmt.shift S.shift) (.block ss)
    · exact expressionStatement hexpr (Nat.le_refl _)

theorem declaring (hinner : S.Tracks 1 n (Stmt.shift S.shift) inner inner')
    (hbody : S.Tracks 0 n (Stmt.shiftAll S.shift) body body') :
    S.Tracks 1 (n + 1) (Stmt.shift S.shift) (Grammar.declaring (n + 1) inner body)
      (Grammar.declaring (n + 1 + S.spare) inner' body') := by
  have hexpr := expression (S := S) (n + 1)
  apply accepting _ (classDeclaration hbody).lax
  apply accepting
  · exact (routine .function (by omega) (hbody.mono (Nat.sub_le _ _))).lax.map fun _ => rfl
  · apply accepting _ (varDeclaration hexpr (Nat.le_succ n)).lax
    exact statementWith hexpr hinner hbody

theorem shiftAll_toList (s : Option Stmt) (ss : List Stmt) :
    Stmt.shiftAll S.shift (s.toList ++ ss) =
      (s.map (Stmt.shift S.shift)).toList ++ Stmt.shiftAll S.shift ss := by
  cases s <;> rfl

/-- A declaration and those behind it. -/
theorem moreDeclarations {d : Step (Option Stmt)} {d' : Step (Option Stmt)}
    (hd : S.Proceeds 1 (n + 1) (Option.map (Stmt.shift S.shift)) d d')
    (hbody : S.Tracks 0 n (Stmt.shiftAll S.shift) body body') :
    S.Proceeds 0 (n + 1) (Stmt.shiftAll S.shift) (do return (← d).toList ++ (← body))
      (do return (← d').toList ++ (← body')) := by
  intro c c' hne hc hf
  have h := hd c c' hne hc hf
  rw [bind_apply, bind_apply]
  have hmore (s : Option Stmt) : S.Tracks 0 n (Stmt.shiftAll S.shift)
      (do return s.toList ++ (← body))
      (do return (s.map (Stmt.shift S.shift)).toList ++ (← body')) := by
    apply hbody.bind
    intro ss
    rw [← shiftAll_toList]
    exact .pure n (Stmt.shiftAll S.shift) (s.toList ++ ss)
  generalize d c = r, d' c' = r' at h
  cases h with
  | ok hd h =>
    have hle := hd.length
    exact ((hmore _ _ _ (by omega) h).after hd).lax
  | error hd h => exact .error hd h
  | @spent s e _ he hx =>
    exact (hmore s e _ (by simp [he]) (follows_follower hx e)).ofSpent he hx
  | spentError he hx => exact .spentError he hx

theorem statement_declarations (n : Nat) :
    S.Tracks 1 n (Stmt.shift S.shift) (Grammar.statement n) (Grammar.statement (n + S.spare)) ∧
      S.Tracks 0 n (Stmt.shiftAll S.shift) (Grammar.declarations n)
        (Grammar.declarations (n + S.spare)) := by
  induction n with
  | zero =>
    exact ⟨atZero Grammar.statement (.fail 1 0 _ _),
      atZero Grammar.declarations (.pure 0 (Stmt.shiftAll S.shift) [])⟩
  | succ n ih =>
    obtain ⟨hinner, hbody⟩ := ih
    have hexpr := expression (S := S) (n + 1)
    have hd := (declaring hinner hbody).recovering
    rw [Nat.add_right_comm] at hexpr hd ⊢
    constructor
    · exact statementWith hexpr hinner hbody
    · apply (endsBlock _).unlessEnd _ (.pure _ (Stmt.shiftAll S.shift) [])
        (moreDeclarations hd hbody)
      intro c
      refine ⟨_, endsBlock_apply c, ?_⟩
      intro hend hrest
      simp [hrest] at hend

theorem topLevel (n : Nat) : S.Tracks 0 n (Stmt.shiftAll S.shift) (Grammar.topLevel n)
    (Grammar.topLevel (n + S.spare)) := by
  induction n with
  | zero => exact atZero Grammar.topLevel (.pure 0 (Stmt.shiftAll S.shift) [])
  | succ n ih =>
    obtain ⟨hinner, hbody⟩ := statement_declarations (S := S) n
    have hd := (declaring hinner hbody).recovering
    rw [Nat.add_right_comm] at hd ⊢
    apply (atEnd _).unlessEnd _ (.pure _ (Stmt.shiftAll S.shift) []) (moreDeclarations hd ih)
    intro c
    refine ⟨_, rfl, ?_⟩
    intro hend hrest
    rw [hrest] at hend
    cases hend

end Statements

end Lox.Grammar.Setting.Tracks

namespace Lox.Grammar

/-- The same reading, counted from another start. -/
def Reading.shift (σ : Shift) (r : Reading (List Stmt)) : Reading (List Stmt) where
  result := match r.result with
    | .ok program => .ok (Stmt.shiftAll σ program)
    | .error ds => .error (ds.map (Diagnostic.shift σ))
  nextId := r.nextId + σ.ids

/-- The program that is read and the diagnostics reported do not depend on where identities
and lines are counted from. -/
theorem readProgram_shift (σ : Shift) {ts : List Token} {finish : Token}
    (hts : ∀ t ∈ ts, t.kind ≠ .finish) (hf : finish.kind = .finish) (n : Nat) :
    readProgram (n + σ.ids) (ts.map (Token.shift σ) ++ [finish.shift σ]) =
      (readProgram n (ts ++ [finish])).shift σ := by
  have hts' : ∀ t ∈ ts.map (Token.shift σ), t.kind ≠ .finish := by
    intro t ht
    obtain ⟨u, hu, rfl⟩ := List.mem_map.1 ht
    exact hts u hu
  have hf' : (finish.shift σ).kind = .finish := hf
  let S : Setting := ⟨σ, [], finish.shift σ, #[], 0, True, fun _ => ⟨rfl, rfl⟩⟩
  have hfollows : S.Follows ⟨ts, finish, n, #[]⟩
      ⟨ts.map (Token.shift σ), finish.shift σ, n + σ.ids, #[]⟩ :=
    ⟨(List.append_nil _).symm, rfl, fun _ => rfl, rfl, by simp [S]⟩
  have h : S.Agree 0 (Stmt.shiftAll σ) _ _ _ :=
    Setting.Tracks.topLevel ts.length _ _ (Nat.le_refl _) hfollows
  have hreports {c c' : Cursor} (h : S.Follows c c') :
      c'.reports = c.reports.map (Diagnostic.shift σ) := by
    rw [h.reports]
    exact Array.empty_append
  unfold readProgram Reading.ofStep
  simp only [ofTokens_eq hts hf, ofTokens_eq hts' hf', List.length_map]
  show _ = Reading.shift σ _
  have hfuel : S.spare = 0 := rfl
  rw [hfuel, Nat.add_zero] at h
  generalize topLevel ts.length ⟨ts, finish, n, #[]⟩ = r,
    topLevel ts.length ⟨ts.map (Token.shift σ), finish.shift σ, n + σ.ids, #[]⟩ = r' at h
  cases h with
  | @ok ss d d' hle h =>
    rw [Reading.shift]
    simp only [hreports h, h.nextId]
    cases hempty : d.reports.isEmpty with
    | true => simp [Array.isEmpty_iff.1 hempty, S]
    | false =>
      have hne : d.reports ≠ #[] := fun he => by simp [he] at hempty
      simp [hne, S]
  | error hle h => simp [Reading.shift, hreports h, h.nextId, S]
  | spent _ hx => exact absurd trivial hx
  | spentError _ hx => exact absurd trivial hx

end Lox.Grammar
