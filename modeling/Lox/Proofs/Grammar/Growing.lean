import Lox.Proofs.Grammar.Step

/-!
# Nothing reported is taken back

Whatever a step does, what was reported before it stays reported, in front of what it
reports, and each report says which cause it is and at which token. A fault that stops a
step counts as reported by it.
-/

set_option autoImplicit false

namespace Lox.Grammar

variable {α β : Type}

/-- All that is reported once a step has come to this result. -/
def reported : EStateM.Result Diagnostic Cursor α → List Diagnostic
  | .ok _ c => c.reports.toList
  | .error d c => c.reports.toList ++ [d]

/-- Diagnostics as parsing finds them, each with a cause and a token. -/
def Faults (ds : List Diagnostic) : Prop := ∀ d ∈ ds, ∃ cause t, d = fault cause t

theorem faults_singleton (cause : ParseCause) (t : Token) : Faults [fault cause t] :=
  fun _ hd => ⟨cause, t, List.mem_singleton.1 hd⟩

def Grows (p : Step α) : Prop :=
  ∀ c, ∃ new, reported (p c) = c.reports.toList ++ new ∧ Faults new

namespace Grows

variable {p q : Step α} {u : α → Step β}

/-- A step that reports nothing. -/
theorem silent {c : Cursor} {r : EStateM.Result Diagnostic Cursor α}
    (h : reported r = c.reports.toList) : ∃ new, reported r = c.reports.toList ++ new ∧ Faults new :=
  ⟨[], h.trans (List.append_nil _).symm, nofun⟩

theorem pure (a : α) : Grows (Pure.pure a) := fun _ => silent rfl

theorem bind (hp : Grows p) (hu : ∀ a, Grows (u a)) : Grows (p >>= u) := by
  intro c
  obtain ⟨new, hnew, hfaults⟩ := hp c
  rw [bind_apply]
  cases hpc : p c with
  | error d c' =>
    rw [hpc] at hnew
    exact ⟨new, hnew, hfaults⟩
  | ok a c' =>
    rw [hpc] at hnew
    obtain ⟨more, hmore, hothers⟩ := hu a c'
    have hnew : c'.reports.toList = c.reports.toList ++ new := hnew
    refine ⟨new ++ more, ?_, List.forall_mem_append.2 ⟨hfaults, hothers⟩⟩
    rw [hmore, hnew, List.append_assoc]

theorem map (hp : Grows p) (f : α → β) : Grows (f <$> p) := by
  rw [map_eq_pure_bind]
  exact hp.bind fun _ => pure _

theorem ite {c : Prop} [Decidable c] (hp : Grows p) (hq : Grows q) :
    Grows (if c then p else q) := by
  split
  · exact hp
  · exact hq

theorem fail (cause : ParseCause) : Grows (Grammar.fail cause : Step α) :=
  fun _ => ⟨[_], rfl, faults_singleton _ _⟩

theorem report (cause : ParseCause) (t : Token) : Grows (Grammar.report (fault cause t)) :=
  fun _ => ⟨[_], Array.toList_push, faults_singleton _ _⟩

theorem reportHere (cause : ParseCause) : Grows (Grammar.reportHere cause) :=
  fun _ => ⟨[_], Array.toList_push, faults_singleton _ _⟩

theorem limit (cause : ParseCause) (count : Nat) : Grows (Grammar.limit cause count) :=
  ite (reportHere cause) (pure ())

theorem reference (t : Token) : Grows (Grammar.reference t) := fun _ => silent rfl

theorem atEnd : Grows Grammar.atEnd := fun _ => silent rfl

theorem nextIs (k : Kind) : Grows (Grammar.nextIs k) := fun _ => silent rfl

theorem endsBlock : Grows Grammar.endsBlock :=
  (nextIs _).bind fun _ => atEnd.bind fun _ => pure _

theorem acceptIf (s : Kind → Bool) : Grows (Grammar.acceptIf s) := by
  intro c
  apply silent
  unfold Grammar.acceptIf
  split
  · split <;> rfl
  · rfl

/-- A choice by the next token. -/
theorem taking {s : Kind → Bool} {u : Option Token → Step α} (hyes : ∀ t, Grows (u (some t)))
    (hno : Grows (u none)) : Grows (Grammar.acceptIf s >>= u) := by
  apply (acceptIf s).bind
  intro o
  cases o with
  | some t => exact hyes t
  | none => exact hno

theorem accept (k : Kind) : Grows (Grammar.accept k) := (acceptIf _).bind fun _ => pure _

theorem expect (e : Expectation) : Grows (Grammar.expect e) := taking pure (fail _)

theorem accepting (k : Kind) (hp : Grows p) (hq : Grows q) :
    Grows (do if ← Grammar.accept k then p else q) := (accept k).bind fun _ => ite hp hq

theorem ifNext (k : Kind) (hp : Grows p) (hq : Grows q) :
    Grows (do if ← Grammar.nextIs k then p else q) := (nextIs k).bind fun _ => ite hp hq

theorem reported_recovering (p : Step α) (c : Cursor) :
    reported (Grammar.recovering p c) = reported (p c) := by
  rw [recovering_apply]
  cases p c with
  | ok a c' => rfl
  | error d c' => exact Array.toList_push

theorem recovering (hp : Grows p) : Grows (Grammar.recovering p) := by
  intro c
  rw [reported_recovering]
  exact hp c

section Expressions

variable {inner : Step Expr} (hinner : Grows inner)

theorem superAccess (t : Token) : Grows (Grammar.superAccess t) :=
  (expect _).bind fun _ => (expect _).bind fun _ => (reference t).bind fun _ => pure _

include hinner

theorem primaryOf {t : Token} {p : Step Expr} (h : Grammar.primaryOf inner t = some p) :
    Grows p := by
  have hgroup : Grows (group inner) := hinner.bind fun _ => (expect _).bind fun _ => pure _
  unfold Grammar.primaryOf at h
  split at h <;> cases h
  case h_6 => exact superAccess t
  case h_7 | h_8 => exact (reference t).bind fun _ => pure _
  case h_9 => exact hgroup
  all_goals exact pure _

theorem primary : Grows (Grammar.primary inner) := by
  intro c
  unfold Grammar.primary
  split
  · exact fail _ c
  · split
    · rename_i hp
      exact primaryOf hinner hp _
    · exact fail _ c

theorem argumentsFrom (n count : Nat) : Grows (Grammar.argumentsFrom inner n count) := by
  induction n generalizing count with
  | zero => exact (limit _ _).bind fun _ => hinner.bind fun _ => pure _
  | succ n ih =>
    exact (limit _ _).bind fun _ => hinner.bind fun _ =>
      accepting _ ((ih _).bind fun _ => pure _) (pure _)

theorem callArguments (n : Nat) : Grows (Grammar.callArguments inner n) := by
  rw [callArguments_eq]
  exact (ifNext _ (pure _) (argumentsFrom hinner n 0)).bind fun _ => (expect _).bind fun _ => pure _

theorem suffixes (n : Nat) (e : Expr) : Grows (Grammar.suffixes inner n e) := by
  induction n generalizing e with
  | zero => exact pure e
  | succ n ih =>
    exact accepting _ ((callArguments hinner n).bind fun _ => ih _)
      (accepting _ ((expect _).bind fun _ => ih _) (pure e))

theorem call (n : Nat) : Grows (Grammar.call inner n) :=
  (primary hinner).bind fun _ => suffixes hinner n _

omit hinner in
theorem unaryOperators (n : Nat) : Grows (Grammar.unaryOperators n) := by
  induction n with
  | zero => exact pure _
  | succ n ih => exact taking (fun _ => ih.bind fun _ => pure _) (pure _)

theorem unary (n : Nat) : Grows (Grammar.unary inner n) :=
  (unaryOperators n).bind fun _ => (call hinner n).bind fun _ => pure _

omit hinner in
theorem leftChain {s : Kind → Bool} {join : Expr → Token → Expr → Expr} {p : Step Expr}
    (hp : Grows p) (n : Nat) (e : Expr) : Grows (Grammar.leftChain s join p n e) := by
  induction n generalizing e with
  | zero => exact pure e
  | succ n ih => exact taking (fun _ => hp.bind fun _ => ih _) (pure e)

omit hinner in
theorem level {s : Kind → Bool} {join : Expr → Token → Expr → Expr} {p : Step Expr}
    (hp : Grows p) (n : Nat) : Grows (Grammar.level s join p n) :=
  hp.bind fun _ => leftChain hp n _

theorem logicOr (n : Nat) : Grows (Grammar.logicOr inner n) :=
  level (level (level (level (level (level (unary hinner n) n) n) n) n) n) n

theorem assignment (n : Nat) : Grows (Grammar.assignment inner n) := by
  apply (logicOr hinner n).bind
  intro target
  apply taking _ (pure target)
  intro equals
  apply hinner.bind
  intro value
  cases target with
  | var r => exact (reference r.name).bind fun _ => pure _
  | get => exact pure _
  | _ => exact (report _ _).bind fun _ => pure _

end Expressions

theorem expression (n : Nat) : Grows (Grammar.expression n) := by
  induction n with
  | zero => exact fail _
  | succ n ih => exact assignment ih (n + 1)

section Statements

variable {expr : Step Expr} {inner : Step Stmt} {body : Step (List Stmt)} (hexpr : Grows expr)
  (hinner : Grows inner) (hbody : Grows body)

theorem parametersFrom (n count : Nat) : Grows (Grammar.parametersFrom n count) := by
  induction n generalizing count with
  | zero => exact (limit _ _).bind fun _ => (expect _).bind fun _ => pure _
  | succ n ih =>
    exact (limit _ _).bind fun _ => (expect _).bind fun _ =>
      accepting _ ((ih _).bind fun _ => pure _) (pure _)

theorem closedBy (hbody : Grows body) : Grows (Grammar.closedBy body) :=
  hbody.bind fun _ => (expect _).bind fun _ => pure _

theorem routine (hbody : Grows body) (r : Routine) (n : Nat) : Grows (Grammar.routine r body n) := by
  rw [routine_eq]
  exact (expect _).bind fun _ => (expect _).bind fun _ =>
    (ifNext _ (pure _) (parametersFrom n 0)).bind fun _ => (expect _).bind fun _ =>
    (expect _).bind fun _ => (closedBy hbody).bind fun _ => pure _

theorem methods (hbody : Grows body) (n : Nat) : Grows (Grammar.methods body n) := by
  induction n with
  | zero => exact pure _
  | succ n ih =>
    exact endsBlock.bind fun _ => ite (pure _)
      ((routine hbody .method n).bind fun _ => ih.bind fun _ => pure _)

theorem superclass : Grows Grammar.superclass :=
  accepting _ ((expect _).bind fun _ => (reference _).bind fun _ => pure _) (pure _)

theorem classDeclaration (hbody : Grows body) (n : Nat) :
    Grows (Grammar.classDeclaration body n) :=
  (expect _).bind fun _ => superclass.bind fun _ => (expect _).bind fun _ =>
    (methods hbody n).bind fun _ => (expect _).bind fun _ => pure _

include hexpr

theorem unlessNext (k : Kind) : Grows (Grammar.unlessNext k expr) :=
  ifNext k (pure _) (hexpr.bind fun _ => pure _)

theorem varDeclaration : Grows (Grammar.varDeclaration expr) := by
  rw [varDeclaration_eq]
  exact (expect _).bind fun _ => (accepting _ (hexpr.map _) (pure _)).bind fun _ =>
    (expect _).bind fun _ => pure _

theorem expressionStatement : Grows (Grammar.expressionStatement expr) :=
  hexpr.bind fun _ => (expect _).bind fun _ => pure _

theorem forInitializer : Grows (Grammar.forInitializer expr) :=
  accepting _ (pure _) (accepting _ ((varDeclaration hexpr).map _)
    ((expressionStatement hexpr).map _))

include hinner

theorem ifStatement : Grows (Grammar.ifStatement expr inner) := by
  rw [ifStatement_eq]
  exact (expect _).bind fun _ => hexpr.bind fun _ => (expect _).bind fun _ => hinner.bind fun _ =>
    (accepting _ (hinner.map _) (pure _)).bind fun _ => pure _

theorem forStatement : Grows (Grammar.forStatement expr inner) :=
  (expect _).bind fun _ => (forInitializer hexpr).bind fun _ => (unlessNext hexpr _).bind fun _ =>
    (expect _).bind fun _ => (unlessNext hexpr _).bind fun _ => (expect _).bind fun _ =>
    hinner.bind fun _ => pure _

include hbody

theorem statementWith : Grows (Grammar.statementWith expr inner body) := by
  apply accepting _ (forStatement hexpr hinner)
  apply accepting _ (ifStatement hexpr hinner)
  apply accepting _ (hexpr.bind fun _ => (expect _).bind fun _ => pure _)
  apply taking
  · exact fun _ => (unlessNext hexpr _).bind fun _ => (expect _).bind fun _ => pure _
  · apply accepting
    · exact (expect _).bind fun _ => hexpr.bind fun _ => (expect _).bind fun _ =>
        hinner.bind fun _ => pure _
    · exact accepting _ ((closedBy hbody).bind fun _ => pure _) (expressionStatement hexpr)

omit hexpr in
theorem declarationWith (n : Nat) : Grows (Grammar.declarationWith n inner body) := by
  have hexpr := expression n
  apply recovering
  apply accepting _ (classDeclaration hbody n)
  apply accepting _ ((routine hbody .function n).map _)
  exact accepting _ (varDeclaration hexpr) (statementWith hexpr hinner hbody)

end Statements

theorem statement_declarations (n : Nat) :
    Grows (Grammar.statement n) ∧ Grows (Grammar.declarations n) := by
  induction n with
  | zero => exact ⟨fail _, pure _⟩
  | succ n ih =>
    obtain ⟨hinner, hbody⟩ := ih
    refine ⟨statementWith (expression _) hinner hbody, ?_⟩
    exact endsBlock.bind fun _ => ite (pure _)
      ((declarationWith hinner hbody _).bind fun _ => hbody.bind fun _ => pure _)

theorem topLevel (n : Nat) : Grows (Grammar.topLevel n) := by
  induction n with
  | zero => exact pure _
  | succ n ih =>
    obtain ⟨hinner, hbody⟩ := statement_declarations n
    exact atEnd.bind fun _ => ite (pure _)
      ((declarationWith hinner hbody _).bind fun _ => ih.bind fun _ => pure _)

/-- A reading fails with something reported. -/
theorem faults_ofStep {p : Nat → Step α} (hp : ∀ n, Grows (p n)) {n : Nat} {ts : List Token}
    {ds : List Diagnostic} (h : (Reading.ofStep p n ts).result = .error ds) :
    ds ≠ [] ∧ Faults ds := by
  obtain ⟨new, hnew, hfaults⟩ := hp (Cursor.ofTokens n ts).rest.length (Cursor.ofTokens n ts)
  have hnew : reported _ = new := hnew
  unfold Reading.ofStep at h
  dsimp only at h
  generalize p _ (Cursor.ofTokens n ts) = r at h hnew
  cases r with
  | error d c =>
    cases h
    have hlist : (c.reports.push d).toList = new := Array.toList_push.trans hnew
    rw [hlist]
    exact ⟨fun he => by simp [he] at hlist, hfaults⟩
  | ok a c =>
    dsimp only at h
    split at h
    · cases h
    · rename_i hreports
      cases h
      have hlist : c.reports.toList = new := hnew
      rw [hlist]
      refine ⟨fun he => hreports ?_, hfaults⟩
      rw [Array.isEmpty_iff, ← Array.toList_eq_nil_iff, hlist, he]

end Grows

end Lox.Grammar
