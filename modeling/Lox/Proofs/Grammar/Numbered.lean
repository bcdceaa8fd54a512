import Mathlib.Data.List.Perm.Subperm
import Lox.Proofs.Grammar.Step
import Lox.Proofs.Scoping.Identity

/-!
# The identities that reading takes

Whatever comes of a reading, the references in the trees that it builds have different
identities, from the counter's value at its start on and below that at its end. Identities of
references that are dropped on the way are not given back. Main statement: over any sequence of
readings no two references have the same identity, also where a reading fails.
-/

set_option autoImplicit false

namespace Lox.Grammar

theorem Ranged.subperm {n k : Nat} {rs us : List Reference} (h : Ranged n k rs)
    (hs : us.Subperm rs) : Ranged n k us := by
  obtain ⟨vs, hp, hsub⟩ := hs
  have hvs : Ranged n k vs :=
    ⟨h.le, h.nodup.sublist (hsub.map _), fun r hr => h.mem r (hsub.subset hr)⟩
  exact hvs.perm hp

/-- What comes of a step at counter `n` with some references at hand: no identity is given back,
and those held by the result are different, from `j` on. -/
def Held {α : Type} (j n : Nat) (Q : α → List Reference) :
    EStateM.Result Diagnostic Cursor α → Prop
  | .ok a c => n ≤ c.nextId ∧ Ranged j c.nextId (Q a)
  | .error _ c => n ≤ c.nextId

/-- A step that makes, of the references `rs` and of new ones, the references `Q a` of its
result `a`. -/
def Numbers {α : Type} (rs : List Reference) (Q : α → List Reference) (p : Step α) : Prop :=
  ∀ c j, Ranged j c.nextId rs → Held j c.nextId Q (p c)

namespace Numbers

variable {α β : Type} {rs : List Reference} {Q : α → List Reference} {R : β → List Reference}
  {p q : Step α} {u : α → Step β}

/-- References may be dropped and change places. -/
theorem pure {a : α} (h : (Q a).Subperm rs) : Numbers rs Q (Pure.pure a) :=
  fun _ _ hrs => ⟨Nat.le_refl _, hrs.subperm h⟩

theorem bind (hp : Numbers rs Q p) (hu : ∀ a, Numbers (Q a) R (u a)) : Numbers rs R (p >>= u) := by
  intro c j hrs
  have h := hp c j hrs
  rw [bind_apply]
  cases hpc : p c with
  | error d c' =>
    rw [hpc] at h
    exact h
  | ok a c' =>
    rw [hpc] at h
    have h' := hu a c' j h.2
    dsimp only
    cases huc : u a c' with
    | error d c'' =>
      rw [huc] at h'
      exact Nat.le_trans h.1 h'
    | ok b c'' =>
      rw [huc] at h'
      exact ⟨Nat.le_trans h.1 h'.1, h'.2⟩

/-- What a step makes of nothing stands beside the references at hand. -/
theorem beside (hp : Numbers [] Q p) (rs : List Reference) :
    Numbers rs (fun a => rs ++ Q a) p := by
  intro c j hrs
  have h := hp c c.nextId (.nil (Nat.le_refl _))
  cases hpc : p c with
  | error d c' =>
    rw [hpc] at h
    exact h
  | ok a c' =>
    rw [hpc] at h
    exact ⟨h.1, hrs.append h.2⟩

theorem map {f : α → β} (hp : Numbers rs Q p) (hf : ∀ a, (R (f a)).Subperm (Q a)) :
    Numbers rs R (f <$> p) := by
  rw [map_eq_pure_bind]
  exact hp.bind fun a => pure (hf a)

theorem ite {c : Prop} [Decidable c] (hp : Numbers rs Q p) (hq : Numbers rs Q q) :
    Numbers rs Q (if c then p else q) := by
  split
  · exact hp
  · exact hq

theorem fail (cause : ParseCause) : Numbers rs Q (Grammar.fail cause) :=
  fun _ _ _ => Nat.le_refl _

theorem report (d : Diagnostic) : Numbers rs (fun _ => rs) (Grammar.report d) :=
  fun _ _ hrs => ⟨Nat.le_refl _, hrs⟩

theorem limit (cause : ParseCause) (count : Nat) :
    Numbers rs (fun _ => rs) (Grammar.limit cause count) :=
  ite (fun _ _ hrs => ⟨Nat.le_refl _, hrs⟩) (pure (.refl _))

/-- A new reference takes the identity that the counter is at. -/
theorem reference (t : Token) : Numbers rs (fun r => rs ++ [r]) (Grammar.reference t) :=
  fun c _ hrs => ⟨Nat.le_succ _, hrs.append (.single c.nextId t)⟩

theorem atEnd : Numbers rs (fun _ => rs) Grammar.atEnd := fun _ _ hrs => ⟨Nat.le_refl _, hrs⟩

theorem nextIs (k : Kind) : Numbers rs (fun _ => rs) (Grammar.nextIs k) :=
  fun _ _ hrs => ⟨Nat.le_refl _, hrs⟩

theorem endsBlock : Numbers rs (fun _ => rs) Grammar.endsBlock :=
  (nextIs _).bind fun _ => atEnd.bind fun _ => pure (.refl _)

theorem acceptIf (s : Kind → Bool) : Numbers rs (fun _ => rs) (Grammar.acceptIf s) := by
  intro c j hrs
  unfold Grammar.acceptIf
  split
  · split
    · exact ⟨Nat.le_refl _, hrs⟩
    · exact ⟨Nat.le_refl _, hrs⟩
  · exact ⟨Nat.le_refl _, hrs⟩

/-- A choice by the next token. -/
theorem taking {s : Kind → Bool} {u : Option Token → Step α}
    (hyes : ∀ t, Numbers rs Q (u (some t))) (hno : Numbers rs Q (u none)) :
    Numbers rs Q (Grammar.acceptIf s >>= u) := by
  apply (acceptIf s).bind
  intro o
  cases o with
  | some t => exact hyes t
  | none => exact hno

theorem accept (k : Kind) : Numbers rs (fun _ => rs) (Grammar.accept k) :=
  (acceptIf _).bind fun _ => pure (.refl _)

theorem expect (e : Expectation) : Numbers rs (fun _ => rs) (Grammar.expect e) :=
  taking (fun _ => pure (.refl _)) (fail _)

theorem accepting (k : Kind) (hp : Numbers rs Q p) (hq : Numbers rs Q q) :
    Numbers rs Q (do if ← Grammar.accept k then p else q) := (accept k).bind fun _ => ite hp hq

theorem ifNext (k : Kind) (hp : Numbers rs Q p) (hq : Numbers rs Q q) :
    Numbers rs Q (do if ← Grammar.nextIs k then p else q) := (nextIs k).bind fun _ => ite hp hq

/-- Behind a fault nothing of what was read is held. -/
theorem recovering {Q : Option α → List Reference} (hp : Numbers rs (fun a => Q (some a)) p)
    (hnone : (Q none).Subperm rs) : Numbers rs Q (Grammar.recovering p) := by
  intro c j hrs
  have h := hp c j hrs
  rw [recovering_apply]
  cases hpc : p c with
  | ok a c' =>
    rw [hpc] at h
    exact h
  | error d c' =>
    rw [hpc] at h
    exact ⟨h, (hrs.extend h).subperm hnone⟩

section Expressions

variable {inner : Step Expr} (hinner : Numbers [] Expr.references inner)

theorem superAccess (t : Token) : Numbers [] Expr.references (Grammar.superAccess t) :=
  (expect _).bind fun _ => (expect _).bind fun _ => (reference t).bind fun _ =>
    pure (.refl _)

include hinner

theorem primaryOf {t : Token} {p : Step Expr} (h : Grammar.primaryOf inner t = some p) :
    Numbers [] Expr.references p := by
  have hgroup : Numbers [] Expr.references (group inner) :=
    hinner.bind fun e => (expect _).bind fun _ => pure (.refl _)
  unfold Grammar.primaryOf at h
  split at h <;> cases h
  case h_6 => exact superAccess t
  case h_7 | h_8 => exact (reference t).bind fun r => pure (.refl _)
  case h_9 => exact hgroup
  all_goals exact pure (.refl _)

theorem primary : Numbers [] Expr.references (Grammar.primary inner) := by
  intro c j hc
  unfold Grammar.primary
  split
  · exact fail _ c j hc
  · split
    · rename_i hp
      exact primaryOf hinner hp _ j hc
    · exact fail _ c j hc

theorem argumentsFrom (n count : Nat) :
    Numbers [] Expr.allReferences (Grammar.argumentsFrom inner n count) := by
  have hone (e : Expr) : (Expr.allReferences [e]).Subperm e.references :=
    (List.Perm.of_eq (List.append_nil e.references)).subperm
  induction n generalizing count with
  | zero => exact (limit _ _).bind fun _ => hinner.bind fun e => pure (hone e)
  | succ n ih =>
    exact (limit _ _).bind fun _ => hinner.bind fun e =>
      accepting _ (((ih _).beside _).bind fun es => pure (.refl _)) (pure (hone e))

theorem callArguments (n : Nat) :
    Numbers [] (fun r : List Expr × Token => Expr.allReferences r.1)
      (Grammar.callArguments inner n) := by
  rw [callArguments_eq]
  have hnone : Numbers [] Expr.allReferences (Pure.pure []) := pure (.refl _)
  exact (ifNext _ hnone (argumentsFrom hinner n 0)).bind fun _ =>
    (expect _).bind fun _ => pure (.refl _)

theorem suffixes (n : Nat) (e : Expr) :
    Numbers e.references Expr.references (Grammar.suffixes inner n e) := by
  induction n generalizing e with
  | zero => exact pure (.refl _)
  | succ n ih =>
    exact accepting _ (((callArguments hinner n).beside _).bind fun r => ih (.call e r.2 r.1))
      (accepting _ ((expect _).bind fun x => ih (.get e x)) (pure (.refl _)))

theorem call (n : Nat) : Numbers [] Expr.references (Grammar.call inner n) :=
  (primary hinner).bind fun e => suffixes hinner n e

omit hinner in
theorem unaryOperators (n : Nat) : Numbers rs (fun _ => rs) (Grammar.unaryOperators n) := by
  induction n with
  | zero => exact pure (.refl _)
  | succ n ih =>
    exact taking (fun _ => ih.bind fun _ => pure (.refl _))
      (pure (.refl _))

theorem unary (n : Nat) : Numbers [] Expr.references (Grammar.unary inner n) := by
  refine (unaryOperators n).bind fun ops => (call hinner n).bind fun e => pure ?_
  have hops : (ops.foldr Expr.unary e).references = e.references := by
    induction ops with
    | nil => rfl
    | cons op ops ih => exact ih
  rw [hops]

omit hinner in
theorem leftChain {s : Kind → Bool} {join : Expr → Token → Expr → Expr} {p : Step Expr}
    (hjoin : ∀ l op r, (join l op r).references = l.references ++ r.references)
    (hp : Numbers [] Expr.references p) (n : Nat) (e : Expr) :
    Numbers e.references Expr.references (Grammar.leftChain s join p n e) := by
  induction n generalizing e with
  | zero => exact pure (.refl _)
  | succ n ih =>
    refine taking (fun op => (hp.beside _).bind fun r => ?_) (pure (.refl _))
    rw [← hjoin e op r]
    exact ih _

omit hinner in
theorem level {s : Kind → Bool} {join : Expr → Token → Expr → Expr} {p : Step Expr}
    (hjoin : ∀ l op r, (join l op r).references = l.references ++ r.references)
    (hp : Numbers [] Expr.references p) (n : Nat) :
    Numbers [] Expr.references (Grammar.level s join p n) :=
  hp.bind fun e => leftChain hjoin hp n e

theorem logicOr (n : Nat) : Numbers [] Expr.references (Grammar.logicOr inner n) := by
  have hbinary (l : Expr) (op : Token) (r : Expr) :
      (Expr.binary l op r).references = l.references ++ r.references := rfl
  have hlogical (l : Expr) (op : Token) (r : Expr) :
      (Expr.logical l op r).references = l.references ++ r.references := rfl
  have hterm := level (s := isTermOperator) hbinary
    (level (s := isFactorOperator) hbinary (unary hinner n) n) n
  have hequality := level (s := isEqualityOperator) hbinary
    (level (s := isComparisonOperator) hbinary hterm n) n
  exact level hlogical (level hlogical hequality n) n

/-- A variable that turns out to be assigned to gets a new identity, and the value of an invalid
assignment is dropped. -/
theorem assignment (n : Nat) : Numbers [] Expr.references (Grammar.assignment inner n) := by
  apply (logicOr hinner n).bind
  intro target
  have hstop : Numbers target.references Expr.references (Pure.pure target) :=
    pure (.refl _)
  apply taking _ hstop
  intro equals
  apply (hinner.beside target.references).bind
  intro value
  have hdropped : Numbers (target.references ++ value.references) Expr.references
      (do Grammar.report (Grammar.fault .invalidTarget equals); Pure.pure target) :=
    (report _).bind fun _ => pure (List.sublist_append_left _ _).subperm
  cases target with
  | var r => exact (reference _).bind fun r' => pure (List.sublist_append_right [r] _).subperm
  | get e x => exact pure List.perm_append_comm.subperm
  | _ => exact hdropped

end Expressions

theorem expression (n : Nat) : Numbers [] Expr.references (Grammar.expression n) := by
  induction n with
  | zero => exact fail _
  | succ n ih => exact assignment ih (n + 1)

section Statements

variable {expr : Step Expr} {inner : Step Stmt} {body : Step (List Stmt)}
  (hexpr : Numbers [] Expr.references expr) (hinner : Numbers [] Stmt.references inner)
  (hbody : Numbers [] Stmt.allReferences body)

theorem parametersFrom (n count : Nat) :
    Numbers rs (fun _ => rs) (Grammar.parametersFrom n count) := by
  induction n generalizing count with
  | zero =>
    exact (limit _ _).bind fun _ => (expect _).bind fun _ => pure (.refl _)
  | succ n ih =>
    exact (limit _ _).bind fun _ => (expect _).bind fun _ =>
      accepting _ ((ih _).bind fun _ => pure (.refl _))
        (pure (.refl _))

theorem closedBy (hbody : Numbers [] Stmt.allReferences body) :
    Numbers [] Stmt.allReferences (Grammar.closedBy body) :=
  hbody.bind fun _ => (expect _).bind fun _ => pure (.refl _)

theorem routine (hbody : Numbers [] Stmt.allReferences body) (r : Routine) (n : Nat) :
    Numbers [] Function.references (Grammar.routine r body n) := by
  rw [routine_eq]
  have hnone : Numbers [] (fun _ : List Token => []) (Pure.pure []) := pure (.refl _)
  exact (expect _).bind fun _ => (expect _).bind fun _ =>
    (ifNext _ hnone (parametersFrom n 0)).bind fun _ => (expect _).bind fun _ =>
    (expect _).bind fun _ => (closedBy hbody).bind fun ss =>
    pure (.refl _)

theorem methods (hbody : Numbers [] Stmt.allReferences body) (n : Nat) :
    Numbers [] Function.allReferences (Grammar.methods body n) := by
  have hnone : Numbers [] Function.allReferences (Pure.pure []) := pure (.refl _)
  induction n with
  | zero => exact hnone
  | succ n ih =>
    exact endsBlock.bind fun _ => ite hnone
      ((routine hbody .method n).bind fun f => (ih.beside _).bind fun fs =>
        pure (.refl _))

theorem superclass : Numbers [] Option.toList Grammar.superclass := by
  apply accepting _ _ (pure (.refl []))
  exact (expect _).bind fun x => (reference x).bind fun r => pure (.refl _)

theorem classDeclaration (hbody : Numbers [] Stmt.allReferences body) (n : Nat) :
    Numbers [] Stmt.references (Grammar.classDeclaration body n) :=
  (expect _).bind fun _ => superclass.bind fun _ => (expect _).bind fun _ =>
    ((methods hbody n).beside _).bind fun _ => (expect _).bind fun _ =>
    pure (.refl _)

include hexpr

/-- An expression that may be missing. -/
theorem unlessNext (k : Kind) : Numbers [] optionReferences (Grammar.unlessNext k expr) :=
  ifNext k (pure (.refl _)) (hexpr.bind fun _ => pure (.refl _))

theorem varDeclaration : Numbers [] Stmt.references (Grammar.varDeclaration expr) := by
  rw [varDeclaration_eq]
  have hnone : Numbers [] optionReferences (Pure.pure none) := pure (.refl _)
  have hsome : Numbers [] optionReferences (some <$> expr) :=
    hexpr.map fun e => .refl _
  exact (expect _).bind fun _ => (accepting _ hsome hnone).bind fun e =>
    (expect _).bind fun _ => pure (.refl _)

theorem expressionStatement : Numbers [] Stmt.references (Grammar.expressionStatement expr) :=
  hexpr.bind fun _ => (expect _).bind fun _ => pure (.refl _)

theorem printStatement : Numbers [] Stmt.references (Grammar.printStatement expr) :=
  hexpr.bind fun _ => (expect _).bind fun _ => pure (.refl _)

theorem returnStatement (t : Token) :
    Numbers [] Stmt.references (Grammar.returnStatement t expr) :=
  (unlessNext hexpr _).bind fun _ => (expect _).bind fun _ =>
    pure (.refl _)

theorem forInitializer : Numbers [] Stmt.optionReferences (Grammar.forInitializer expr) := by
  apply accepting _ (pure (.refl []))
  apply accepting
  · exact (varDeclaration hexpr).map fun s => .refl _
  · exact (expressionStatement hexpr).map fun s => .refl _

include hinner

theorem ifStatement : Numbers [] Stmt.references (Grammar.ifStatement expr inner) := by
  rw [ifStatement_eq]
  have hnone : Numbers [] Stmt.optionReferences (Pure.pure none) := pure (.refl _)
  have hsome : Numbers [] Stmt.optionReferences (some <$> inner) :=
    hinner.map fun s => .refl _
  exact (expect _).bind fun _ => hexpr.bind fun e => (expect _).bind fun _ =>
    (hinner.beside _).bind fun yes => ((accepting _ hsome hnone).beside _).bind fun no =>
    pure (.refl _)

theorem whileStatement : Numbers [] Stmt.references (Grammar.whileStatement expr inner) :=
  (expect _).bind fun _ => hexpr.bind fun _ => (expect _).bind fun _ =>
    (hinner.beside _).bind fun _ => pure (.refl _)

theorem forStatement : Numbers [] Stmt.references (Grammar.forStatement expr inner) := by
  refine (expect _).bind fun _ => (forInitializer hexpr).bind fun i =>
    ((unlessNext hexpr _).beside _).bind fun condition => (expect _).bind fun _ =>
    ((unlessNext hexpr _).beside _).bind fun increment => (expect _).bind fun _ =>
    (hinner.beside _).bind fun s => pure ?_
  rw [List.append_assoc]
  exact references_forLoop.symm.subperm

include hbody

theorem statementWith : Numbers [] Stmt.references (Grammar.statementWith expr inner body) := by
  apply accepting _ (forStatement hexpr hinner)
  apply accepting _ (ifStatement hexpr hinner)
  apply accepting _ (printStatement hexpr)
  apply taking (fun t => returnStatement hexpr t)
  apply accepting _ (whileStatement hexpr hinner)
  exact accepting _
    ((closedBy hbody).bind fun ss => pure (.refl _))
    (expressionStatement hexpr)

omit hexpr in
theorem declarationWith (n : Nat) :
    Numbers [] Stmt.optionReferences (Grammar.declarationWith n inner body) := by
  have hexpr := expression n
  have hfunction : Numbers [] Stmt.references (Stmt.function <$> Grammar.routine .function body n) :=
    (routine hbody .function n).map fun f => .refl _
  have hdeclaration : Numbers [] Stmt.references (declaring n inner body) := by
    apply accepting _ (classDeclaration hbody n)
    apply accepting _ hfunction
    exact accepting _ (varDeclaration hexpr) (statementWith hexpr hinner hbody)
  exact recovering hdeclaration (.refl _)

omit hexpr in
/-- A declaration, if one was read, and those behind it. -/
theorem further {p : Step (List Stmt)} (hp : Numbers [] Stmt.allReferences p) (n : Nat) :
    Numbers [] Stmt.allReferences
      (do let s ← Grammar.declarationWith n inner body; return s.toList ++ (← p)) := by
  refine (declarationWith hinner hbody n).bind fun s => (hp.beside _).bind fun ss => pure ?_
  cases s <;> exact .refl _

end Statements

theorem statement_declarations (n : Nat) :
    Numbers [] Stmt.references (Grammar.statement n) ∧
      Numbers [] Stmt.allReferences (Grammar.declarations n) := by
  have hnone : Numbers [] Stmt.allReferences (Pure.pure []) := pure (.refl _)
  induction n with
  | zero => exact ⟨fail _, hnone⟩
  | succ n ih =>
    obtain ⟨hinner, hbody⟩ := ih
    exact ⟨statementWith (expression _) hinner hbody,
      endsBlock.bind fun _ => ite hnone (further hinner hbody hbody _)⟩

theorem topLevel (n : Nat) : Numbers [] Stmt.allReferences (Grammar.topLevel n) := by
  have hnone : Numbers [] Stmt.allReferences (Pure.pure []) := pure (.refl _)
  induction n with
  | zero => exact hnone
  | succ n ih =>
    obtain ⟨hinner, hbody⟩ := statement_declarations n
    exact atEnd.bind fun _ => ite hnone (further hinner hbody ih _)

end Numbers

/-- The declarations that reading a program collects, also if it fails because of others. -/
def programTree (n : Nat) (ts : List Token) : List Stmt :=
  let c := Cursor.ofTokens n ts
  match topLevel c.rest.length c with
  | .ok ss _ => ss
  | .error .. => []

/-- The expression that a reading comes to, also if it fails because of what is behind. -/
def expressionTree (n : Nat) (ts : List Token) : Option Expr :=
  let c := Cursor.ofTokens n ts
  match expression c.rest.length c with
  | .ok e _ => some e
  | .error .. => none

theorem programTree_of_ok {n : Nat} {ts : List Token} {program : List Stmt}
    (h : (readProgram n ts).result = .ok program) : programTree n ts = program := by
  unfold readProgram Reading.ofStep at h
  unfold programTree
  dsimp only at h ⊢
  split at h
  · rename_i hr
    rw [hr]
    dsimp only at h
    split at h
    · exact Except.ok.inj h
    · cases h
  · cases h

theorem wholeExpression_apply (n : Nat) (c : Cursor) :
    wholeExpression n c = match expression n c with
      | .ok e c' => if c'.rest.isEmpty then .ok e c' else .error (fault .leftover c'.peek) c'
      | .error d c' => .error d c' := by
  unfold wholeExpression
  rw [bind_apply]
  cases expression n c with
  | error d c' => rfl
  | ok e c' =>
    show (if c'.rest.isEmpty = true then pure e else Grammar.fail .leftover : Step Expr) c' =
      if c'.rest.isEmpty then .ok e c' else .error (fault .leftover c'.peek) c'
    cases c'.rest.isEmpty <;> rfl

theorem expressionTree_of_ok {n : Nat} {ts : List Token} {e : Expr}
    (h : (readExpression n ts).result = .ok e) : expressionTree n ts = some e := by
  unfold readExpression Reading.ofStep at h
  unfold expressionTree
  dsimp only at h ⊢
  rw [wholeExpression_apply] at h
  generalize expression _ (Cursor.ofTokens n ts) = r at h
  cases r with
  | error d c => cases h
  | ok e' c =>
    dsimp only at h ⊢
    split at h
    · rename_i hr
      split at hr
      · cases hr
        split at h
        · exact congrArg some (Except.ok.inj h)
        · cases h
      · cases hr
    · cases h

/-- A reading of tokens. -/
inductive Parse where
  | program (ts : List Token)
  | expression (ts : List Token)

namespace Parse

/-- The references in the trees that are built when the counter is at `n`. -/
def references (n : Nat) : Parse → List Reference
  | program ts => Stmt.allReferences (programTree n ts)
  | expression ts => optionReferences (expressionTree n ts)

/-- Where the counter is at the end. -/
def next (n : Nat) : Parse → Nat
  | program ts => (readProgram n ts).nextId
  | expression ts => (readExpression n ts).nextId

theorem ranged (n : Nat) (p : Parse) : Ranged n (p.next n) (p.references n) := by
  have hstart (ts : List Token) : Ranged n (Cursor.ofTokens n ts).nextId [] := .nil (Nat.le_refl n)
  cases p with
  | program ts =>
    have h := Numbers.topLevel (Cursor.ofTokens n ts).rest.length (Cursor.ofTokens n ts) n (hstart ts)
    unfold next references programTree readProgram Reading.ofStep
    dsimp only
    generalize Grammar.topLevel _ (Cursor.ofTokens n ts) = r at h
    cases r with
    | ok ss c => exact h.2
    | error d c => exact .nil h
  | expression ts =>
    have h := Numbers.expression (Cursor.ofTokens n ts).rest.length (Cursor.ofTokens n ts) n (hstart ts)
    unfold next references expressionTree readExpression Reading.ofStep
    dsimp only
    rw [wholeExpression_apply]
    generalize Grammar.expression _ (Cursor.ofTokens n ts) = r at h
    cases r with
    | error d c => exact .nil h
    | ok e c =>
      dsimp only
      cases c.rest.isEmpty <;> exact h.2

/-- Readings one after another, each with the value of the counter when it starts. -/
def started : Nat → List Parse → List (Nat × Parse)
  | _, [] => []
  | n, p :: ps => (n, p) :: started (p.next n) ps

/-- All references in the trees of readings one after another. -/
def allReferences (n : Nat) (ps : List Parse) : List Reference :=
  (started n ps).flatMap fun (k, p) => p.references k

theorem ranged_all (n : Nat) (ps : List Parse) :
    Ranged n (ps.foldl next n) (allReferences n ps) := by
  induction ps generalizing n with
  | nil => exact .nil (Nat.le_refl n)
  | cons p ps ih => exact (p.ranged n).append (ih (p.next n))

end Parse

end Lox.Grammar
