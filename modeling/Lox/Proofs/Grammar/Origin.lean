import Lox.Proofs.Grammar.Step

/-!
# Where the tokens of a tree come from

Reading makes no token up. What holds of every token of a list and of the end of the input
holds of every token in the tree that is read, and of the token that a diagnostic is at.
-/

set_option autoImplicit false

namespace Lox

namespace Expr

mutual

/-- All tokens of the expression are in `P`. -/
def Over (P : Token → Prop) : Expr → Prop
  | literal _ => True
  | grouping e => Over P e
  | unary op e => P op ∧ Over P e
  | binary l op r => Over P l ∧ P op ∧ Over P r
  | logical l op r => Over P l ∧ P op ∧ Over P r
  | var r => P r.name
  | assign r e => P r.name ∧ Over P e
  | call f c es => Over P f ∧ P c ∧ AllOver P es
  | get e x => Over P e ∧ P x
  | set e x v => Over P e ∧ P x ∧ Over P v
  | this r => P r.name
  | super r x => P r.name ∧ P x

def AllOver (P : Token → Prop) : List Expr → Prop
  | [] => True
  | e :: es => Over P e ∧ AllOver P es

end

end Expr

mutual

def Stmt.Over (P : Token → Prop) : Stmt → Prop
  | .expression e => e.Over P
  | .print e => e.Over P
  | .var x e => P x ∧ ∀ e' ∈ e, e'.Over P
  | .block ss => Stmt.AllOver P ss
  | .if e yes no => e.Over P ∧ Stmt.Over P yes ∧ Stmt.OptionOver P no
  | .while e s => e.Over P ∧ Stmt.Over P s
  | .function f => Function.Over P f
  | .return t e => P t ∧ ∀ e' ∈ e, e'.Over P
  | .class x r fs => P x ∧ (∀ r' ∈ r, P r'.name) ∧ Function.AllOver P fs

def Stmt.AllOver (P : Token → Prop) : List Stmt → Prop
  | [] => True
  | s :: ss => Stmt.Over P s ∧ Stmt.AllOver P ss

def Stmt.OptionOver (P : Token → Prop) : Option Stmt → Prop
  | none => True
  | some s => Stmt.Over P s

def Function.Over (P : Token → Prop) : Function → Prop
  | .mk x ps ss => P x ∧ (∀ p ∈ ps, P p) ∧ Stmt.AllOver P ss

def Function.AllOver (P : Token → Prop) : List Function → Prop
  | [] => True
  | f :: fs => Function.Over P f ∧ Function.AllOver P fs

end

end Lox

namespace Lox.Grammar

variable {α β : Type} {P : Token → Prop} {Q : α → Prop} {R : β → Prop}

/-- A diagnostic of parsing at one of these tokens. -/
def FaultAt (P : Token → Prop) (d : Diagnostic) : Prop := ∃ cause t, P t ∧ d = fault cause t

/-- All tokens that are left, and those of what was reported, are in `P`. -/
structure Cursor.Over (P : Token → Prop) (c : Cursor) : Prop where
  rest : ∀ t ∈ c.rest, P t
  finish : P c.finish
  reports : ∀ d ∈ c.reports.toList, FaultAt P d

/-- What such tokens come to: a result in `Q`, or a fault at one of them. -/
def Drawn (P : Token → Prop) (Q : α → Prop) : EStateM.Result Diagnostic Cursor α → Prop
  | .ok a c => Q a ∧ c.Over P
  | .error d c => FaultAt P d ∧ c.Over P

/-- A step that draws its result, and what it reports, from such tokens only. -/
def Draws (P : Token → Prop) (Q : α → Prop) (p : Step α) : Prop := ∀ c, c.Over P → Drawn P Q (p c)

theorem Cursor.Over.peek {c : Cursor} (h : c.Over P) : P c.peek := by
  unfold Cursor.peek
  cases hr : c.rest with
  | nil => exact h.finish
  | cons t ts => exact h.rest t (by simp [hr])

theorem Cursor.Over.report {c : Cursor} (h : c.Over P) {cause : ParseCause} {t : Token} (ht : P t) :
    Cursor.Over P { c with reports := c.reports.push (fault cause t) } where
  rest := h.rest
  finish := h.finish
  reports d hd := by
    rw [Array.toList_push, List.mem_append, List.mem_singleton] at hd
    rcases hd with hd | rfl
    · exact h.reports d hd
    · exact ⟨cause, t, ht, rfl⟩

theorem Cursor.Over.drop {c : Cursor} (h : c.Over P) {ts : List Token} (hts : ∀ t ∈ ts, t ∈ c.rest) :
    Cursor.Over P { c with rest := ts } where
  rest t ht := h.rest t (hts t ht)
  finish := h.finish
  reports := h.reports

namespace Draws

variable {p q : Step α} {u : α → Step β}

theorem pure {a : α} (h : Q a) : Draws P Q (Pure.pure a) := fun _ hc => ⟨h, hc⟩

theorem bind (hp : Draws P Q p) (hu : ∀ a, Q a → Draws P R (u a)) : Draws P R (p >>= u) := by
  intro c hc
  have h := hp c hc
  rw [bind_apply]
  cases hpc : p c with
  | error d c' =>
    rw [hpc] at h
    exact h
  | ok a c' =>
    rw [hpc] at h
    exact hu a h.1 c' h.2

theorem map {f : α → β} (hp : Draws P Q p) (hf : ∀ a, Q a → R (f a)) : Draws P R (f <$> p) := by
  rw [map_eq_pure_bind]
  exact hp.bind fun a ha => pure (hf a ha)

theorem ite {c : Prop} [Decidable c] (hp : Draws P Q p) (hq : Draws P Q q) :
    Draws P Q (if c then p else q) := by
  split
  · exact hp
  · exact hq

theorem fail (cause : ParseCause) : Draws P Q (Grammar.fail cause) :=
  fun _ hc => ⟨⟨cause, _, hc.peek, rfl⟩, hc⟩

theorem report (cause : ParseCause) {t : Token} (ht : P t) :
    Draws P (fun _ => True) (Grammar.report (fault cause t)) := fun _ hc => ⟨trivial, hc.report ht⟩

theorem limit (cause : ParseCause) (count : Nat) :
    Draws P (fun _ => True) (Grammar.limit cause count) :=
  ite (fun _ hc => ⟨trivial, hc.report hc.peek⟩) (pure trivial)

theorem reference {t : Token} (ht : P t) :
    Draws P (fun r : Reference => P r.name) (Grammar.reference t) :=
  fun _ hc => ⟨ht, hc.rest, hc.finish, hc.reports⟩

theorem atEnd : Draws P (fun _ => True) Grammar.atEnd := fun _ hc => ⟨trivial, hc⟩

theorem nextIs (k : Kind) : Draws P (fun _ => True) (Grammar.nextIs k) := fun _ hc => ⟨trivial, hc⟩

theorem endsBlock : Draws P (fun _ => True) Grammar.endsBlock :=
  (nextIs _).bind fun _ _ => atEnd.bind fun _ _ => pure trivial

theorem acceptIf (s : Kind → Bool) :
    Draws P (fun o : Option Token => ∀ t ∈ o, P t) (Grammar.acceptIf s) := by
  intro c hc
  unfold Grammar.acceptIf
  split
  · rename_i t ts hr
    have hdrop : Cursor.Over P { c with rest := ts } :=
      hc.drop fun u hu => hr ▸ List.mem_cons_of_mem t hu
    split
    · refine ⟨?_, hdrop⟩
      rintro _ ⟨⟩
      exact hc.rest t (by simp [hr])
    · exact ⟨nofun, hc⟩
  · exact ⟨nofun, hc⟩

/-- A choice by the next token. -/
theorem taking {s : Kind → Bool} {u : Option Token → Step α}
    (hyes : ∀ t, P t → Draws P Q (u (some t))) (hno : Draws P Q (u none)) :
    Draws P Q (Grammar.acceptIf s >>= u) := by
  apply (acceptIf s).bind
  intro o ho
  cases o with
  | some t => exact hyes t (ho t rfl)
  | none => exact hno

theorem accept (k : Kind) : Draws P (fun _ => True) (Grammar.accept k) :=
  (acceptIf _).bind fun _ _ => pure trivial

theorem expect (e : Expectation) : Draws P P (Grammar.expect e) := taking (fun _ => pure) (fail _)

theorem accepting (k : Kind) (hp : Draws P Q p) (hq : Draws P Q q) :
    Draws P Q (do if ← Grammar.accept k then p else q) := (accept k).bind fun _ _ => ite hp hq

theorem ifNext (k : Kind) (hp : Draws P Q p) (hq : Draws P Q q) :
    Draws P Q (do if ← Grammar.nextIs k then p else q) := (nextIs k).bind fun _ _ => ite hp hq

theorem mem_boundary (previous : Token) {ts : List Token} : ∀ t ∈ boundary previous ts, t ∈ ts := by
  induction ts generalizing previous with
  | nil => exact fun _ ht => ht
  | cons u ts ih =>
    intro t ht
    unfold boundary at ht
    split at ht
    · exact ht
    · exact List.mem_cons_of_mem _ (ih u t ht)

theorem synchronize : Draws P (fun _ => True) Grammar.synchronize := by
  intro c hc
  unfold Grammar.synchronize
  split
  · exact ⟨trivial, hc⟩
  · rename_i t ts hr
    exact ⟨trivial, hc.drop fun u hu => hr ▸ List.mem_cons_of_mem t (mem_boundary t u hu)⟩

theorem recovering (hp : Draws P Q p) :
    Draws P (fun o : Option α => ∀ a ∈ o, Q a) (Grammar.recovering p) := by
  intro c hc
  have h := hp c hc
  rw [recovering_apply]
  cases hpc : p c with
  | ok a c' =>
    rw [hpc] at h
    refine ⟨?_, h.2⟩
    rintro _ ⟨⟩
    exact h.1
  | error d c' =>
    rw [hpc] at h
    obtain ⟨⟨cause, t, ht, rfl⟩, hc'⟩ := h
    refine ⟨nofun, (hc'.report ht).drop ?_⟩
    cases hr : c'.rest with
    | nil => exact fun _ hu => hu
    | cons t ts => exact fun u hu => List.mem_cons_of_mem t (mem_boundary t u hu)

section Expressions

variable {inner : Step Expr} (hinner : Draws P (Expr.Over P) inner)

theorem superAccess {t : Token} (ht : P t) : Draws P (Expr.Over P) (Grammar.superAccess t) :=
  (expect _).bind fun _ _ => (expect _).bind fun _ hx => (reference ht).bind fun _ hr =>
    pure ⟨hr, hx⟩

include hinner

theorem primaryOf {t : Token} (ht : P t) {p : Step Expr} (h : Grammar.primaryOf inner t = some p) :
    Draws P (Expr.Over P) p := by
  have hgroup : Draws P (Expr.Over P) (group inner) :=
    hinner.bind fun _ he => (expect _).bind fun _ _ => pure he
  unfold Grammar.primaryOf at h
  split at h <;> cases h
  case h_6 => exact superAccess ht
  case h_7 | h_8 => exact (reference ht).bind fun _ hr => pure hr
  case h_9 => exact hgroup
  all_goals exact pure trivial

theorem primary : Draws P (Expr.Over P) (Grammar.primary inner) := by
  intro c hc
  unfold Grammar.primary
  split
  · exact fail _ c hc
  · rename_i t ts hr
    split
    · rename_i hp
      apply primaryOf hinner (hc.rest t (by simp [hr])) hp
      exact hc.drop fun u hu => hr ▸ List.mem_cons_of_mem t hu
    · exact fail _ c hc

theorem argumentsFrom (n count : Nat) :
    Draws P (Expr.AllOver P) (Grammar.argumentsFrom inner n count) := by
  induction n generalizing count with
  | zero => exact (limit _ _).bind fun _ _ => hinner.bind fun _ he => pure ⟨he, trivial⟩
  | succ n ih =>
    exact (limit _ _).bind fun _ _ => hinner.bind fun _ he =>
      accepting _ ((ih _).bind fun _ hes => pure ⟨he, hes⟩) (pure ⟨he, trivial⟩)

theorem callArguments (n : Nat) :
    Draws P (fun r : List Expr × Token => Expr.AllOver P r.1 ∧ P r.2)
      (Grammar.callArguments inner n) := by
  rw [callArguments_eq]
  have hnone : Draws P (Expr.AllOver P) (Pure.pure []) := pure trivial
  exact (ifNext _ hnone (argumentsFrom hinner n 0)).bind fun _ hes =>
    (expect _).bind fun _ hc => pure ⟨hes, hc⟩

theorem suffixes (n : Nat) {e : Expr} (he : e.Over P) :
    Draws P (Expr.Over P) (Grammar.suffixes inner n e) := by
  induction n generalizing e with
  | zero => exact pure he
  | succ n ih =>
    exact accepting _ ((callArguments hinner n).bind fun _ ha => ih ⟨he, ha.2, ha.1⟩)
      (accepting _ ((expect _).bind fun _ hx => ih ⟨he, hx⟩) (pure he))

theorem call (n : Nat) : Draws P (Expr.Over P) (Grammar.call inner n) :=
  (primary hinner).bind fun _ he => suffixes hinner n he

omit hinner in
theorem unaryOperators (n : Nat) :
    Draws P (fun ops : List Token => ∀ op ∈ ops, P op) (Grammar.unaryOperators n) := by
  induction n with
  | zero => exact pure nofun
  | succ n ih =>
    exact taking (fun _ ht => ih.bind fun _ hops => pure (List.forall_mem_cons.2 ⟨ht, hops⟩))
      (pure nofun)

theorem unary (n : Nat) : Draws P (Expr.Over P) (Grammar.unary inner n) := by
  refine (unaryOperators n).bind fun ops hops => (call hinner n).bind fun e he => pure ?_
  induction ops with
  | nil => exact he
  | cons op ops ih =>
    rw [List.forall_mem_cons] at hops
    exact ⟨hops.1, ih hops.2⟩

omit hinner in
theorem leftChain {s : Kind → Bool} {join : Expr → Token → Expr → Expr} {p : Step Expr}
    (hjoin : ∀ l op r, l.Over P → P op → r.Over P → (join l op r).Over P)
    (hp : Draws P (Expr.Over P) p) (n : Nat) {e : Expr} (he : e.Over P) :
    Draws P (Expr.Over P) (Grammar.leftChain s join p n e) := by
  induction n generalizing e with
  | zero => exact pure he
  | succ n ih =>
    exact taking (fun _ ho => hp.bind fun _ hr => ih (hjoin _ _ _ he ho hr)) (pure he)

omit hinner in
theorem level {s : Kind → Bool} {join : Expr → Token → Expr → Expr} {p : Step Expr}
    (hjoin : ∀ l op r, l.Over P → P op → r.Over P → (join l op r).Over P)
    (hp : Draws P (Expr.Over P) p) (n : Nat) : Draws P (Expr.Over P) (Grammar.level s join p n) :=
  hp.bind fun _ he => leftChain hjoin hp n he

theorem logicOr (n : Nat) : Draws P (Expr.Over P) (Grammar.logicOr inner n) := by
  have hbinary (l : Expr) (op : Token) (r : Expr) (hl : l.Over P) (ho : P op) (hr : r.Over P) :
      (Expr.binary l op r).Over P := ⟨hl, ho, hr⟩
  have hlogical (l : Expr) (op : Token) (r : Expr) (hl : l.Over P) (ho : P op) (hr : r.Over P) :
      (Expr.logical l op r).Over P := ⟨hl, ho, hr⟩
  have hterm := level (s := isTermOperator) hbinary
    (level (s := isFactorOperator) hbinary (unary hinner n) n) n
  have hequality := level (s := isEqualityOperator) hbinary
    (level (s := isComparisonOperator) hbinary hterm n) n
  exact level hlogical (level hlogical hequality n) n

theorem assignment (n : Nat) : Draws P (Expr.Over P) (Grammar.assignment inner n) := by
  apply (logicOr hinner n).bind
  intro target htarget
  have hstop : Draws P (Expr.Over P) (Pure.pure target) := pure htarget
  apply taking _ hstop
  intro equals hequals
  apply hinner.bind
  intro value hvalue
  cases target with
  | var r => exact (reference htarget).bind fun _ hr => pure ⟨hr, hvalue⟩
  | get => exact pure ⟨htarget.1, htarget.2, hvalue⟩
  | _ => exact (report _ hequals).bind fun _ _ => pure htarget

end Expressions

theorem expression (n : Nat) : Draws P (Expr.Over P) (Grammar.expression n) := by
  induction n with
  | zero => exact fail _
  | succ n ih => exact assignment ih (n + 1)

section Statements

variable {expr : Step Expr} {inner : Step Stmt} {body : Step (List Stmt)}
  (hexpr : Draws P (Expr.Over P) expr) (hinner : Draws P (Stmt.Over P) inner)
  (hbody : Draws P (Stmt.AllOver P) body)

theorem parametersFrom (n count : Nat) :
    Draws P (fun ps : List Token => ∀ p ∈ ps, P p) (Grammar.parametersFrom n count) := by
  induction n generalizing count with
  | zero =>
    exact (limit _ _).bind fun _ _ => (expect _).bind fun _ hp => pure (by simpa using hp)
  | succ n ih =>
    exact (limit _ _).bind fun _ _ => (expect _).bind fun _ hp =>
      accepting _ ((ih _).bind fun _ hps => pure (List.forall_mem_cons.2 ⟨hp, hps⟩))
        (pure (by simpa using hp))

theorem closedBy (hbody : Draws P (Stmt.AllOver P) body) :
    Draws P (Stmt.AllOver P) (Grammar.closedBy body) :=
  hbody.bind fun _ hss => (expect _).bind fun _ _ => pure hss

theorem routine (hbody : Draws P (Stmt.AllOver P) body) (r : Routine) (n : Nat) :
    Draws P (Function.Over P) (Grammar.routine r body n) := by
  rw [routine_eq]
  have hnone : Draws P (fun ps : List Token => ∀ p ∈ ps, P p) (Pure.pure []) := pure nofun
  exact (expect _).bind fun _ hx => (expect _).bind fun _ _ =>
    (ifNext _ hnone (parametersFrom n 0)).bind fun _ hps => (expect _).bind fun _ _ =>
    (expect _).bind fun _ _ => (closedBy hbody).bind fun _ hss => pure ⟨hx, hps, hss⟩

theorem methods (hbody : Draws P (Stmt.AllOver P) body) (n : Nat) :
    Draws P (Function.AllOver P) (Grammar.methods body n) := by
  induction n with
  | zero => exact pure trivial
  | succ n ih =>
    exact endsBlock.bind fun _ _ => ite (pure trivial)
      ((routine hbody .method n).bind fun _ hf => ih.bind fun _ hfs => pure ⟨hf, hfs⟩)

theorem superclass :
    Draws P (fun r : Option Reference => ∀ r' ∈ r, P r'.name) Grammar.superclass := by
  apply accepting _ _ (pure nofun)
  exact (expect _).bind fun _ hx => (reference hx).bind fun _ hr => pure (by simpa using hr)

theorem classDeclaration (hbody : Draws P (Stmt.AllOver P) body) (n : Nat) :
    Draws P (Stmt.Over P) (Grammar.classDeclaration body n) :=
  (expect _).bind fun _ hx => superclass.bind fun _ hr => (expect _).bind fun _ _ =>
    (methods hbody n).bind fun _ hms => (expect _).bind fun _ _ => pure ⟨hx, hr, hms⟩

include hexpr

/-- An expression that may be missing. -/
theorem unlessNext (k : Kind) :
    Draws P (fun e : Option Expr => ∀ e' ∈ e, e'.Over P) (Grammar.unlessNext k expr) :=
  ifNext k (pure nofun) (hexpr.bind fun _ he => pure (by simpa using he))

theorem varDeclaration : Draws P (Stmt.Over P) (Grammar.varDeclaration expr) := by
  rw [varDeclaration_eq]
  have hnone : Draws P (fun e : Option Expr => ∀ e' ∈ e, e'.Over P) (Pure.pure none) := pure nofun
  have hsome : Draws P (fun e : Option Expr => ∀ e' ∈ e, e'.Over P) (some <$> expr) :=
    hexpr.map fun _ he => by simpa using he
  exact (expect _).bind fun _ hx => (accepting _ hsome hnone).bind fun _ he =>
    (expect _).bind fun _ _ => pure ⟨hx, he⟩

theorem expressionStatement : Draws P (Stmt.Over P) (Grammar.expressionStatement expr) :=
  hexpr.bind fun _ he => (expect _).bind fun _ _ => pure he

theorem printStatement : Draws P (Stmt.Over P) (Grammar.printStatement expr) :=
  hexpr.bind fun _ he => (expect _).bind fun _ _ => pure he

theorem returnStatement {t : Token} (ht : P t) :
    Draws P (Stmt.Over P) (Grammar.returnStatement t expr) :=
  (unlessNext hexpr _).bind fun _ he => (expect _).bind fun _ _ => pure ⟨ht, he⟩

theorem forInitializer :
    Draws P (fun s : Option Stmt => ∀ s' ∈ s, s'.Over P) (Grammar.forInitializer expr) := by
  apply accepting _ (pure nofun)
  apply accepting
  · exact (varDeclaration hexpr).map fun _ hs => by simpa using hs
  · exact (expressionStatement hexpr).map fun _ hs => by simpa using hs

omit hexpr in
theorem over_forLoop {i : Option Stmt} {condition increment : Option Expr} {s : Stmt}
    (hi : ∀ s' ∈ i, s'.Over P) (hc : ∀ e ∈ condition, e.Over P) (hn : ∀ e ∈ increment, e.Over P)
    (hs : s.Over P) : (forLoop i condition increment s).Over P := by
  have hcondition : (condition.getD (.literal (.bool true))).Over P := by
    cases condition with
    | none => trivial
    | some e => exact hc e rfl
  unfold forLoop
  cases increment with
  | none =>
    cases i with
    | none => exact ⟨hcondition, hs⟩
    | some s' => exact ⟨hi s' rfl, ⟨hcondition, hs⟩, trivial⟩
  | some e =>
    have hbody : (Stmt.block [s, .expression e]).Over P := ⟨hs, hn e rfl, trivial⟩
    cases i with
    | none => exact ⟨hcondition, hbody⟩
    | some s' => exact ⟨hi s' rfl, ⟨hcondition, hbody⟩, trivial⟩

include hinner

theorem ifStatement : Draws P (Stmt.Over P) (Grammar.ifStatement expr inner) := by
  rw [ifStatement_eq]
  have hnone : Draws P (Stmt.OptionOver P) (Pure.pure none) := pure trivial
  have hsome : Draws P (Stmt.OptionOver P) (some <$> inner) := hinner.map fun _ hs => hs
  exact (expect _).bind fun _ _ => hexpr.bind fun _ he => (expect _).bind fun _ _ =>
    hinner.bind fun _ hyes => (accepting _ hsome hnone).bind fun _ hno => pure ⟨he, hyes, hno⟩

theorem whileStatement : Draws P (Stmt.Over P) (Grammar.whileStatement expr inner) :=
  (expect _).bind fun _ _ => hexpr.bind fun _ he => (expect _).bind fun _ _ =>
    hinner.bind fun _ hs => pure ⟨he, hs⟩

theorem forStatement : Draws P (Stmt.Over P) (Grammar.forStatement expr inner) :=
  (expect _).bind fun _ _ => (forInitializer hexpr).bind fun _ hi =>
    (unlessNext hexpr _).bind fun _ hc => (expect _).bind fun _ _ =>
    (unlessNext hexpr _).bind fun _ hn => (expect _).bind fun _ _ =>
    hinner.bind fun _ hs => pure (over_forLoop hi hc hn hs)

include hbody

theorem statementWith : Draws P (Stmt.Over P) (Grammar.statementWith expr inner body) := by
  apply accepting _ (forStatement hexpr hinner)
  apply accepting _ (ifStatement hexpr hinner)
  apply accepting _ (printStatement hexpr)
  apply taking (fun _ ht => returnStatement hexpr ht)
  apply accepting _ (whileStatement hexpr hinner)
  exact accepting _ ((closedBy hbody).bind fun _ hss => pure hss) (expressionStatement hexpr)

omit hexpr in
theorem declarationWith (n : Nat) :
    Draws P (fun s : Option Stmt => ∀ s' ∈ s, s'.Over P)
      (Grammar.declarationWith n inner body) := by
  have hexpr := expression (P := P) n
  have hfunction : Draws P (Stmt.Over P) (Stmt.function <$> Grammar.routine .function body n) :=
    (routine hbody .function n).map fun _ hf => hf
  apply recovering
  apply accepting _ (classDeclaration hbody n)
  apply accepting _ hfunction
  exact accepting _ (varDeclaration hexpr) (statementWith hexpr hinner hbody)

omit hexpr in
/-- A declaration, if one was read, and those behind it. -/
theorem further {p : Step (List Stmt)} (hp : Draws P (Stmt.AllOver P) p) (n : Nat) :
    Draws P (Stmt.AllOver P)
      (do let s ← Grammar.declarationWith n inner body; return s.toList ++ (← p)) := by
  refine (declarationWith hinner hbody n).bind fun s hs => hp.bind fun _ hss => pure ?_
  cases s with
  | none => exact hss
  | some s => exact ⟨hs s rfl, hss⟩

end Statements

theorem statement_declarations (n : Nat) :
    Draws P (Stmt.Over P) (Grammar.statement n) ∧
      Draws P (Stmt.AllOver P) (Grammar.declarations n) := by
  induction n with
  | zero => exact ⟨fail _, pure trivial⟩
  | succ n ih =>
    obtain ⟨hinner, hbody⟩ := ih
    exact ⟨statementWith (expression _) hinner hbody,
      endsBlock.bind fun _ _ => ite (pure trivial) (further hinner hbody hbody _)⟩

theorem topLevel (n : Nat) : Draws P (Stmt.AllOver P) (Grammar.topLevel n) := by
  induction n with
  | zero => exact pure trivial
  | succ n ih =>
    obtain ⟨hinner, hbody⟩ := statement_declarations n
    exact atEnd.bind fun _ _ => ite (pure trivial) (further hinner hbody ih _)

end Draws

/-- A reading starts with the tokens of its list, if the end of the input is one of them. -/
theorem Cursor.over_ofTokens {ts : List Token} (n : Nat) (hts : ∀ t ∈ ts, P t)
    (hend : ∃ t ∈ ts, t.kind = .finish) : (Cursor.ofTokens n ts).Over P where
  rest t ht := hts t (List.takeWhile_subset _ ht)
  finish := by
    have hfound : (ts.find? (·.kind == .finish)).isSome := by simpa using hend
    obtain ⟨finish, hf⟩ := Option.isSome_iff_exists.1 hfound
    simp only [ofTokens, hf, Option.getD_some]
    exact hts finish (List.mem_of_find?_eq_some hf)
  reports := nofun

/-- What a reading finds in such tokens. -/
structure Reading.Over (P : Token → Prop) (Q : α → Prop) (r : Reading α) : Prop where
  tree (a : α) : r.result = .ok a → Q a
  faults (ds : List Diagnostic) : r.result = .error ds → ∀ d ∈ ds, FaultAt P d

theorem Draws.ofStep {p : Nat → Step α} (hp : ∀ n, Draws P Q (p n)) {n : Nat} {ts : List Token}
    (hts : (Cursor.ofTokens n ts).Over P) : (Reading.ofStep p n ts).Over P Q := by
  have h := hp (Cursor.ofTokens n ts).rest.length _ hts
  unfold Reading.ofStep
  dsimp only
  generalize p _ (Cursor.ofTokens n ts) = r at h
  cases r with
  | ok a c =>
    obtain ⟨ha, hc⟩ := h
    dsimp only
    split
    · exact ⟨fun _ he => by cases he; exact ha, nofun⟩
    · exact ⟨nofun, fun _ he => by cases he; exact hc.reports⟩
  | error d c =>
    obtain ⟨⟨cause, t, ht, rfl⟩, hc⟩ := h
    exact ⟨nofun, fun _ he => by cases he; exact (hc.report ht).reports⟩

end Lox.Grammar
