import Lox.Proofs.Scoping.Balance
import Lox.Proofs.Session.History

/-!
# Scoping as a walk that keeps a state

A walker goes through a program with the open scopes, the kind of function and of class it is
in, the faults found so far and the depths noted so far as its state. What it enters it leaves
by hand: a scope that it opens is closed again, and a kind that it sets is set back to the one
before. It comes to what `Scoping` finds, where the context is handed down instead. Main
statement: whatever it goes through, and from whatever state, it leaves the number of scopes,
all scopes but the innermost and both kinds as they were; and walking through two programs in
a row is walking through each with a walker of its own.
-/

set_option autoImplicit false

namespace Lox

open Scoping

structure Walker where
  scopes : Frames
  body : Body
  family : Family
  faults : List Diagnostic
  depths : Depths

/-- What is noted of a reference is noted over whatever was there before. -/
theorem Depths.get?_record (d : Depths) (found : List (Reference × Option Nat)) (id : Nat) :
    (d.record found).get? id = ((Depths.record {} found).get? id).or (d.get? id) := by
  have hcons (d : Depths) (p : Reference × Option Nat) (l : List (Reference × Option Nat)) :
      d.record (p :: l) = (d.record [p]).record l := rfl
  induction found generalizing d with
  | nil => rfl
  | cons p found ih =>
    have hput : (d.record [p]).get? id = ((Depths.record {} [p]).get? id).or (d.get? id) := by
      obtain ⟨r, depth⟩ := p
      cases depth with
      | none => rfl
      | some depth =>
        show (d.put r.id depth).get? id = ((Depths.put {} r.id depth).get? id).or _
        by_cases h : id = r.id
        · rw [h, get?_put_self, get?_put_self, Option.some_or]
        · rw [get?_put_of_ne d depth h, get?_put_of_ne {} depth h]
          rfl
    rw [hcons d, hcons {}, ih, ih (Depths.record {} [p]), hput, Option.or_assoc]

namespace Walker

/-- A walker at top level, which notes depths in a given table. -/
def new (d : Depths) : Walker := ⟨[], .none, .none, [], d⟩

def context (w : Walker) : Context := ⟨w.body, w.family⟩

def openScope (w : Walker) : Walker := { w with scopes := [] :: w.scopes }

def closeScope (w : Walker) : Walker := { w with scopes := w.scopes.tail }

def enter (body : Body) (w : Walker) : Walker := { w with body }

def enterFamily (family : Family) (w : Walker) : Walker := { w with family }

def report (cause : ScopingCause) (t : Token) (w : Walker) : Walker :=
  { w with faults := w.faults ++ [.scoping t.line (Place.ofToken t) cause] }

def reportIf (p : Prop) [Decidable p] (cause : ScopingCause) (t : Token) (w : Walker) : Walker :=
  if p then w.report cause t else w

/-- A name that the innermost scope has already is reported and keeps its entry. -/
def declare (t : Token) (w : Walker) : Walker :=
  match w.scopes with
  | [] => w
  | f :: fs =>
    if f.binds t.lexeme then w.report .alreadyDeclared t
    else { w with scopes := ((t.lexeme, false) :: f) :: fs }

def define (name : String) (w : Walker) : Walker :=
  match w.scopes with
  | [] => w
  | f :: fs => { w with scopes := ((name, true) :: f) :: fs }

def bind (t : Token) (w : Walker) : Walker := (w.declare t).define t.lexeme

/-- Note how many scopes up a reference is declared. One that no scope declares is global
and gets no entry. -/
def note (ref : Reference) (w : Walker) : Walker :=
  match depth? w.scopes ref.name.lexeme with
  | some d => { w with depths := w.depths.put ref.id d }
  | none => w

def read (ref : Reference) (w : Walker) : Walker :=
  (w.reportIf (inOwnInitializer w.scopes ref.name.lexeme) .ownInitializer ref.name).note ref

def «this» (ref : Reference) (w : Walker) : Walker :=
  if w.family = .none then w.report .thisOutsideClass ref.name else w.note ref

def super (ref : Reference) (w : Walker) : Walker :=
  let reported :=
    match w.family with
    | .none => w.report .superOutsideClass ref.name
    | .class => w.report .superWithoutSuperclass ref.name
    | .subclass => w
  reported.note ref

mutual

def expr : Expr → Walker → Walker
  | .literal _, w => w
  | .grouping e, w => expr e w
  | .unary _ e, w => expr e w
  | .binary l _ r, w => expr r (expr l w)
  | .logical l _ r, w => expr r (expr l w)
  | .var ref, w => w.read ref
  | .assign ref e, w => (expr e w).note ref
  | .call callee _ args, w => exprs args (expr callee w)
  | .get e _, w => expr e w
  | .set e _ v, w => expr e (expr v w)
  | .this ref, w => w.this ref
  | .super ref _, w => w.super ref

def exprs : List Expr → Walker → Walker
  | [], w => w
  | e :: es, w => exprs es (expr e w)

end

def optional : Option Expr → Walker → Walker
  | none, w => w
  | some e, w => expr e w

def leaveFunction (keyword : Token) (value : Option Expr) (w : Walker) : Walker :=
  optional value ((w.reportIf (w.body = .none) .returnOutsideFunction keyword).reportIf
    (w.body = .initializer ∧ value.isSome) .returnFromInitializer keyword)

/-- Read the superclass, if there is one, and open the scope of `super`. -/
def inherit (name : Token) : Option Reference → Walker → Walker
  | none, w => w
  | some ref, w =>
    (((w.reportIf (ref.name.lexeme = name.lexeme) .inheritsFromItself ref.name).enterFamily
      .subclass).read ref).openScope.define "super"

/-- Close the scope of `super`, if there is one. -/
def disinherit (superclass : Option Reference) (w : Walker) : Walker :=
  if superclass.isSome then w.closeScope else w

mutual

def stmt : Stmt → Walker → Walker
  | .expression e, w => expr e w
  | .print e, w => expr e w
  | .var name initializer, w => (optional initializer (w.declare name)).define name.lexeme
  | .block body, w => (stmts body w.openScope).closeScope
  | .if condition yes no, w => optionalStmt no (stmt yes (expr condition w))
  | .while condition body, w => stmt body (expr condition w)
  | .function f, w => function .function f (w.bind f.name)
  | .return keyword value, w => leaveFunction keyword value w
  | .class name superclass methods, w =>
    let inside := (((w.enterFamily .class).bind name).inherit name superclass).openScope
    (((walkMethods methods (inside.define "this")).closeScope).disinherit superclass).enterFamily
      w.family

def stmts : List Stmt → Walker → Walker
  | [], w => w
  | s :: ss, w => stmts ss (stmt s w)

def optionalStmt : Option Stmt → Walker → Walker
  | none, w => w
  | some s, w => stmt s w

def function (body : Body) : Function → Walker → Walker
  | .mk _ params ss, w =>
    let inside := params.foldl (fun w p => w.bind p) (w.enter body).openScope
    (stmts ss inside).closeScope.enter w.body

def walkMethods : List Function → Walker → Walker
  | [], w => w
  | f :: others, w => walkMethods others (function (methodBody f) f w)

end

/-- The walker with these scopes, to whom this was found on the way. -/
def past (w : Walker) (fs : Frames) (found : List Finding) : Walker :=
  { w with
    scopes := fs
    faults := w.faults ++ Scoping.faults found
    depths := w.depths.record (lookups found) }

@[simp] theorem past_scopes (w : Walker) (fs : Frames) (found : List Finding) :
    (w.past fs found).scopes = fs := rfl

@[simp] theorem past_context (w : Walker) (fs : Frames) (found : List Finding) :
    (w.past fs found).context = w.context := rfl

@[simp] theorem past_past (w : Walker) (fs gs : Frames) (found found' : List Finding) :
    (w.past fs found).past gs found' = w.past gs (found ++ found') := by
  simp only [past, Scoping.faults, lookups_append, Depths.record_append, List.filterMap_append,
    List.append_assoc]

/-- Nothing found on the way to these scopes. -/
theorem past_nil (w : Walker) (fs : Frames) : w.past fs [] = { w with scopes := fs } := by
  show { w with scopes := fs, faults := w.faults ++ [] } = _
  rw [List.append_nil]

/-- A global reference leaves no trace. -/
theorem past_global (w : Walker) (fs : Frames) (ref : Reference) :
    w.past fs [.lookup ref none] = { w with scopes := fs } := past_nil w fs

theorem report_eq (w : Walker) (cause : ScopingCause) (t : Token) :
    w.report cause t = w.past w.scopes [fault cause t] := rfl

theorem reportIf_eq (w : Walker) (p : Prop) [Decidable p] (cause : ScopingCause) (t : Token) :
    w.reportIf p cause t = w.past w.scopes (if p then [fault cause t] else []) := by
  unfold reportIf
  split
  · exact report_eq w cause t
  · exact (past_nil w w.scopes).symm

theorem note_eq (w : Walker) (ref : Reference) : w.note ref = w.past w.scopes [find w.scopes ref] := by
  unfold note find
  cases depth? w.scopes ref.name.lexeme with
  | none => exact (past_global w w.scopes ref).symm
  | some d =>
    show _ = { w with faults := w.faults ++ [], depths := w.depths.put ref.id d }
    rw [List.append_nil]

theorem read_eq (w : Walker) (ref : Reference) :
    w.read ref = w.past w.scopes (Scoping.read w.scopes ref) := by
  simp only [read, Scoping.read, note_eq, reportIf_eq, past_scopes, past_past]

theorem this_eq (w : Walker) (ref : Reference) :
    w.this ref = w.past w.scopes (thisFindings w.context w.scopes ref) := by
  unfold «this» thisFindings context
  cases w.family with
  | none => rfl
  | «class» => exact note_eq w ref
  | subclass => exact note_eq w ref

theorem super_eq (w : Walker) (ref : Reference) :
    w.super ref = w.past w.scopes (superFindings w.context w.scopes ref) := by
  have hf : w.context.family = w.family := rfl
  cases h : w.family with
  | none => simp only [super, superFindings, hf, h, note_eq, report_eq, past_scopes, past_past]
  | «class» => simp only [super, superFindings, hf, h, note_eq, report_eq, past_scopes, past_past]
  | subclass => simp only [super, superFindings, hf, h, note_eq, List.nil_append]

theorem define_eq (w : Walker) (name : String) :
    w.define name = w.past (Scoping.define w.scopes name) [] := by
  rw [past_nil]
  obtain ⟨scopes, body, family, faults, depths⟩ := w
  cases scopes <;> rfl

theorem declare_eq (w : Walker) (t : Token) :
    w.declare t = w.past (Scoping.declare w.scopes t.lexeme) (declarationFaults w.scopes t) := by
  obtain ⟨scopes, body, family, faults, depths⟩ := w
  cases scopes with
  | nil =>
    show _ = past _ [] []
    rw [past_nil]
    rfl
  | cons f fs =>
    have hr : redeclares (f :: fs) t.lexeme = f.binds t.lexeme := Option.any_some
    simp only [declare, Scoping.declare, declarationFaults, hr]
    split
    · rfl
    · rw [past_nil]

theorem bind_eq (w : Walker) (t : Token) :
    w.bind t = w.past (Scoping.define (Scoping.declare w.scopes t.lexeme) t.lexeme)
      (declarationFaults w.scopes t) := by
  rw [bind, define_eq, declare_eq, past_scopes, past_past, List.append_nil]

theorem bindAll_eq (w : Walker) (ps : List Token) :
    ps.foldl (fun w p => w.bind p) w = w.past (parameters w.scopes ps).1
      (parameters w.scopes ps).2 := by
  induction ps generalizing w with
  | nil => exact (past_nil w w.scopes).symm
  | cons p ps ih => rw [List.foldl_cons, ih, bind_eq, past_scopes, past_past, parameters]

mutual

theorem expr_eq : (e : Expr) → (w : Walker) →
    expr e w = w.past w.scopes (Scoping.expr w.context w.scopes e)
  | .literal _, w => (past_nil w w.scopes).symm
  | .grouping e, w => expr_eq e w
  | .unary _ e, w => expr_eq e w
  | .binary l _ r, w => by
    simp only [expr, Scoping.expr, expr_eq r, expr_eq l, past_scopes, past_context, past_past]
  | .logical l _ r, w => by
    simp only [expr, Scoping.expr, expr_eq r, expr_eq l, past_scopes, past_context, past_past]
  | .var ref, w => read_eq w ref
  | .assign ref e, w => by
    simp only [expr, Scoping.expr, expr_eq e, note_eq, past_scopes, past_past]
  | .call f _ es, w => by
    simp only [expr, Scoping.expr, expr_eq f, exprs_eq es, past_scopes, past_context, past_past]
  | .get e _, w => expr_eq e w
  | .set e _ v, w => by
    simp only [expr, Scoping.expr, expr_eq e, expr_eq v, past_scopes, past_context, past_past]
  | .this ref, w => this_eq w ref
  | .super ref _, w => super_eq w ref

theorem exprs_eq : (es : List Expr) → (w : Walker) →
    exprs es w = w.past w.scopes (Scoping.exprs w.context w.scopes es)
  | [], w => (past_nil w w.scopes).symm
  | e :: es, w => by
    simp only [exprs, Scoping.exprs, expr_eq e, exprs_eq es, past_scopes, past_context, past_past]

end

theorem optional_eq (e : Option Expr) (w : Walker) :
    optional e w = w.past w.scopes (Scoping.optional w.context w.scopes e) := by
  cases e with
  | none => exact (past_nil w w.scopes).symm
  | some e => exact expr_eq e w

theorem leaveFunction_eq (w : Walker) (keyword : Token) (value : Option Expr) :
    w.leaveFunction keyword value = w.past w.scopes
      (returnFaults w.context keyword value ++ Scoping.optional w.context w.scopes value) := by
  simp only [leaveFunction, returnFaults, optional_eq, reportIf_eq, past_scopes, past_context,
    past_past]
  rfl

@[simp] theorem openScope_past (w : Walker) (fs : Frames) (found : List Finding) :
    (w.past fs found).openScope = w.past ([] :: fs) found := rfl

@[simp] theorem closeScope_past (w : Walker) (fs : Frames) (found : List Finding) :
    (w.past fs found).closeScope = w.past fs.tail found := rfl

@[simp] theorem enter_past (w : Walker) (body : Body) (fs : Frames) (found : List Finding) :
    (w.past fs found).enter body = (w.enter body).past fs found := rfl

@[simp] theorem enterFamily_past (w : Walker) (family : Family) (fs : Frames)
    (found : List Finding) :
    (w.past fs found).enterFamily family = (w.enterFamily family).past fs found := rfl

theorem openScope_eq (w : Walker) : w.openScope = w.past ([] :: w.scopes) [] :=
  (past_nil w _).symm

/-- The superclass is read, and then the methods have scopes of their own, in the kind of class
that the superclass makes it. -/
theorem inherit_eq (w : Walker) (name : Token) (superclass : Option Reference) :
    (((w.enterFamily .class).inherit name superclass).openScope).define "this" =
      (w.enterFamily (if superclass.isSome then .subclass else .class)).past
        (methodFrames w.scopes superclass) (superclassFindings w.scopes name superclass) := by
  cases superclass with
  | none => rw [inherit, openScope_eq, define_eq, past_scopes, past_past]; rfl
  | some ref =>
    simp only [inherit, reportIf_eq, read_eq, define_eq, openScope_past, enterFamily_past,
      past_scopes, past_past, List.append_nil]
    rfl

theorem disinherit_past (w : Walker) (fs : Frames) (superclass : Option Reference)
    (found : List Finding) :
    ((w.past (methodFrames fs superclass) found).closeScope).disinherit superclass =
      w.past fs found := by
  cases superclass <;> rfl

mutual

theorem stmt_eq : (s : Stmt) → (w : Walker) →
    stmt s w = w.past (Scoping.stmt w.context w.scopes s).1 (Scoping.stmt w.context w.scopes s).2
  | .expression e, w => expr_eq e w
  | .print e, w => expr_eq e w
  | .var x e, w => by
    simp only [stmt, Scoping.stmt, optional_eq, declare_eq, define_eq, past_scopes, past_context,
      past_past, List.append_nil]
  | .block ss, w => by
    rw [stmt, stmts_eq ss, openScope_eq, past_scopes, past_past, closeScope_past,
      (sameOuter_stmts _ _ ss).tail]
    rfl
  | .if e yes no, w => by
    simp only [stmt, Scoping.stmt, expr_eq e, stmt_eq yes, optionalStmt_eq no, past_scopes,
      past_context, past_past, List.append_assoc]
  | .while e s, w => by
    simp only [stmt, Scoping.stmt, expr_eq e, stmt_eq s, past_scopes, past_context, past_past]
  | .function f, w => by
    simp only [stmt, Scoping.stmt, bind_eq, function_eq .function f, past_scopes, past_context,
      past_past]
  | .return t e, w => leaveFunction_eq w t e
  | .class x r ms, w => by
    rw [stmt, bind_eq, ← enterFamily_past]
    simp only [inherit_eq, walkMethods_eq ms]
    simp only [enterFamily_past, past_scopes, past_context, past_past, disinherit_past]
    rfl

theorem stmts_eq : (ss : List Stmt) → (w : Walker) →
    stmts ss w =
      w.past (Scoping.stmts w.context w.scopes ss).1 (Scoping.stmts w.context w.scopes ss).2
  | [], w => (past_nil w w.scopes).symm
  | s :: ss, w => by
    rw [stmts, stmts_eq ss, stmt_eq s, past_scopes, past_context, past_past, Scoping.stmts]

theorem optionalStmt_eq : (s : Option Stmt) → (w : Walker) →
    optionalStmt s w = w.past (Scoping.optionalStmt w.context w.scopes s).1
      (Scoping.optionalStmt w.context w.scopes s).2
  | none, w => (past_nil w w.scopes).symm
  | some s, w => stmt_eq s w

theorem function_eq (body : Body) : (f : Function) → (w : Walker) →
    function body f w = w.past w.scopes (Scoping.function w.context w.scopes body f)
  | .mk _ ps ss, w => by
    have htail := (sameOuter_stmts { w.context with body } (parameters ([] :: w.scopes) ps).1 ss).tail
    rw [(SameOuter.parameters _ _).tail, List.tail_cons] at htail
    simp only [function, bindAll_eq, openScope_eq, stmts_eq ss, past_scopes, past_past,
      past_context, closeScope_past, enter_past]
    exact congrArg (w.past · _) htail

theorem walkMethods_eq : (fs : List Function) → (w : Walker) →
    walkMethods fs w = w.past w.scopes (methodsFindings w.context w.scopes fs)
  | [], w => (past_nil w w.scopes).symm
  | f :: fs, w => by
    rw [walkMethods, walkMethods_eq fs, function_eq _ f, past_scopes, past_context, past_past,
      methodsFindings]

end

/-- What stays as it was behind a part of a program. -/
structure Balanced (w w' : Walker) : Prop where
  length : w'.scopes.length = w.scopes.length
  outer : w'.scopes.tail = w.scopes.tail
  body : w'.body = w.body
  family : w'.family = w.family

theorem balanced_past {w : Walker} {fs : Frames} (h : SameOuter w.scopes fs)
    (found : List Finding) : w.Balanced (w.past fs found) :=
  ⟨h.length, h.tail, rfl, rfl⟩

theorem balanced_expr (e : Expr) (w : Walker) : w.Balanced (expr e w) := by
  rw [expr_eq]
  exact balanced_past (.refl w.scopes) _

theorem balanced_stmt (s : Stmt) (w : Walker) : w.Balanced (stmt s w) := by
  rw [stmt_eq]
  exact balanced_past (sameOuter_stmt w.context w.scopes s) _

/-- A walk of its own through a program. -/
def walk (d : Depths) (program : List Stmt) : Walker := stmts program (.new d)

/-- A walk through a program ends at top level. -/
theorem walk_eq (d : Depths) (program : List Stmt) :
    walk d program = (new d).past [] (Scoping.program program) := by
  have hnil : (Scoping.stmts {} [] program).1 = [] := stmts_nil {} program
  rw [walk, stmts_eq]
  exact congrArg ((new d).past · (Scoping.program program)) hnil

theorem walk_faults (d : Depths) (program : List Stmt) :
    (walk d program).faults = Scoping.faults (Scoping.program program) := by
  rw [walk_eq]
  exact List.nil_append _

theorem walk_depths (d : Depths) (program : List Stmt) :
    (walk d program).depths = d.record (lookups (Scoping.program program)) := by
  rw [walk_eq]
  rfl

/-- Both at once and one by one: the faults of the one and then those of the other, whatever
was noted before; and the entry of a reference is that of the second program, or else that of
the first, or else the one from before. -/
structure Composes (d : Depths) (first second : List Stmt) : Prop where
  faults (d₁ d₂ : Depths) :
    (walk d (first ++ second)).faults = (walk d₁ first).faults ++ (walk d₂ second).faults
  depths : (walk d (first ++ second)).depths = (walk (walk d first).depths second).depths
  entry (id : Nat) : (walk d (first ++ second)).depths.get? id =
    ((walk {} second).depths.get? id).or (((walk {} first).depths.get? id).or (d.get? id))

theorem composes (d : Depths) (first second : List Stmt) : Composes d first second where
  faults d₁ d₂ := by simp only [walk_faults, program_append, faults_of_append]
  depths := by simp only [walk_depths, program_append, lookups_append, Depths.record_append]
  entry id := by
    simp only [walk_depths, program_append, lookups_append, Depths.record_append]
    rw [Depths.get?_record, Depths.get?_record d]

end Walker

/-- Scoping in a session is a walk that notes depths on its machine. -/
theorem Session.resolve_eq (s : Session) (program : List Stmt) :
    let w := Walker.walk s.machine.depths program
    s.resolve program = (w.faults, { s with machine := { s.machine with depths := w.depths } }) := by
  rw [Walker.walk_eq]
  rfl

/-- From any state a walk through an expression or a statement, whatever faults it finds, leaves
the number of scopes, all scopes but the innermost and the kinds of function and class as they
were, and comes to what scoping finds there. A walk of its own, which is what scoping in a
session is, through one program and then another finds the faults of the one and then of the
other, and notes what each notes alone. -/
theorem Walker.balanced_and_composes :
    (∀ (e : Expr) (w : Walker), w.Balanced (expr e w) ∧
      expr e w = w.past w.scopes (Scoping.expr w.context w.scopes e)) ∧
    (∀ (s : Stmt) (w : Walker), w.Balanced (stmt s w) ∧
      let (scopes, found) := Scoping.stmt w.context w.scopes s
      stmt s w = w.past scopes found) ∧
    (∀ (d : Depths) (first second : List Stmt), Composes d first second) ∧
    ∀ (s : Session) (program : List Stmt), s.resolve program =
      ((walk s.machine.depths program).faults,
        { s with machine := { s.machine with depths := (walk s.machine.depths program).depths } }) :=
  ⟨fun e w => ⟨balanced_expr e w, expr_eq e w⟩, fun s w => ⟨balanced_stmt s w, stmt_eq s w⟩,
    composes, Session.resolve_eq⟩

end Lox
