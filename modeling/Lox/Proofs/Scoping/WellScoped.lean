import Lox.Proofs.Scoping.Framed
import Lox.Proofs.Scoping.Places
import Lox.Proofs.Scoping.Renames
import Lox.Proofs.Source.Stream

/-!
# Well-scoped programs

Scoping finds faults along one walk that keeps the scopes, the kind of the function and
the kind of the class it is in. Main statement: in the tree of a text it finds none if and
only if the program is well-scoped, which is said of the places of the tree alone.
-/

set_option autoImplicit false

namespace Lox

/-- The names that a function has in its one scope. -/
def Function.names (f : Function) : List String :=
  f.params.map (·.lexeme) ++ f.body.filterMap Scoping.declared?

end Lox

namespace Lox.Scoping

structure WellScoped (program : List Stmt) : Prop where
  block {p : Path} {ss : List Stmt} : Occurs program p (.stmt (.block ss)) →
    (ss.filterMap declared?).Nodup
  function {p : Path} {f : Function} : Occurs program p (.stmt (.function f)) → f.names.Nodup
  method {p : Path} {x : Token} {r : Option Reference} {ms : List Function} :
    Occurs program p (.stmt (.class x r ms)) → ∀ f ∈ ms, f.names.Nodup
  /-- A local variable is not read in its own initializer. -/
  initializer {p q : Path} {x : Token} {e : Expr} {r : Reference} :
    Occurs program p (.stmt (.var x (some e))) → p ≠ [] →
      Inside (.expr e) q (.expr (.var r)) → r.name.lexeme ≠ x.lexeme
  returns {p : Path} {keyword : Token} {e : Option Expr} :
    Occurs program p (.stmt (.return keyword e)) → p.routine? ≠ none
  returned {p : Path} {keyword : Token} {e : Expr} {f : Function} :
    Occurs program p (.stmt (.return keyword (some e))) → p.routine? = some (.method f) →
      f.name.lexeme ≠ "init"
  this {p : Path} {r : Reference} : Occurs program p (.expr (.this r)) → p.clause? ≠ none
  super {p : Path} {r : Reference} {name : Token} : Occurs program p (.expr (.super r name)) →
    ∃ r', p.clause? = some (some r')
  superclass {p : Path} {x : Token} {r : Reference} {ms : List Function} :
    Occurs program p (.stmt (.class x (some r) ms)) → r.name.lexeme ≠ x.lexeme

/-- What `WellScoped` asks of one place. -/
def Lawful (p : Path) : Node → Prop
  | .stmt (.block ss) => (ss.filterMap declared?).Nodup
  | .stmt (.function f) => f.names.Nodup
  | .stmt (.class x r ms) =>
    (∀ f ∈ ms, f.names.Nodup) ∧ ∀ r' ∈ r, r'.name.lexeme ≠ x.lexeme
  | .stmt (.var x (some e)) => p ≠ [] →
    ∀ q r, Inside (.expr e) q (.expr (.var r)) → r.name.lexeme ≠ x.lexeme
  | .stmt (.return _ e) => p.routine? ≠ none ∧
    (e.isSome → ∀ f, p.routine? = some (.method f) → f.name.lexeme ≠ "init")
  | .expr (.this _) => p.clause? ≠ none
  | .expr (.super _ _) => ∃ r, p.clause? = some (some r)
  | _ => True

theorem wellScoped_iff {program : List Stmt} :
    WellScoped program ↔ ∀ p n, Occurs program p n → Lawful p n := by
  constructor
  · intro h p n hn
    cases n with
    | expr e =>
      cases e with
      | this => exact h.this hn
      | super => exact h.super hn
      | _ => trivial
    | stmt s =>
      cases s with
      | block => exact h.block hn
      | function => exact h.function hn
      | «class» x r ms =>
        refine ⟨h.method hn, ?_⟩
        rintro r' ⟨⟩
        exact h.superclass hn
      | var x e =>
        cases e with
        | none => trivial
        | some e => exact fun hp q r => h.initializer hn hp
      | «return» keyword e =>
        refine ⟨h.returns hn, ?_⟩
        intro he f
        obtain ⟨e, rfl⟩ := Option.isSome_iff_exists.1 he
        exact h.returned hn
      | _ => trivial
  · intro h
    exact {
      block := h _ _
      function := h _ _
      method := fun hn => (h _ _ hn).1
      initializer := fun hn hp => h _ _ hn hp _ _
      returns := fun hn => (h _ _ hn).1
      returned := fun hn => (h _ _ hn).2 rfl _
      this := h _ _
      super := h _ _
      superclass := fun hn => (h _ _ hn).2 _ rfl }

/-- The kinds that the walk has at a place. -/
def Path.context (p : Path) : Context where
  body := match p.routine? with
    | none => .none
    | some (.method f) => methodBody f
    | some _ => .function
  family := match p.clause? with
    | none => .none
    | some none => .class
    | some (some _) => .subclass

theorem context_method (f : Function) (x : Token) (r : Option Reference) (p : Path) :
    Path.context (.method f :: .class x r :: p) =
      { body := methodBody f, family := if r.isSome then .subclass else .class } := by
  cases r <;> rfl

section Faults

@[simp] theorem faults_nil : faults [] = [] := rfl

@[simp] theorem faults_append {a b : List Finding} :
    faults (a ++ b) = [] ↔ faults a = [] ∧ faults b = [] := by
  rw [faults, List.filterMap_append, List.append_eq_nil_iff]
  rfl

@[simp] theorem faults_find (fs : Frames) (r : Reference) : faults [find fs r] = [] := rfl

theorem faults_if {c : Prop} [Decidable c] {cause : ScopingCause} {t : Token} :
    faults (if c then [fault cause t] else []) = [] ↔ ¬ c := by
  split
  · rename_i hc
    exact ⟨nofun, fun h => absurd hc h⟩
  · rename_i hc
    exact ⟨fun _ => hc, fun _ => rfl⟩

@[simp] theorem faults_read {fs : Frames} {r : Reference} :
    faults (read fs r) = [] ↔ inOwnInitializer fs r.name.lexeme = false := by
  rw [read, faults_append, faults_if, Bool.not_eq_true, and_iff_left (faults_find fs r)]

@[simp] theorem faults_declarationFaults {fs : Frames} {t : Token} :
    faults (declarationFaults fs t) = [] ↔ redeclares fs t.lexeme = false := by
  rw [declarationFaults, faults_if, Bool.not_eq_true]

@[simp] theorem faults_thisFindings {p : Path} {fs : Frames} {r : Reference} :
    faults (thisFindings p.context fs r) = [] ↔ p.clause? ≠ none := by
  unfold thisFindings Path.context
  rcases p.clause? with _ | _ | r' <;> simp [faults, fault, Finding.fault?, find]

@[simp] theorem faults_superFindings {p : Path} {fs : Frames} {r : Reference} :
    faults (superFindings p.context fs r) = [] ↔ ∃ r', p.clause? = some (some r') := by
  unfold superFindings Path.context
  rcases p.clause? with _ | _ | r' <;> simp [faults, fault, Finding.fault?, find]

theorem faults_returnFaults {p : Path} {keyword : Token} {e : Option Expr} :
    faults (returnFaults p.context keyword e) = [] ↔ Lawful p (.stmt (.return keyword e)) := by
  rw [returnFaults, faults_append, faults_if, faults_if, not_and', Lawful]
  have hbody : p.context.body = .none ↔ p.routine? = none := by
    unfold Path.context methodBody
    rcases p.routine? with _ | _ | f | f | _ <;> simp
    split <;> simp
  have hinit : p.context.body = .initializer ↔
      ∃ f, p.routine? = some (.method f) ∧ f.name.lexeme = "init" := by
    unfold Path.context methodBody
    rcases p.routine? with _ | _ | f | f | _ <;>
      simp [Function.isInitializer, Function.initializerName]
  rw [hbody, hinit]
  simp only [not_exists, not_and, ne_eq]

end Faults

/-- Whether a variable read here has a definition in the innermost scope. -/
def Readable (fs : Frames) : Node → Prop
  | .expr (.var r) => inOwnInitializer fs r.name.lexeme = false
  | _ => True

mutual

theorem faults_expr (p : Path) (fs : Frames) :
    (e : Expr) → (faults (expr p.context fs e) = [] ↔
      Everywhere (fun p n => Lawful p n ∧ Readable fs n) p (.expr e))
  | .literal _ => by
    rw [everywhere_iff]
    simp [Node.children, Lawful, Readable, expr]
  | .grouping e => by
    rw [everywhere_iff]
    simp [Node.children, Lawful, Readable, expr, faults_expr p fs e]
  | .unary _ e => by
    rw [everywhere_iff]
    simp [Node.children, Lawful, Readable, expr, faults_expr p fs e]
  | .binary l _ r => by
    rw [everywhere_iff]
    simp [Node.children, Lawful, Readable, expr, faults_expr p fs l, faults_expr p fs r]
  | .logical l _ r => by
    rw [everywhere_iff]
    simp [Node.children, Lawful, Readable, expr, faults_expr p fs l, faults_expr p fs r]
  | .var _ => by
    rw [everywhere_iff]
    simp [Node.children, Lawful, Readable, expr]
  | .assign _ e => by
    rw [everywhere_iff]
    simp [Node.children, Lawful, Readable, expr, faults_expr p fs e]
  | .call callee _ es => by
    rw [everywhere_iff]
    simp [Node.children, Lawful, Readable, expr, faults_expr p fs callee, faults_exprs p fs es]
  | .get e _ => by
    rw [everywhere_iff]
    simp [Node.children, Lawful, Readable, expr, faults_expr p fs e]
  | .set e _ v => by
    rw [everywhere_iff]
    simp [Node.children, Lawful, Readable, expr, faults_expr p fs e, faults_expr p fs v, and_comm]
  | .this _ => by
    rw [everywhere_iff]
    simp [Node.children, Lawful, Readable, expr]
  | .super _ _ => by
    rw [everywhere_iff]
    simp [Node.children, Lawful, Readable, expr]

theorem faults_exprs (p : Path) (fs : Frames) :
    (es : List Expr) → (faults (exprs p.context fs es) = [] ↔
      ∀ e ∈ es, Everywhere (fun p n => Lawful p n ∧ Readable fs n) p (.expr e))
  | [] => by simp [exprs]
  | e :: es => by
    rw [exprs, faults_append, faults_expr p fs e, faults_exprs p fs es, List.forall_mem_cons]

end

/-- Outside of a variable's initializer all that is read has a definition. -/
theorem Settled.faults_expr {fs : Frames} (hs : Settled fs) {p : Path} {e : Expr} :
    faults (expr p.context fs e) = [] ↔ Everywhere Lawful p (.expr e) := by
  rw [Scoping.faults_expr]
  apply everywhere_congr
  intro q m
  apply and_iff_left
  unfold Readable
  split
  · cases fs with
    | nil => rfl
    | cons f fs => simpa [inOwnInitializer] using hs f List.mem_cons_self _
  · trivial

theorem Settled.faults_optional {fs : Frames} (hs : Settled fs) {p : Path} {e : Option Expr} :
    faults (optional p.context fs e) = [] ↔ ∀ e' ∈ e, Everywhere Lawful p (.expr e') := by
  cases e with
  | none => simp [optional]
  | some e => simp [optional, hs.faults_expr]

/-- While a local name is new and declared, it and no other name is without a definition. -/
theorem Settled.inOwnInitializer_declare {fs : Frames} (hs : Settled fs) {x name : String}
    (hx : redeclares fs x = false) :
    inOwnInitializer (declare fs x) name = false ↔ (fs ≠ [] → name ≠ x) := by
  cases fs with
  | nil => simp [declare, inOwnInitializer]
  | cons f fs =>
    have hx : f.binds x = false := hx
    have hf := hs f List.mem_cons_self name
    by_cases hn : name = x
    · simp [declare, inOwnInitializer, hx, hn]
    · have hlookup : ((x, false) :: f).lookup name = f.lookup name := by
        rw [List.lookup_cons, beq_eq_false_iff_ne.2 hn]
      simpa [declare, inOwnInitializer, hx, hn, hlookup] using hf

/-- An initializer must not read the variable it is of, unless that is global. -/
theorem Settled.faults_initializer {fs : Frames} (hs : Settled fs) {p : Path}
    (hp : p = [] ↔ fs = []) {x : Token} {e : Expr} (hx : redeclares fs x.lexeme = false) :
    faults (expr p.context (declare fs x.lexeme) e) = [] ↔
      Lawful p (.stmt (.var x (some e))) ∧ Everywhere Lawful p (.expr e) := by
  rw [Scoping.faults_expr, everywhere_and, and_comm]
  apply and_congr_left'
  unfold Lawful Everywhere
  constructor
  · intro h hne q r hr
    exact (hs.inOwnInitializer_declare hx).1 (h q _ hr) fun hf => hne (hp.2 hf)
  · intro h q m hm
    unfold Readable
    split
    · exact (hs.inOwnInitializer_declare hx).2 fun hf => h (fun hn => hf (hp.1 hn)) q _ hm
    · trivial

/-- No name is declared in the innermost scope twice, and none that it has. -/
def Fresh : Frames → List String → Prop
  | _, [] => True
  | fs, x :: xs => redeclares fs x = false ∧ Fresh (binding fs x) xs

theorem fresh_nil (xs : List String) : Fresh [] xs := by
  induction xs with
  | nil => trivial
  | cons x xs ih => exact ⟨rfl, ih⟩

theorem fresh_cons {f : Frame} {fs : Frames} {xs : List String} :
    Fresh (f :: fs) xs ↔ xs.Nodup ∧ ∀ x ∈ xs, f.binds x = false := by
  induction xs generalizing f with
  | nil => simp [Fresh]
  | cons x xs ih =>
    have hx : redeclares (f :: fs) x = f.binds x := rfl
    have hbinds (y : String) : Frame.binds
        ((x, true) :: (if f.binds x then f else (x, false) :: f)) y = false ↔
        y ≠ x ∧ f.binds y = false := by
      by_cases hy : y = x
      · simp [Frame.binds, hy]
      · rw [Frame.binds_congr (Frame.lookup_bound f hy)]
        exact (and_iff_right hy).symm
    rw [Fresh, hx, binding, declare, define, ih, List.nodup_cons, List.forall_mem_cons]
    simp only [hbinds]
    constructor
    · rintro ⟨hf, hxs, h⟩
      exact ⟨⟨fun hm => (h x hm).1 rfl, hxs⟩, hf, fun y hy => (h y hy).2⟩
    · rintro ⟨⟨hm, hxs⟩, hf, h⟩
      exact ⟨hf, hxs, fun y hy => ⟨fun he => hm (he ▸ hy), h y hy⟩⟩

theorem fresh_empty {fs : Frames} {xs : List String} : Fresh ([] :: fs) xs ↔ xs.Nodup := by
  rw [fresh_cons]
  exact and_iff_left fun _ _ => rfl

theorem declared?_plain {s : Stmt} (h : s.plain = true) : declared? s = none := by
  cases s with
  | var | function | «class» => cases h
  | _ => rfl

theorem fresh_after {fs : Frames} {s : Stmt} {ss : List Stmt} :
    ((∀ x ∈ declared? s, redeclares fs x = false) ∧ Fresh (after fs s) (ss.filterMap declared?)) ↔
      Fresh fs ((s :: ss).filterMap declared?) := by
  have hnone (hd : declared? s = none) (ha : after fs s = fs) :
      ((∀ x ∈ declared? s, redeclares fs x = false) ∧
        Fresh (after fs s) (ss.filterMap declared?)) ↔
      Fresh fs ((s :: ss).filterMap declared?) := by
    rw [ha, List.filterMap_cons_none hd, hd]
    simp
  cases s with
  | var | function | «class» => simp [declared?, Stmt.routine?, after, Fresh]
  | _ => exact hnone rfl rfl

theorem faults_parameters {fs : Frames} {ps : List Token} {xs : List String} :
    (faults (parameters fs ps).2 = [] ∧ Fresh (parameters fs ps).1 xs) ↔
      Fresh fs (ps.map (·.lexeme) ++ xs) := by
  induction ps generalizing fs with
  | nil => simp [parameters]
  | cons p ps ih =>
    rw [parameters, faults_append, faults_declarationFaults, and_assoc, ih]
    rfl

theorem Settled.faults_superclassFindings {fs : Frames} (hs : Settled fs) {x : Token}
    {r : Option Reference} :
    faults (superclassFindings fs x r) = [] ↔ ∀ r' ∈ r, r'.name.lexeme ≠ x.lexeme := by
  cases r with
  | none => simp [superclassFindings]
  | some r =>
    have hr : inOwnInitializer fs r.name.lexeme = false := by
      cases fs with
      | nil => rfl
      | cons f fs => simpa [inOwnInitializer] using hs f List.mem_cons_self _
    simp [superclassFindings, faults_if, hr]

theorem Settled.methodFrames {fs : Frames} (hs : Settled fs) (r : Option Reference) :
    Settled (methodFrames fs r) := by
  cases r with
  | none => exact hs.single "this"
  | some r => exact (hs.single "super").single "this"

variable {ok : String → Prop}

mutual

theorem faults_stmt {p : Path} {fs : Frames} (hs : Settled fs) (hp : p = [] ↔ fs = []) :
    (s : Stmt) → s.Formed ok → (faults (stmt p.context fs s).2 = [] ↔
      Everywhere Lawful p (.stmt s) ∧ ∀ x ∈ declared? s, redeclares fs x = false)
  | .expression e, _ => by
    rw [everywhere_iff]
    simp [Node.children, Lawful, declared?, Stmt.routine?, stmt, hs.faults_expr]
  | .print e, _ => by
    rw [everywhere_iff]
    simp [Node.children, Lawful, declared?, Stmt.routine?, stmt, hs.faults_expr]
  | .var x none, _ => by
    rw [everywhere_iff]
    simp [Node.children, Lawful, declared?, stmt, optional]
  | .var x (some e), _ => by
    rw [everywhere_iff, stmt, faults_append, faults_declarationFaults, and_comm]
    simp only [Node.children, declared?, Option.mem_some_iff, forall_eq', Option.toList_some,
      List.map_cons, List.map_nil, List.mem_singleton, forall_eq, List.nil_append]
    apply and_congr_left
    exact fun hx => hs.faults_initializer hp hx
  | .block ss, hf => by
    have hctx : p.context = Path.context (.block :: p) := rfl
    rw [everywhere_iff, stmt, hctx, faults_stmts hs.push (by simp) ss hf, fresh_empty]
    simp [Node.children, Lawful, declared?, Stmt.routine?, and_comm]
  | .if e yes no, hf => by
    obtain ⟨-, hy, hplain, hn⟩ := hf
    have hyes := faults_stmt hs hp yes hy
    have hno := faults_optionalStmt hs hp no hn
    rw [declared?_plain hplain] at hyes
    rw [everywhere_iff, stmt, stmt_frames _ fs yes hy, after_plain hplain]
    simp [Node.children, Lawful, declared?, Stmt.routine?, hs.faults_expr, hyes, hno]
  | .while e s, hf => by
    obtain ⟨-, hb, hplain⟩ := hf
    have hbody := faults_stmt hs hp s hb
    rw [declared?_plain hplain] at hbody
    rw [everywhere_iff]
    simp [Node.children, Lawful, declared?, Stmt.routine?, stmt, hs.faults_expr, hbody]
  | .function f, hf => by
    have hctx : { p.context with body := .function } = Path.context (.function f :: p) := rfl
    have hbody := faults_function (hs.binding f.name.lexeme) hctx (by simp) f hf
    unfold binding at hbody
    rw [everywhere_iff, stmt, faults_append, hbody]
    simp [Node.children, bodyNodes, Lawful, declared?, Stmt.routine?, and_comm]
  | .return keyword e, _ => by
    rw [everywhere_iff, stmt, faults_append, faults_returnFaults, hs.faults_optional]
    simp [Node.children, declared?, Stmt.routine?]
  | .class x r ms, hf => by
    have hset := hs.binding x.lexeme
    have hms := faults_methodsFindings (p := p) (x := x) (r := r) p.context
      (hset.methodFrames r) ms hf.2.2
    have hr := hset.faults_superclassFindings (x := x) (r := r)
    unfold binding at hms hr
    rw [everywhere_iff, forall_methodNodes, stmt, faults_append, faults_append,
      faults_declarationFaults, hms, hr]
    simp only [Lawful, declared?, Stmt.routine?, Option.mem_some_iff, forall_eq', imp_and, forall_and,
      List.cons_append, List.nil_append]
    constructor
    · rintro ⟨⟨hx, hr⟩, hnames, hbodies⟩
      exact ⟨⟨⟨hnames, hr⟩, hbodies⟩, hx⟩
    · rintro ⟨⟨⟨hnames, hr⟩, hbodies⟩, hx⟩
      exact ⟨⟨hx, hr⟩, hnames, hbodies⟩

theorem faults_stmts {p : Path} {fs : Frames} (hs : Settled fs) (hp : p = [] ↔ fs = []) :
    (ss : List Stmt) → Stmt.AllFormed ok ss → (faults (stmts p.context fs ss).2 = [] ↔
      (∀ s ∈ ss, Everywhere Lawful p (.stmt s)) ∧ Fresh fs (ss.filterMap declared?))
  | [], _ => by simp [stmts, Fresh]
  | s :: ss, hf => by
    have hp' : p = [] ↔ after fs s = [] := by
      rw [hp, ← List.length_eq_zero_iff, ← List.length_eq_zero_iff, length_after]
    rw [stmts, faults_append, faults_stmt hs hp s hf.1, stmt_frames _ fs s hf.1,
      faults_stmts (hs.after s) hp' ss hf.2, List.forall_mem_cons, and_and_and_comm, fresh_after]

theorem faults_optionalStmt {p : Path} {fs : Frames} (hs : Settled fs) (hp : p = [] ↔ fs = []) :
    (s : Option Stmt) → Stmt.OptionFormed ok s → (faults (optionalStmt p.context fs s).2 = [] ↔
      ∀ s' ∈ s, Everywhere Lawful p (.stmt s'))
  | none, _ => by simp [optionalStmt]
  | some s, hf => by
    have h := faults_stmt hs hp s hf.1
    rw [declared?_plain hf.2] at h
    simpa [optionalStmt] using h

/-- The scope of a function is that of its parameters and its body. -/
theorem faults_function {p : Path} {fs : Frames} {ctx : Context} {body : Body} (hs : Settled fs)
    (hctx : { ctx with body } = p.context) (hp : p ≠ []) :
    (f : Function) → f.Formed ok → (faults (function ctx fs body f) = [] ↔
      f.names.Nodup ∧ ∀ s ∈ f.body, Everywhere Lawful p (.stmt s))
  | .mk x ps ss, hf => by
    obtain ⟨g, hg, -, -⟩ := parameters_cons [] fs ps
    have hbody := faults_stmts (p := p) (hs.push.parameters ps) (by simp [hg, hp]) ss hf.2.2
    rw [function, hctx, faults_append, hbody, and_left_comm, faults_parameters, fresh_empty,
      and_comm]
    rfl

theorem faults_methodsFindings {p : Path} {fs : Frames} {x : Token} {r : Option Reference}
    (ctx : Context) (hs : Settled fs) :
    (ms : List Function) → Function.AllFormed ok ms → (faults (methodsFindings
        { ctx with family := if r.isSome then .subclass else .class } fs ms) = [] ↔
      ∀ f ∈ ms, f.names.Nodup ∧
        ∀ s ∈ f.body, Everywhere Lawful (.method f :: .class x r :: p) (.stmt s))
  | [], _ => by simp [methodsFindings]
  | f :: ms, hf => by
    rw [methodsFindings, faults_append, faults_methodsFindings ctx hs ms hf.2, List.forall_mem_cons,
      faults_function hs (context_method f x r p).symm (by simp) f hf.1]

end

/-- What is asked of the branches of a program is what the grammar promises. -/
theorem faults_program {program : List Stmt} (hf : Stmt.AllFormed ok program) :
    faults (Scoping.program program) = [] ↔ WellScoped program := by
  have h := faults_stmts (p := []) .nil (by simp) program hf
  rw [and_iff_left (fresh_nil _)] at h
  rw [wellScoped_iff, occurs_iff]
  exact h

end Lox.Scoping

namespace Lox

theorem Front.formed_program {n : Nat} {source : String} {program : List Stmt}
    (h : (Grammar.readProgram n (Scanned.tokens (scan source))).result = .ok program) :
    Stmt.AllFormed (fun _ => True) program := by
  obtain ⟨last, hts⟩ := Piece.tokens_stream 1 (Piece.cut source.toList)
  rw [scan, hts] at h
  generalize hr : Grammar.readProgram n _ = r at h
  obtain ⟨result, k⟩ := r
  obtain rfl : result = .ok program := h
  have hd := (Grammar.readProgram_eq_ok_iff Piece.ne_finish_of_cut rfl).1 hr
  apply hd.formed
  intro t ht
  exact (Piece.lexeme_of_mem_cut (Piece.mem_lexemes ht)).spelled fun _ _ => trivial

namespace Scoping

/-- In the tree that the grammar reads in a text scoping finds no fault if and only if the
program is well-scoped. -/
theorem accepts_iff_wellScoped {n : Nat} {source : String} {program : List Stmt}
    (h : (Grammar.readProgram n (Scanned.tokens (scan source))).result = .ok program) :
    faults (Scoping.program program) = [] ↔ WellScoped program :=
  faults_program (Front.formed_program h)

/-- Whether scoping finds no fault in a text, if the grammar reads it. -/
def verdict (source : String) : Option Bool :=
  (Grammar.readProgram 0 (Scanned.tokens (scan source))).result.toOption.map fun program =>
    (faults (Scoping.program program)).isEmpty

theorem result_of_verdict {source : String} {b : Bool} (h : verdict source = some b) :
    ∃ program, (Grammar.readProgram 0 (Scanned.tokens (scan source))).result = .ok program ∧
      (faults (Scoping.program program)).isEmpty = b := by
  unfold verdict at h
  generalize (Grammar.readProgram 0 (Scanned.tokens (scan source))).result = result at h ⊢
  cases result with
  | error ds => cases h
  | ok program => exact ⟨program, rfl, Option.some.inj h⟩

def functionInMethod : String :=
  "class B < A \x7b init(x) \x7b fun f(x) \x7b return super.m; \x7d return; \x7d \x7d"

def classInMethod : String :=
  "class B < A \x7b init(x) \x7b class C \x7b m() \x7b return super.m; \x7d \x7d \x7d \x7d"

/-- A function in a method may use the superclass; a plain class in one may not. -/
theorem accepts_iff_wellScoped_nested :
    (∃ program,
      (Grammar.readProgram 0 (Scanned.tokens (scan functionInMethod))).result = .ok program ∧
        WellScoped program) ∧
    ∃ program,
      (Grammar.readProgram 0 (Scanned.tokens (scan classInMethod))).result = .ok program ∧
        ¬ WellScoped program := by
  have hfunction : verdict functionInMethod = some true := by cbv
  have hclass : verdict classInMethod = some false := by cbv
  constructor
  · obtain ⟨program, hp, hf⟩ := result_of_verdict hfunction
    exact ⟨program, hp, (accepts_iff_wellScoped hp).1 (List.isEmpty_iff.1 hf)⟩
  · obtain ⟨program, hp, hf⟩ := result_of_verdict hclass
    refine ⟨program, hp, fun h => ?_⟩
    rw [(accepts_iff_wellScoped hp).2 h] at hf
    cases hf

end Scoping

end Lox
