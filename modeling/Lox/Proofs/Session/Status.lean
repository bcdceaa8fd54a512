import Lox.Proofs.Grammar.Growing
import Lox.Proofs.Session.History

/-!
# What a report says

Reading and scoping a text find static faults only, and executing a program finds none of
them. Main statement: how a run ends can be read off its diagnostics, and a text that is
rejected leaves scopes, instances and output as they were.
-/

set_option autoImplicit false

namespace Lox

/-- Diagnostics of which each can be found before anything runs. -/
def AllStatic (ds : List Diagnostic) : Prop := ∀ d ∈ ds, d.isStatic = true

theorem allStatic_scanned (ss : List Scanned) (h : ∀ s ∈ ss, ∀ d, s = .error d → d.isStatic = true) :
    AllStatic (Scanned.faults ss) := by
  intro d hd
  obtain ⟨s, hs, he⟩ := List.mem_filterMap.1 hd
  cases s with
  | ok t => cases he
  | error d' =>
    cases he
    exact h _ hs _ rfl

theorem static_of_mem_stream {line : Nat} {ps : List Piece} {s : Scanned}
    (hs : s ∈ Piece.stream line ps) {d : Diagnostic} (hd : s = .error d) : d.isStatic = true := by
  induction ps generalizing line with
  | nil =>
    obtain rfl := List.mem_singleton.1 hs
    cases hd
  | cons p ps ih =>
    unfold Piece.stream at hs
    dsimp only at hs
    split at hs
    · rename_i s' hp
      rcases List.mem_cons.1 hs with rfl | hs
      · subst hd
        cases p <;> cases hp <;> rfl
      · exact ih hs
    · exact ih hs

theorem allStatic_scan (source : String) : AllStatic (Scanned.faults (scan source)) :=
  allStatic_scanned _ fun _ hs _ hd => static_of_mem_stream hs hd

theorem Grammar.Faults.allStatic {ds : List Diagnostic} (h : Grammar.Faults ds) : AllStatic ds := by
  intro d hd
  obtain ⟨cause, t, rfl⟩ := h d hd
  rfl

namespace Scoping

/-- What scoping finds wrong is static. -/
def Static (found : List Finding) : Prop := AllStatic (faults found)

namespace Static

variable {found found' : List Finding}

theorem nil : Static [] := fun _ hd => by cases hd

theorem append (h : Static found) (h' : Static found') : Static (found ++ found') := by
  unfold Static faults
  rw [List.filterMap_append]
  exact List.forall_mem_append.2 ⟨h, h'⟩

theorem fault (cause : ScopingCause) (t : Token) : Static [Scoping.fault cause t] := by
  intro d hd
  obtain rfl := List.mem_singleton.1 hd
  rfl

theorem find (fs : Frames) (r : Reference) : Static [Scoping.find fs r] := fun _ hd => by cases hd

theorem when {c : Prop} [Decidable c] (cause : ScopingCause) (t : Token) :
    Static (if c then [Scoping.fault cause t] else []) := by
  split
  · exact fault cause t
  · exact nil

theorem declarationFaults (fs : Frames) (t : Token) : Static (Scoping.declarationFaults fs t) :=
  when _ _

theorem read (fs : Frames) (r : Reference) : Static (Scoping.read fs r) :=
  (when _ _).append (find _ _)

theorem thisFindings (ctx : Context) (fs : Frames) (r : Reference) :
    Static (Scoping.thisFindings ctx fs r) := by
  unfold Scoping.thisFindings
  split
  · exact fault _ _
  · exact find _ _
  · exact find _ _

theorem superFindings (ctx : Context) (fs : Frames) (r : Reference) :
    Static (Scoping.superFindings ctx fs r) := by
  refine append ?_ (find _ _)
  split
  · exact fault _ _
  · exact fault _ _
  · exact nil

theorem returnFaults (ctx : Context) (t : Token) (e : Option Expr) :
    Static (Scoping.returnFaults ctx t e) := (when _ _).append (when _ _)

theorem superclassFindings (fs : Frames) (x : Token) (r : Option Reference) :
    Static (Scoping.superclassFindings fs x r) := by
  cases r with
  | none => exact nil
  | some r => exact (when _ _).append (read _ _)

theorem parameters (fs : Frames) (ps : List Token) : Static (Scoping.parameters fs ps).2 := by
  induction ps generalizing fs with
  | nil => exact nil
  | cons p ps ih => exact (declarationFaults _ _).append (ih _)

mutual

theorem expr (ctx : Context) (fs : Frames) : (e : Expr) → Static (Scoping.expr ctx fs e)
  | .literal _ => nil
  | .grouping e => expr ctx fs e
  | .unary _ e => expr ctx fs e
  | .binary l _ r => (expr ctx fs l).append (expr ctx fs r)
  | .logical l _ r => (expr ctx fs l).append (expr ctx fs r)
  | .var r => read fs r
  | .assign r e => (expr ctx fs e).append (find fs r)
  | .call f _ es => (expr ctx fs f).append (exprs ctx fs es)
  | .get e _ => expr ctx fs e
  | .set e _ v => (expr ctx fs v).append (expr ctx fs e)
  | .this r => thisFindings ctx fs r
  | .super r _ => superFindings ctx fs r

theorem exprs (ctx : Context) (fs : Frames) : (es : List Expr) → Static (Scoping.exprs ctx fs es)
  | [] => nil
  | e :: es => (expr ctx fs e).append (exprs ctx fs es)

end

theorem optional (ctx : Context) (fs : Frames) (e : Option Expr) :
    Static (Scoping.optional ctx fs e) := by
  cases e with
  | none => exact nil
  | some e => exact expr ctx fs e

mutual

theorem stmt (ctx : Context) (fs : Frames) : (s : Stmt) → Static (Scoping.stmt ctx fs s).2
  | .expression e => expr ctx fs e
  | .print e => expr ctx fs e
  | .var _ e => (declarationFaults _ _).append (optional ctx _ e)
  | .block ss => stmts ctx _ ss
  | .if e yes no => ((expr ctx fs e).append (stmt ctx fs yes)).append (optionalStmt ctx _ no)
  | .while e s => (expr ctx fs e).append (stmt ctx fs s)
  | .function f => (declarationFaults _ _).append (function ctx _ _ f)
  | .return t e => (returnFaults ctx t e).append (optional ctx fs e)
  | .class _ _ ms => ((declarationFaults _ _).append (superclassFindings _ _ _)).append
      (methodsFindings _ _ ms)

theorem stmts (ctx : Context) (fs : Frames) : (ss : List Stmt) → Static (Scoping.stmts ctx fs ss).2
  | [] => nil
  | s :: ss => (stmt ctx fs s).append (stmts ctx _ ss)

theorem optionalStmt (ctx : Context) (fs : Frames) :
    (s : Option Stmt) → Static (Scoping.optionalStmt ctx fs s).2
  | none => nil
  | some s => stmt ctx fs s

theorem function (ctx : Context) (fs : Frames) (body : Body) :
    (f : Function) → Static (Scoping.function ctx fs body f)
  | .mk _ ps ss => (parameters _ ps).append (stmts _ _ ss)

theorem methodsFindings (ctx : Context) (fs : Frames) :
    (ms : List Function) → Static (Scoping.methodsFindings ctx fs ms)
  | [] => nil
  | f :: ms => (function ctx fs _ f).append (methodsFindings ctx fs ms)

end

end Static

end Scoping

namespace Session

variable {s s' : Session} {bound : Nat} {source : String} {report : Report}

/-- A text that is rejected is so for something static. -/
theorem staticFaults_of_rejected (ha : s.accepted? source = none) :
    (Front.program s.nextId source).staticFaults ≠ [] ∧
      AllStatic (Front.program s.nextId source).staticFaults := by
  have hlexical : AllStatic (Front.program s.nextId source).lexical := allStatic_scan source
  have hread {ds : List Diagnostic} (h : (Front.program s.nextId source).result = .error ds) :
      ds ≠ [] ∧ AllStatic ds := by
    obtain ⟨hne, hfaults⟩ := Grammar.Grows.faults_ofStep Grammar.Grows.topLevel h
    exact ⟨hne, hfaults.allStatic⟩
  unfold accepted? at ha
  unfold Front.staticFaults
  generalize Front.program s.nextId source = front at *
  obtain ⟨lexical, result, nextId⟩ := front
  cases result with
  | error ds =>
    obtain ⟨hne, hds⟩ := hread rfl
    have hnone : (⟨lexical, .error ds, nextId⟩ : Front (List Stmt)).tree? = none := by
      cases lexical <;> rfl
    rw [hnone]
    exact ⟨fun he => hne (List.append_eq_nil_iff.1 he).2, List.forall_mem_append.2 ⟨hlexical, hds⟩⟩
  | ok program =>
    cases lexical with
    | cons d ds => exact ⟨nofun, hlexical⟩
    | nil =>
      refine ⟨fun he => ?_, Scoping.Static.stmts {} [] program⟩
      have he : Scoping.faults (Scoping.program program) = [] := he
      simp [Front.tree?, Option.filter, he] at ha

/-- A fault that stops a program is none of those found before it runs. -/
theorem dynamic_of_perform {program : List Stmt} {d : Diagnostic}
    (h : s.perform (Evaluation.program bound program) = some (.error d, s')) :
    d.isStatic = false := by
  have hkept := Evaluation.keeps_program bound program s.machine
  unfold perform at h
  generalize Evaluation.program bound program s.machine = r at h hkept
  cases hkept with
  | ok => cases h
  | exhausted => cases h
  | fault _ hd =>
    cases h
    exact hd

theorem reported_status {x : Except Diagnostic Unit} (hx : ∀ d, x = .error d → d.isStatic = false) :
    reported x = ⟨.ok, []⟩ ∨ ∃ d, reported x = ⟨.runtimeError, [d]⟩ ∧ d.isStatic = false := by
  cases x with
  | ok u => exact .inl rfl
  | error d => exact .inr ⟨d, rfl, hx d rfl⟩

/-- A program that is executed succeeds, or it fails with something that is not static. -/
theorem ended_of_accepted {program : List Stmt} (ha : s.accepted? source = some program)
    (h : s.run bound source = some (report, s')) :
    report = ⟨.ok, []⟩ ∨ ∃ d, report = ⟨.runtimeError, [d]⟩ ∧ d.isStatic = false := by
  rw [run_of_accepted bound ha] at h
  obtain ⟨⟨x, t⟩, hp, he⟩ := Option.map_eq_some_iff.1 h
  cases he
  apply reported_status
  intro d hd
  dsimp only at hd
  split at hd
  · cases hd
    rfl
  · subst hd
    exact dynamic_of_perform hp

/-- Of a run that comes to an end, how it ended: whether it succeeded, failed or its text
was rejected. -/
theorem run_cases (h : s.run bound source = some (report, s')) :
    (∃ ds depths, report = ⟨.staticError, ds⟩ ∧ ds ≠ [] ∧ AllStatic ds ∧
        s'.machine = { s.machine with depths }) ∨
      report = ⟨.ok, []⟩ ∨ ∃ d, report = ⟨.runtimeError, [d]⟩ ∧ d.isStatic = false := by
  cases ha : s.accepted? source with
  | none =>
    rw [run_of_rejected bound ha] at h
    cases h
    obtain ⟨hne, hstatic⟩ := staticFaults_of_rejected ha
    exact .inl ⟨_, _, rfl, hne, hstatic, rfl⟩
  | some program => exact .inr (ended_of_accepted ha h)

/-- How a run ended can be read off its diagnostics: it succeeded if there are none, its text
was rejected if there are some and all are static, and it failed if there is just one that is
not. A text that is rejected changes nothing on the machine but the depths noted. -/
theorem status_iff (h : s.run bound source = some (report, s')) :
    (report.status = .ok ↔ report.diagnostics = []) ∧
      (report.status = .staticError ↔
        report.diagnostics ≠ [] ∧ ∀ d ∈ report.diagnostics, d.isStatic = true) ∧
      (report.status = .staticError → ∃ depths, s'.machine = { s.machine with depths }) ∧
      (report.status = .runtimeError ↔
        ∃ d, report.diagnostics = [d] ∧ d.isStatic = false) := by
  rcases run_cases h with ⟨ds, depths, rfl, hne, hstatic, hm⟩ | rfl | ⟨d, rfl, hd⟩
  · refine ⟨⟨nofun, fun he => absurd he hne⟩, ⟨fun _ => ⟨hne, hstatic⟩, fun _ => rfl⟩,
      fun _ => ⟨depths, hm⟩, ⟨nofun, ?_⟩⟩
    rintro ⟨d, he, hd⟩
    obtain rfl : ds = [d] := he
    exact Bool.noConfusion ((hstatic d (List.mem_singleton_self d)).symm.trans hd)
  · exact ⟨⟨fun _ => rfl, fun _ => rfl⟩, ⟨nofun, fun he => absurd rfl he.1⟩, nofun,
      ⟨nofun, fun ⟨d, he, _⟩ => by cases he⟩⟩
  · refine ⟨⟨nofun, nofun⟩, ⟨nofun, ?_⟩, nofun, ⟨fun _ => ⟨d, rfl, hd⟩, fun _ => rfl⟩⟩
    rintro ⟨-, hstatic⟩
    exact Bool.noConfusion ((hstatic d (List.mem_singleton_self d)).symm.trans hd)

/-- The first line is printed before the second one fails. -/
theorem status_iff_negatedNil : ∃ report t, (start 0).run 4 "print nil;\n-nil;" = some (report, t) ∧
    report = ⟨.runtimeError, [.runtime 2 .operandNotNumber]⟩ ∧
    ∃ d, report.diagnostics = [d] ∧ d.isStatic = false := by
  have hrun : ((start 0).run 4 "print nil;\n-nil;").map (·.1) =
      some ⟨.runtimeError, [.runtime 2 .operandNotNumber]⟩ := by cbv
  obtain ⟨⟨report, t⟩, hrun, hreport⟩ := Option.map_eq_some_iff.1 hrun
  cases hreport
  exact ⟨_, t, hrun, rfl, (status_iff hrun).2.2.2.1 rfl⟩

end Session

end Lox
