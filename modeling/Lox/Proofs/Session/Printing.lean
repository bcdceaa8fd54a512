import Lox.CommandLine.Execution
import Lox.Proofs.Session.History
import Lox.Proofs.Source.Joining
import Lox.Proofs.Source.Printed

/-!
# Printing an expression

The program that prints an expression is read as the expression alone is, with the same
identities and lines. Without `this` and `super` its scoping finds no fault, and no depth to
note outside of all scopes. Main statement: running this program and evaluating the
expression come to the same.
-/

set_option autoImplicit false

namespace Lox

mutual

/-- Neither `this` nor `super` occurs. -/
def Expr.Selfless : Expr → Prop
  | .literal _ | .var _ => True
  | .grouping e | .unary _ e | .assign _ e | .get e _ => e.Selfless
  | .binary l _ r | .logical l _ r => l.Selfless ∧ r.Selfless
  | .call f _ es => f.Selfless ∧ Expr.AllSelfless es
  | .set e _ v => e.Selfless ∧ v.Selfless
  | .this _ | .super _ _ => False

def Expr.AllSelfless : List Expr → Prop
  | [] => True
  | e :: es => e.Selfless ∧ Expr.AllSelfless es

end

/-- No token that refers to an instance or its class. -/
def Selfless (ts : List Token) : Prop := ∀ t ∈ ts, t.kind ≠ .word .this ∧ t.kind ≠ .word .super

namespace Grammar

def Phrase.Selfless : Phrase → Prop
  | .expr _ e => e.Selfless
  | .operands _ first e => first.Selfless → e.Selfless
  | .suffixes first e => first.Selfless → e.Selfless
  | .arguments _ es => Expr.AllSelfless es
  | _ => True

theorem selfless_join {c : Chain} {l r : Expr} {op : Token} (hl : l.Selfless) (hr : r.Selfless) :
    (c.join l op r).Selfless := by
  cases c <;> exact ⟨hl, hr⟩

/-- What occurs in a tree occurs in its text. -/
theorem Derives.selfless {before : Bool → Prop} {p : Phrase} {ts : List Token} {n k : Nat}
    {ds : List Diagnostic} (h : Derives before p ts n k ds) (hts : Lox.Selfless ts) : p.Selfless := by
  induction h with
  | this ht => exact (hts _ List.mem_cons_self).1 ht
  | super ht hd hx => exact (hts _ List.mem_cons_self).2 ht
  | grouping ho he hc ih => exact ih fun t ht => hts t (by simp [ht])
  | call hp hs ihp ihs =>
    exact ihs (fun t ht => hts t (by simp [ht])) (ihp fun t ht => hts t (by simp [ht]))
  | noSuffix => exact fun hf => hf
  | emptyCall ho hc hs ih => exact fun hf => ih (fun t ht => hts t (by simp [ht])) ⟨hf, trivial⟩
  | argumentCall ho ha hc hs iha ihs =>
    intro hf
    exact ihs (fun t ht => hts t (by simp [ht])) ⟨hf, iha fun t ht => hts t (by simp [ht])⟩
  | property hd hx hs ih => exact fun hf => ih (fun t ht => hts t (by simp [ht])) hf
  | argument he ih => exact ⟨ih hts, trivial⟩
  | moreArguments he hc ha ihe iha =>
    exact ⟨ihe fun t ht => hts t (by simp [ht]), iha fun t ht => hts t (by simp [ht])⟩
  | operator ho he ih => exact ih fun t ht => hts t (by simp [ht])
  | noOperator he ih => exact ih hts
  | chain hl ho ihl iho =>
    exact iho (fun t ht => hts t (by simp [ht])) (ihl fun t ht => hts t (by simp [ht]))
  | noOperand => exact fun hf => hf
  | operand ho hr hs ihr ihs =>
    intro hf
    exact ihs (fun t ht => hts t (by simp [ht]))
      (selfless_join hf (ihr fun t ht => hts t (by simp [ht])))
  | noAssignment he ih => exact ih hts
  | assignVar hx hq hv ih => exact ih fun t ht => hts t (by simp [ht])
  | assignProperty ho hd hx hq hv iho ihv =>
    exact ⟨iho fun t ht => hts t (by simp [ht]), ihv fun t ht => hts t (by simp [ht])⟩
  | invalidTarget he ha hq hv ihe ihv => exact ihe fun t ht => hts t (by simp [ht])
  | _ => trivial

end Grammar

namespace Scoping

mutual

/-- Outside of all scopes every name is global. -/
theorem expr_global (ctx : Context) : (e : Expr) → e.Selfless →
    expr ctx [] e = e.references.map fun r => .lookup r none
  | .literal _, _ => rfl
  | .grouping e, h => expr_global ctx e h
  | .unary _ e, h => expr_global ctx e h
  | .binary l _ r, h => by
    rw [expr, Expr.references, List.map_append, expr_global ctx l h.1, expr_global ctx r h.2]
  | .logical l _ r, h => by
    rw [expr, Expr.references, List.map_append, expr_global ctx l h.1, expr_global ctx r h.2]
  | .var _, _ => rfl
  | .assign r e, h => by
    rw [expr, Expr.references, List.map_append, expr_global ctx e h]
    rfl
  | .call f _ es, h => by
    rw [expr, Expr.references, List.map_append, expr_global ctx f h.1, exprs_global ctx es h.2]
  | .get e _, h => expr_global ctx e h
  | .set e _ v, h => by
    rw [expr, Expr.references, List.map_append, expr_global ctx v h.2, expr_global ctx e h.1]

theorem exprs_global (ctx : Context) : (es : List Expr) → Expr.AllSelfless es →
    exprs ctx [] es = (Expr.allReferences es).map fun r => .lookup r none
  | [], _ => rfl
  | e :: es, h => by
    rw [exprs, Expr.allReferences, List.map_append, expr_global ctx e h.1, exprs_global ctx es h.2]

end

variable {e : Expr} (h : e.Selfless)

include h

theorem program_print : program [.print e] = e.references.map fun r => .lookup r none := by
  show expr {} [] e ++ [] = _
  rw [List.append_nil, expr_global _ e h]

theorem faults_print : faults (program [.print e]) = [] := by
  rw [program_print h, faults, List.filterMap_map, List.filterMap_eq_nil_iff]
  exact fun _ _ => rfl

theorem lookups_print : lookups (program [.print e]) = e.references.map fun r => (r, none) := by
  rw [program_print h, lookups, List.filterMap_map, ← List.filterMap_eq_map]
  rfl

end Scoping

/-- Without depths there is nothing to note. -/
theorem Depths.record_global (d : Depths) (rs : List Reference) :
    d.record (rs.map fun r => (r, none)) = d := by
  induction rs with
  | nil => rfl
  | cons r rs ih => exact ih

/-- The program that prints the expression of a text. A comment at the end of the text ends
with the line. -/
def printing (source : String) : String := "print " ++ source ++ "\n;"

namespace Front

/-- The program that prints an expression has its tree. -/
theorem program_printing {n : Nat} {source : String} {e : Expr}
    (h : (Front.expression n source).tree? = some e) :
    (Front.program n (printing source)).tree? = some [.print e] := by
  obtain ⟨hfit, hd⟩ := ofSource_tree exact_expression h
  let ps := Piece.cut source.toList
  let printed : List Piece := .lexeme (.word .print) "print".toList :: .blank ' ' :: ps
  let closing : List Piece := [.lexeme (.mark .semicolon) [';']]
  have htext : String.ofList ((printed ++ .blank '\n' :: closing).map Piece.text).flatten =
      printing source := by
    apply String.toList_inj.1
    simp [printed, closing, ps, printing, Piece.flatten_cut, Piece.text]
  have hword : Piece.Lexeme (.word .print) "print".toList := .ofWord .print
  have hends : Piece.Avoids Piece.continuesName ((Piece.blank ' ' :: ps).map Piece.text).flatten := by
    simp [Piece.Avoids, Piece.text]
    decide
  have hprinted : Piece.Fits printed := ⟨.lexeme hword, hends, .blank (by decide), trivial, hfit⟩
  have hclosing : Piece.Fits closing := ⟨.lexeme (.single rfl), trivial, trivial⟩
  have hlines : Piece.lexemes 1 (printed ++ .blank '\n' :: closing) =
      ⟨.word .print, "print", 1⟩ :: Piece.lexemes 1 ps ++
        Piece.lexemes (1 + Piece.newlines (printed.map Piece.text).flatten + 1) closing := by
    rw [Piece.lexemes_append]
    rfl
  have hderives : Grammar.Derives Grammar.Complete (.declarations [.print e])
      (Piece.lexemes 1 (printed ++ .blank '\n' :: closing)) n
      (Front.expression n source).nextId [] := by
    rw [hlines]
    have hprint := Grammar.Derives.print (w := ⟨.word .print, "print", 1⟩) rfl hd
      (s := ⟨.mark .semicolon, ";", 1 + Piece.newlines (printed.map Piece.text).flatten + 1⟩) rfl
    have hprogram := hprint.declaredStatement.moreDeclarations .noDeclaration
    rw [List.append_nil, List.append_nil] at hprogram
    exact hprogram
  rw [← htext]
  exact (program_of_fits (hprinted.join hclosing) hderives).1

end Front

namespace Session

/-- What a statement that prints shows of an evaluation: a report and all lines printed. -/
def printed : Except Diagnostic Value × Session → Report × List String
  | (.ok v, t) => (⟨.ok, []⟩, t.takeLines.1 ++ [v.text])
  | (.error d, t) => (⟨.runtimeError, [d]⟩, t.takeLines.1)

/-- What a run shows of itself: its report and all lines printed. -/
def shown (r : Report × Session) : Report × List String := (r.1, r.2.takeLines.1)

variable {s : Session} {source : String} {e : Expr}

theorem accepted?_printing (he : (Front.expression s.nextId source).tree? = some e)
    (hself : e.Selfless) : s.accepted? (printing source) = some [.print e] := by
  rw [accepted?, Front.program_printing he, Option.filter_some, Scoping.faults_print hself]
  rfl

/-- With room for all lines, printing only adds the line. -/
theorem perform_print {t : Session} (ht : t.machine = s.machine)
    (hroom : s.machine.sink.room = none) (hflush : s.machine.sink.flushFails = false)
    (bound : Nat) (e : Expr) :
    ((t.perform (Evaluation.program (bound + 1) [.print e])).map concluded).map shown =
      (s.evaluate bound e).map printed := by
  have hkept := (Evaluation.keeping bound).evaluate Machine.global e s.machine
  have hrun : Evaluation.program (bound + 1) [.print e] =
      Evaluation.evaluate bound Machine.global e >>= fun v => Run.printLine v.text := by
    simp only [Evaluation.program, Evaluation.execute, bind_assoc, pure_bind, bind_pure_unit]
  unfold evaluate perform
  rw [ht, hrun]
  cases h : Evaluation.evaluate bound Machine.global e s.machine with
  | ok v m =>
    rw [h] at hkept
    have hroom := hkept.unchanged.roomy hroom
    have hflush := hkept.unchanged.flushFails.trans hflush
    rw [Run.bind_ok h]
    simp only [Run.left] at hroom hflush
    simp [Run.printLine, hroom, concluded, reported, hflush, shown, printed, takeLines]
  | error stop m =>
    rw [h] at hkept
    have hflush := hkept.unchanged.flushFails.trans hflush
    rw [Run.bind_error h]
    simp only [Run.left] at hflush
    cases stop with
    | fault d => simp [concluded, reported, hflush, shown, printed, takeLines]
    | exhausted => rfl

theorem run_printing (hroom : s.machine.sink.room = none)
    (hflush : s.machine.sink.flushFails = false)
    (he : (Front.expression s.nextId source).tree? = some e) (hself : e.Selfless) (bound : Nat) :
    (s.run (bound + 1) (printing source)).map shown = (s.evaluate bound e).map printed := by
  rw [run_of_accepted _ (accepted?_printing he hself)]
  have hprepared : (s.prepared (printing source) [.print e]).machine = s.machine := by
    show s.machine.note _ = _
    rw [Scoping.lookups_print hself, Machine.note_eq, Depths.record_global]
  exact perform_print hprepared hroom hflush bound e

/-- A session that has run nothing, on a machine with any functions of the host. -/
inductive Fresh : Session → Prop
  | start (now : Nat) : Fresh (.start now)
  | defineGiven {s : Session} (h : Fresh s) (name : String) (arity : Nat) (code : Host) :
      Fresh (s.defineGiven name arity code)

theorem Fresh.nextId {s : Session} (h : Fresh s) : s.nextId = 0 := by
  induction h with
  | start now => rfl
  | defineGiven h name arity code ih => exact ih

theorem Fresh.sink {s : Session} (h : Fresh s) : s.machine.sink = {} := by
  induction h with
  | start now => rfl
  | defineGiven h name arity code ih => exact ih

end Session

namespace CommandLine

open Session

theorem run_eq (bound now : Nat) (source : String) :
    run bound now source = (((start now).run bound source).map shown).map fun r =>
      { exit := r.1.status.exitCode, stdout := lines r.2, stderr := diagnosticLines r.1.diagnostics } := by
  unfold run
  cases (start now).run bound source <;> rfl

theorem evaluate_eq {source : String} {e : Expr}
    (he : (Front.expression 0 source).tree? = some e) (bound now : Nat) :
    evaluate bound now source = (((start now).evaluate bound e).map printed).map fun r =>
      { exit := r.1.status.exitCode, stdout := lines r.2, stderr := diagnosticLines r.1.diagnostics } := by
  unfold evaluate
  simp only [he]
  cases (start now).evaluate bound e with
  | none => rfl
  | some r =>
    obtain ⟨x, t⟩ := r
    cases x with
    | ok v =>
      simp [printed, diagnosticLines, lines]
      rfl
    | error d => simp [printed, diagnosticLines, lines]

/-- An expression without `this` and `super` comes to the same whether it is evaluated, as an
expression without static scoping, or printed, by a program that is scoped and run: the same
text is printed, with the same exit code, and the same fault is reported if there is one. This
holds for the two commands, and in a fresh session whatever the functions of the host are. -/
theorem evaluate_eq_run_printing {source : String} {e : Expr}
    (he : (Front.expression 0 source).tree? = some e)
    (hself : Selfless (Scanned.tokens (scan source))) (bound : Nat) :
    (∀ now, run (bound + 1) now (printing source) = evaluate bound now source) ∧
      ∀ s, Fresh s → (s.run (bound + 1) (printing source)).map shown =
        (s.evaluate bound e).map printed := by
  have hselfless : e.Selfless := by
    obtain ⟨last, hts⟩ := Piece.tokens_stream 1 (Piece.cut source.toList)
    apply (Front.ofSource_tree Front.exact_expression he).2.selfless
    intro t ht
    apply hself t
    rw [scan, hts]
    exact List.mem_append_left _ ht
  have hfresh (s : Session) (hs : Fresh s) : (s.run (bound + 1) (printing source)).map shown =
      (s.evaluate bound e).map printed := by
    refine run_printing ?_ ?_ (by rwa [hs.nextId]) hselfless bound
    · rw [hs.sink]
    · rw [hs.sink]
  refine ⟨fun now => ?_, hfresh⟩
  rw [run_eq, evaluate_eq he, hfresh _ (.start now)]

/-- An operand that is no number, with a comment that takes the rest of the line. -/
def negatedText : String := "-\n(nil) // no"

theorem selfless_negated : Selfless (Scanned.tokens (scan negatedText)) := by
  have hkinds : (Scanned.tokens (scan negatedText)).map (·.kind) =
      [.mark .minus, .mark .leftParen, .word .nil, .mark .rightParen, .finish] := by cbv
  have hselfless : ∀ k ∈ (Scanned.tokens (scan negatedText)).map (·.kind),
      k ≠ .word .this ∧ k ≠ .word .super := by
    rw [hkinds]
    decide
  exact fun t ht => hselfless t.kind (List.mem_map_of_mem ht)

theorem evaluate_eq_run_printing_negated :
    run 4 0 (printing negatedText) = evaluate 3 0 negatedText ∧
      ((start 0).run 4 (printing negatedText)).map shown =
        some (⟨.runtimeError, [.runtime 1 .operandNotNumber]⟩, []) := by
  have he : (Front.expression 0 negatedText).tree? =
      some (.unary ⟨.mark .minus, "-", 1⟩ (.grouping (.literal .nil))) := by cbv
  have h := evaluate_eq_run_printing he selfless_negated 3
  exact ⟨h.1 0, (h.2 _ (.start 0)).trans rfl⟩

end CommandLine

end Lox
