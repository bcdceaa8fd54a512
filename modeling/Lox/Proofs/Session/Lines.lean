import Lox.Proofs.Scoping.Origin
import Lox.Proofs.Session.Status
import Lox.Proofs.Source.Counter

/-!
# The lines of a report

Parsing and scoping copy the lines of their faults from tokens, and the line of a token is that
of the text on which its lexeme ends. Main statement: lines are exact in the stream of a text,
and no fault that a run finds in a text before executing it is on a line that the text has not.
-/

set_option autoImplicit false

namespace Lox

/-- A diagnostic on one of these lines. -/
def Diagnostic.Within (first last : Nat) (d : Diagnostic) : Prop :=
  ∃ line, d.line? = some line ∧ first ≤ line ∧ line ≤ last

namespace Front

open Piece

/-- The token is on a line of the text. -/
def OnLine (source : String) (t : Token) : Prop := 1 ≤ t.line ∧ t.line ≤ 1 + newlines source.toList

theorem within_scan (source : String) :
    ∀ item ∈ scan source, item.Within 1 (1 + newlines source.toList) := by
  have h := within_stream 1 (cut source.toList)
  rwa [joined_cut] at h

theorem onLine_tokens (source : String) : ∀ t ∈ Scanned.tokens (scan source), OnLine source t := by
  intro t ht
  obtain ⟨item, hi, he⟩ := List.mem_filterMap.1 ht
  cases item with
  | error d => cases he
  | ok u =>
    cases he
    obtain ⟨line, hline, h⟩ := within_scan source _ hi
    cases hline
    exact h

theorem over_cursor (n : Nat) (source : String) :
    (Grammar.Cursor.ofTokens n (Scanned.tokens (scan source))).Over (OnLine source) := by
  apply Grammar.Cursor.over_ofTokens n (onLine_tokens source)
  obtain ⟨last, hts⟩ := tokens_stream 1 (cut source.toList)
  have hts : Scanned.tokens (scan source) = _ := hts
  rw [hts]
  exact ⟨⟨.finish, "", last⟩, by simp, rfl⟩

theorem within_lexical (source : String) :
    ∀ d ∈ Scanned.faults (scan source), d.Within 1 (1 + newlines source.toList) := by
  intro d hd
  obtain ⟨item, hi, he⟩ := List.mem_filterMap.1 hd
  cases item with
  | ok t => cases he
  | error d' =>
    cases he
    exact within_scan source _ hi

/-- Whatever the front end finds wrong with a text is on a line of it. -/
theorem within_staticFaults (n : Nat) (source : String) :
    ∀ d ∈ (Front.program n source).staticFaults, d.Within 1 (1 + newlines source.toList) := by
  have hread : (Grammar.readProgram n (Scanned.tokens (scan source))).Over (OnLine source) _ :=
    Grammar.Draws.ofStep Grammar.Draws.topLevel (over_cursor n source)
  have hlexical : ∀ d ∈ (Front.program n source).lexical,
      d.Within 1 (1 + newlines source.toList) := within_lexical source
  have hparse (ds : List Diagnostic) (h : (Front.program n source).result = .error ds) :
      ∀ d ∈ ds, d.Within 1 (1 + newlines source.toList) := by
    intro d hd
    obtain ⟨cause, t, ht, rfl⟩ := hread.faults ds h d hd
    exact ⟨t.line, rfl, ht⟩
  have hscoping (program : List Stmt) (h : (Front.program n source).result = .ok program) :
      ∀ d ∈ Scoping.faults (Scoping.program program), d.Within 1 (1 + newlines source.toList) := by
    intro d hd
    obtain ⟨cause, t, ht, rfl⟩ := Scoping.At.stmts {} [] program (hread.tree program h) d hd
    exact ⟨t.line, rfl, ht⟩
  unfold staticFaults
  generalize Front.program n source = front at *
  obtain ⟨lexical, result, nextId⟩ := front
  cases result with
  | error ds =>
    have hall := List.forall_mem_append.2 ⟨hlexical, hparse ds rfl⟩
    cases lexical <;> exact hall
  | ok program =>
    cases lexical with
    | nil => exact hscoping program rfl
    | cons d ds => exact hlexical

end Front

namespace Session

open Piece

variable {s s' : Session} {bound : Nat} {source : String} {report : Report}

/-- What a run finds in a text before executing it is on a line of the text. -/
theorem within_report (h : s.run bound source = some (report, s')) :
    ∀ d ∈ report.diagnostics, d.isStatic = true → d.Within 1 (1 + newlines source.toList) := by
  intro d hd hstatic
  cases ha : s.accepted? source with
  | none =>
    rw [run_of_rejected bound ha] at h
    cases h
    exact Front.within_staticFaults s.nextId source d hd
  | some program =>
    rcases ended_of_accepted ha h with rfl | ⟨d', rfl, hd'⟩
    · cases hd
    · obtain rfl := List.mem_singleton.1 hd
      exact Bool.noConfusion (hstatic.symm.trans hd')

/-- Lines are exact. A token is on the line on which its lexeme ends, the end of the input on the
last one, an unexpected character on its own line and a string that is never closed on the last
line. Counting in just two places gives these lines. Along the stream they never decrease, and
whatever a run reports of a text without executing it is on one of its lines. -/
theorem lines_exact (source : String) :
    walk 1 source.toList = scan source ∧
    (∀ items t items', scan source = items ++ .ok t :: items' →
      ∃ pre post, Stands source items (.ok t) items' pre t.lexeme.toList post ∧
        t.line = 1 + newlines (pre ++ t.lexeme.toList) ∧ (t.kind = .finish → post = [])) ∧
    (∀ items line c items',
      scan source = items ++ .error (.lexical line (.unexpectedCharacter c)) :: items' →
      ∃ pre post,
        Stands source items (.error (.lexical line (.unexpectedCharacter c))) items' pre [c] post ∧
        line = 1 + newlines pre) ∧
    (∀ line, .error (.lexical line .unterminatedString) ∈ scan source →
      line = 1 + newlines source.toList) ∧
    (scan source).Pairwise Scanned.NoLater ∧
    ∀ bound (s s' : Session) report, s.run bound source = some (report, s') →
      ∀ d ∈ report.diagnostics, d.isStatic = true → d.Within 1 (1 + newlines source.toList) :=
  ⟨walk_eq 1 source.toList, fun _ _ _ h => stands_token h, fun _ _ _ _ h => stands_unexpected h,
    fun _ h => line_unterminated h, pairwise_stream 1 _, fun _ _ _ _ h => within_report h⟩

/-- A string over two lines is on the second one, and the fault behind it on the third. -/
theorem lines_exact_twoLines : ∃ pre post,
    "\"a\nb\" +\n;".toList = pre ++ "\"a\nb\"".toList ++ post ∧
      2 = 1 + newlines (pre ++ "\"a\nb\"".toList) ∧
      ∃ report t, (start 0).run 1 "\"a\nb\" +\n;" = some (report, t) ∧
        report.diagnostics = [.parse 3 (.lexeme ";") .noExpression] ∧
        ∀ d ∈ report.diagnostics, d.isStatic = true → d.Within 1 3 := by
  obtain ⟨-, htokens, -, -, -, hreport⟩ := lines_exact "\"a\nb\" +\n;"
  have hscan : scan "\"a\nb\" +\n;" = [] ++ .ok ⟨.string "a\nb", "\"a\nb\"", 2⟩ ::
      [.ok ⟨.mark .plus, "+", 2⟩, .ok ⟨.mark .semicolon, ";", 3⟩, ending 3] := by cbv
  have hrun : ((start 0).run 1 "\"a\nb\" +\n;").map (·.1) =
      some ⟨.staticError, [.parse 3 (.lexeme ";") .noExpression]⟩ := by cbv
  obtain ⟨pre, post, hs, hline, -⟩ := htokens _ _ _ hscan
  obtain ⟨⟨report, t⟩, hrun, hreported⟩ := Option.map_eq_some_iff.1 hrun
  obtain rfl : report = _ := hreported
  exact ⟨pre, post, hs.source_eq, hline, _, t, hrun, rfl, hreport _ _ _ _ hrun⟩

end Session

end Lox
