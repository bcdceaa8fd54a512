import Lox.Proofs.Number.Overflow
import Lox.Proofs.Source.Position

/-!
# Numbers printed and scanned again

A number literal is printed as the shortest numeral of its value, so scanning the print gives the
value back. Only a numeral too large for a double is lost: infinity is printed as a name.
-/

set_option autoImplicit false

namespace Lox

open Piece Number

/-- A text that is a lexeme gives its token and the end. -/
theorem scan_lexeme {k : Kind} {text : String} (h : Lexeme k text.toList) :
    scan text = [.ok ⟨k, text, 1 + newlines text.toList⟩, ending (1 + newlines text.toList)] := by
  have hfits : Fits [.lexeme k text.toList] := ⟨.lexeme h, ends_nil k _, trivial⟩
  have hcut : cut text.toList = [.lexeme k text.toList] := by
    have hcut := cut_eq_of_fits hfits
    simpa [Piece.text] using hcut
  simp [scan, hcut, stream, scanned?, Piece.text, ending]

/-- A numeral is on one line. -/
theorem newlines_number {x : Float} {cs : List Char} (h : Lexeme (.number x) cs) :
    newlines cs = 0 := by
  have hdigit {ds : List Char} (hds : ∀ d ∈ ds, isDigit d = true) : '\n' ∉ ds := by
    intro hmem
    cases hds _ hmem
  rw [newlines, List.count_eq_zero]
  cases h.written with
  | digits _ hcs => exact hdigit hcs
  | fraction _ hcs _ hds =>
    intro hmem
    rcases List.mem_append.1 hmem with hmem | hmem
    · exact hdigit hcs hmem
    · rcases List.mem_cons.1 hmem with he | hmem
      · cases he
      · exact hdigit hds hmem

/-- The only token of a numeral, and the end. -/
theorem scan_number {x : Float} {text : String} (h : Lexeme (.number x) text.toList) :
    scan text = [.ok ⟨.number x, text, 1⟩, ending 1] := by
  have hscan := scan_lexeme h
  rwa [newlines_number h] at hscan

theorem source_number (x : Float) : (Expr.literal (.number x)).source = shortText x := by
  simp [Expr.source, Literal.source]

theorem scan_inf : scan "inf" = [.ok ⟨.identifier, "inf", 1⟩, ending 1] := by cbv

/-- A numeral below the bound comes back from its print as the same number, and from there on
what is printed is a name. -/
theorem scan_printed_numeral {cs : List Char} (h : Written (.number (ofNumeral cs)) cs) :
    scan (String.ofList cs) = [.ok ⟨.number (ofNumeral cs), String.ofList cs, 1⟩, ending 1] ∧
    ((exactly cs).1 < overflow * (exactly cs).2 →
      scan (Expr.literal (.number (ofNumeral cs))).source =
        [.ok ⟨.number (ofNumeral cs), (Expr.literal (.number (ofNumeral cs))).source, 1⟩, ending 1]) ∧
    (overflow * (exactly cs).2 ≤ (exactly cs).1 →
      (Expr.literal (.number (ofNumeral cs))).source = "inf" ∧
      scan (Expr.literal (.number (ofNumeral cs))).source = [.ok ⟨.identifier, "inf", 1⟩, ending 1]) := by
  rw [source_number]
  refine ⟨?_, fun hlt => ?_, fun hle => ?_⟩
  · apply scan_number
    rw [String.toList_ofList]
    exact h.lexeme
  · exact scan_number (shortText_ofNumeral ((finite_ofNumeral_iff cs).2 hlt))
  · rw [shortText_overflow hle]
    exact ⟨rfl, scan_inf⟩

/-- A value with a fraction comes back. -/
theorem scan_printed_numeral_half :
    Written (.number (ofNumeral ['0', '.', '5', '0'])) ['0', '.', '5', '0'] ∧
    scan (Expr.literal (.number (ofNumeral ['0', '.', '5', '0']))).source =
      [.ok ⟨.number (ofNumeral ['0', '.', '5', '0']),
        (Expr.literal (.number (ofNumeral ['0', '.', '5', '0']))).source, 1⟩, ending 1] := by
  have hwhole : ∀ d ∈ ['0'], isDigit d = true := by simp [isDigit]
  have hplaces : ∀ d ∈ ['5', '0'], isDigit d = true := by simp [isDigit]
  have hw := Written.fraction (List.cons_ne_nil _ _) hwhole (List.cons_ne_nil _ _) hplaces
  rw [List.cons_append, List.nil_append] at hw
  exact ⟨hw, (scan_printed_numeral hw).2.1 (by decide +kernel)⟩

/-- The numeral that is a one and 309 zeros is printed as a name. -/
theorem printed_numeral_lost :
    Written (.number (ofNumeral ('1' :: List.replicate 309 '0'))) ('1' :: List.replicate 309 '0') ∧
    scan (Expr.literal (.number (ofNumeral ('1' :: List.replicate 309 '0')))).source =
      [.ok ⟨.identifier, "inf", 1⟩, ending 1] := by
  have hdigits : ∀ d ∈ '1' :: List.replicate 309 '0', isDigit d = true := by
    refine List.forall_mem_cons.2 ⟨by decide, fun d hd => ?_⟩
    rw [List.eq_of_mem_replicate hd]
    decide
  refine ⟨.digits (List.cons_ne_nil _ _) hdigits, ?_⟩
  rw [source_number, shortText_overflow (by decide +kernel)]
  exact scan_inf

end Lox
