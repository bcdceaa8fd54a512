import Lox.Proofs.Source.MaximalMunch

/-!
# Tokens written with blanks between them

A blank extends no lexeme, whatever stands behind it. Main statement: tokens that are written
with single blanks between them are scanned as these tokens.
-/

set_option autoImplicit false

namespace Lox

/-- The lexemes of the tokens with single blanks between them. -/
def Token.spaced (ts : List Token) : String := " ".intercalate (ts.map (·.lexeme))

namespace Piece

/-- The pieces of tokens with blanks between them. -/
def spaced (ts : List Token) : List Piece := (ts.map token).intersperse space

theorem joined_spaced (ts : List Token) : joined (spaced ts) = (Token.spaced ts).toList := by
  rw [Token.spaced, String.toList_intercalate, List.map_map]
  induction ts with
  | nil => rfl
  | cons t ts ih =>
    cases ts with
    | nil => simp [spaced, token, text, List.intercalate]
    | cons u us =>
      have htail : joined (spaced (t :: u :: us)) =
          t.lexeme.toList ++ ' ' :: joined (spaced (u :: us)) := rfl
      rw [htail, ih]
      simp [List.intercalate]

theorem fits_spaced {ts : List Token} (h : ∀ t ∈ ts, Written t.kind t.lexeme.toList) :
    Fits (spaced ts) := by
  induction ts with
  | nil => trivial
  | cons t ts ih =>
    rw [List.forall_mem_cons] at h
    cases ts with
    | nil => exact ⟨.lexeme h.1.lexeme, ends_nil _ _, trivial⟩
    | cons u us => exact (ih h.2).spaced h.1.lexeme

/-- A stream without faults has the lexemes of its pieces and the end. -/
theorem stream_of_clean (line : Nat) {ps : List Piece} (h : ∀ p ∈ ps, p.clean = true) :
    ∃ last, stream line ps = (lexemes line ps).map Except.ok ++ [.ok ⟨.finish, "", last⟩] := by
  induction ps generalizing line with
  | nil => exact ⟨line, rfl⟩
  | cons p ps ih =>
    rw [List.forall_mem_cons] at h
    obtain ⟨last, hs⟩ := ih (line + newlines p.text) h.2
    apply Exists.intro last
    cases p with
    | blank | comment => exact hs
    | lexeme => exact congrArg (_ :: ·) hs
    | stray | unterminated => cases h.1

/-- On whichever lines, the lexemes are the tokens. -/
theorem lexemes_spaced (line : Nat) (ts : List Token) :
    (lexemes line (spaced ts)).map (fun t => (t.kind, t.lexeme)) =
      ts.map fun t => (t.kind, t.lexeme) := by
  induction ts generalizing line with
  | nil => rfl
  | cons t ts ih =>
    have hlexeme : String.ofList t.lexeme.toList = t.lexeme := String.ofList_toList
    cases ts with
    | nil => simp [spaced, token, lexemes, hlexeme]
    | cons u us =>
      have hrest := ih (line + newlines t.lexeme.toList)
      simpa [spaced, token, space, lexemes, newlines, text, hlexeme] using hrest

end Piece

/-- Tokens that are written with single blanks between them are scanned without a fault, and
each has the kind, the value and the lexeme that it had. -/
theorem scan_spaced {ts : List Token} (h : ∀ t ∈ ts, Piece.Written t.kind t.lexeme.toList) :
    ∃ (us : List Token) (last : Nat),
      scan (Token.spaced ts) = us.map Except.ok ++ [.ok ⟨.finish, "", last⟩] ∧
      us.map (fun t => (t.kind, t.lexeme)) = ts.map fun t => (t.kind, t.lexeme) := by
  have hfits := Piece.fits_spaced h
  have hcut : Piece.cut (Token.spaced ts).toList = Piece.spaced ts := by
    rw [← Piece.joined_spaced]
    exact Piece.cut_eq_of_fits hfits
  obtain ⟨last, hs⟩ := Piece.stream_of_clean 1 fun p hp => (hfits.sound p hp).clean
  refine ⟨Piece.lexemes 1 (Piece.spaced ts), last, ?_, Piece.lexemes_spaced 1 ts⟩
  rw [scan, hcut]
  exact hs

/-- Marks that would be longer without the blank, a comment in a string, and a number before a
point. -/
def neighbours : List Token :=
  [⟨.mark .equal, "=", 1⟩, ⟨.mark .equal, "=", 1⟩, ⟨.string "a // é\n", "\"a // é\n\"", 2⟩,
    ⟨.number (Number.ofNumeral ['1']), "1", 2⟩, ⟨.mark .dot, ".", 2⟩,
    ⟨.number (Number.ofNumeral ['5']), "5", 2⟩, ⟨.word .or, "or", 2⟩, ⟨.identifier, "order", 2⟩]

theorem written_neighbours : ∀ t ∈ neighbours, Piece.Written t.kind t.lexeme.toList := by
  have hdigit {d : Char} (hd : Piece.isDigit d = true) :
      Piece.Written (.number (Number.ofNumeral [d])) [d] := .digits (by simp) (by simpa using hd)
  have hquote : '"' ∉ ['a', ' ', '/', '/', ' ', 'é', '\n'] := by decide
  have hstring : Piece.Written (.string "a // é\n") "\"a // é\n\"".toList := .string hquote
  have hname : Piece.Written .identifier ['o', 'r', 'd', 'e', 'r'] :=
    .name (by decide) (by simp [Piece.continuesName, Piece.startsName]) fun w => by cases w <;> decide
  simp only [neighbours, List.forall_mem_cons, List.not_mem_nil, false_implies, implies_true, and_true]
  exact ⟨.mark .equal, .mark .equal, hstring, hdigit rfl, .mark .dot, hdigit rfl, .word .or, hname⟩

theorem scan_spaced_neighbours :
    Token.spaced neighbours = "= = \"a // é\n\" 1 . 5 or order" ∧
    (∀ t ∈ neighbours, Piece.Written t.kind t.lexeme.toList) ∧
    ∃ (us : List Token) (last : Nat),
      scan (Token.spaced neighbours) = us.map Except.ok ++ [.ok ⟨.finish, "", last⟩] ∧
      us.map (fun t => (t.kind, t.lexeme)) = neighbours.map fun t => (t.kind, t.lexeme) :=
  ⟨by decide, written_neighbours, scan_spaced written_neighbours⟩

end Lox
