import Lox.Proofs.Source.Position

/-!
# Scanning goes on behind a stray character

A stray character ends the piece in front of it just as a blank does, and what is behind it is
cut on its own. So a blank in its place takes its fault out of the stream and nothing else.
-/

set_option autoImplicit false

namespace Lox.Piece

variable {p : Piece} {before after : List Piece} {pre post : List Char} {c d : Char}

/-- If the one character does not come first, nor does the other in its place. -/
theorem Avoids.replace {test : Char → Bool} (h : Avoids test (pre ++ c :: post))
    (hd : test d = false) : Avoids test (pre ++ d :: post) := by
  cases pre with
  | nil =>
    rintro _ ⟨⟩
    exact hd
  | cons => exact h

/-- A lexeme that ends in front of a text still ends there when a character of the text becomes
a blank. -/
theorem Ends.replace {k : Kind} {text : List Char} (h : Ends (.lexeme k text) (pre ++ c :: post)) :
    Ends (.lexeme k text) (pre ++ ' ' :: post) := by
  cases k with
  | number =>
    refine ⟨h.1.replace (by decide), fun hdot d r he => ?_⟩
    rcases pre with _ | ⟨a, _ | ⟨b, pre⟩⟩
    · cases he
    · cases he
      decide
    · cases he
      exact h.2 hdot d _ rfl
  | mark m => cases m <;> first | trivial | exact Avoids.replace h (by decide)
  | word | identifier => exact Avoids.replace h (by decide)
  | string | finish => trivial

/-- So does every piece, if the character is no line break. -/
theorem Munch.replace (h : Munch p (pre ++ c :: post)) (hc : c ≠ '\n') :
    Munch p (pre ++ ' ' :: post) := by
  generalize hr : pre ++ c :: post = rest at h
  cases h with
  | blank hb => exact .blank hb
  | comment hcs hhead =>
    apply Munch.comment hcs
    subst hr
    -- Only a line break ends a comment, so the character stands further on.
    cases pre with
    | nil => exact absurd (hhead c rfl) hc
    | cons => exact hhead
  | lexeme hw hl =>
    subst hr
    have he := (longest_iff_ends hw.lexeme).1 hl
    exact .lexeme hw ((longest_iff_ends hw.lexeme).2 he.replace)
  | stray hb hl => exact .stray hb hl
  | unterminated => simp at hr

/-- A blank in place of a stray character leaves all other pieces as they are. -/
theorem Munched.replace (h : Munched (before ++ .stray c :: after)) (hc : c ≠ '\n') :
    Munched (before ++ space :: after) := by
  induction before with
  | nil =>
    obtain _ | ⟨-, hafter⟩ := h
    exact .cons (.blank (by simp)) hafter
  | cons p before ih =>
    obtain _ | ⟨hp, hbehind⟩ := h
    have hp : Munch p (joined before ++ c :: joined after) := by simpa [text] using hp
    have hp' : Munch p (joined (before ++ space :: after)) := by
      simpa [text, space] using hp.replace hc
    exact .cons hp' (ih hbehind)

end Lox.Piece

namespace Lox

open Piece

variable {source : String} {items items' : List Scanned} {line : Nat} {c : Char}

/-- If an unexpected character becomes a blank, its fault is no longer in the stream, and all
else in the stream is as it was. -/
theorem scan_blanked
    (h : scan source = items ++ .error (.lexical line (.unexpectedCharacter c)) :: items') :
    ∃ pre post, Stands source items (.error (.lexical line (.unexpectedCharacter c))) items'
        pre [c] post ∧
      scan (String.ofList (pre ++ ' ' :: post)) = items ++ items' := by
  rcases stream_split h with ⟨before, p, after, hcut, rfl, hp, rfl⟩ | ⟨-, hend, -⟩
  · have hm := munched_cut source.toList
    rw [hcut] at hm
    cases p with
    | stray d =>
      cases hp
      have hc : c ≠ '\n' := ne_newline_of_stray (by rw [hcut]; simp)
      refine ⟨joined before, joined after, .of_cut hcut rfl, ?_⟩
      have hblanked : joined before ++ ' ' :: joined after = joined (before ++ space :: after) := by
        simp [space, text]
      rw [scan, String.toList_ofList, hblanked, ← (hm.replace hc).eq_cut, stream_append]
      -- Neither the blank nor the character is a line break, so the lines behind are the same.
      have hlines : 1 + newlines (joined before) + newlines [' '] =
          1 + newlines (joined before ++ [c]) := by
        simp [newlines, hc]
      show entries 1 before ++ stream (1 + newlines (joined before) + newlines [' ']) after = _
      rw [hlines]
      rfl
    | _ => cases hp
  · cases hend

/-- Taking the second fault out leaves the first one in. -/
theorem scan_blanked_snowman :
    scan "!☃=\n/é/ \"a\"" =
        [.ok ⟨.mark .bang, "!", 1⟩, .error (.lexical 1 (.unexpectedCharacter '☃')),
          .ok ⟨.mark .equal, "=", 1⟩, .ok ⟨.mark .slash, "/", 2⟩] ++
        .error (.lexical 2 (.unexpectedCharacter 'é')) ::
        [.ok ⟨.mark .slash, "/", 2⟩, .ok ⟨.string "a", "\"a\"", 2⟩, ending 2] ∧
      ∃ pre post, pre ++ 'é' :: post = "!☃=\n/é/ \"a\"".toList ∧
        scan (String.ofList (pre ++ ' ' :: post)) =
          [.ok ⟨.mark .bang, "!", 1⟩, .error (.lexical 1 (.unexpectedCharacter '☃')),
            .ok ⟨.mark .equal, "=", 1⟩, .ok ⟨.mark .slash, "/", 2⟩,
            .ok ⟨.mark .slash, "/", 2⟩, .ok ⟨.string "a", "\"a\"", 2⟩, ending 2] := by
  have hscan : scan "!☃=\n/é/ \"a\"" =
      [.ok ⟨.mark .bang, "!", 1⟩, .error (.lexical 1 (.unexpectedCharacter '☃')),
        .ok ⟨.mark .equal, "=", 1⟩, .ok ⟨.mark .slash, "/", 2⟩] ++
      .error (.lexical 2 (.unexpectedCharacter 'é')) ::
      [.ok ⟨.mark .slash, "/", 2⟩, .ok ⟨.string "a", "\"a\"", 2⟩, ending 2] := by cbv
  obtain ⟨pre, post, hs, hblanked⟩ := scan_blanked hscan
  refine ⟨hscan, pre, post, ?_, hblanked⟩
  rw [hs.source_eq, List.append_assoc]
  rfl

end Lox
