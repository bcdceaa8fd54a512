import Lox.Proofs.Grammar.Tracked
import Lox.Proofs.Source.Stream

/-!
# Joining texts

A line break extends no piece. So two texts without faults, the second from a new line on,
are cut as each of them alone, and the program of the whole is the one and then the other.
-/

set_option autoImplicit false

namespace Lox.Piece

theorem Avoids.newline {p : Char → Bool} (hp : p '\n' = false) {rest : List Char}
    (h : Avoids p rest) (cs : List Char) : Avoids p (rest ++ '\n' :: cs) := by
  cases rest with
  | nil => simpa [Avoids] using hp
  | cons d rest => exact h

/-- A point at the end of a text stands before no digit behind the line break either. -/
theorem point_newline {rest : List Char} (h : ∀ d r, rest = '.' :: d :: r → isDigit d = false)
    (cs : List Char) : ∀ d r, rest ++ '\n' :: cs = '.' :: d :: r → isDigit d = false := by
  intro d r he
  rcases rest with _ | ⟨c, _ | ⟨c', rest⟩⟩
  · cases he
  · cases he
    decide
  · cases he
    exact h d rest rfl

theorem Ends.newline {p : Piece} {rest : List Char} (h : Ends p rest) (cs : List Char) :
    Ends p (rest ++ '\n' :: cs) := by
  unfold Ends at h ⊢
  split at h
  case h_9 => exact ⟨h.1.newline (by decide) cs, fun hdot => point_newline (h.2 hdot) cs⟩
  all_goals first | trivial | exact h.newline (by decide) cs

theorem Fits.join {ps qs : List Piece} (hp : Fits ps) (hq : Fits qs) :
    Fits (ps ++ .blank '\n' :: qs) := by
  induction ps with
  | nil => exact ⟨.blank (by decide), trivial, hq⟩
  | cons p ps ih =>
    obtain ⟨hs, he, hps⟩ := hp
    refine ⟨hs, ?_, ih hps⟩
    simpa [text] using he.newline (qs.map text).flatten

theorem lexemes_append (line : Nat) (ps qs : List Piece) :
    lexemes line (ps ++ qs) =
      lexemes line ps ++ lexemes (line + newlines (ps.map text).flatten) qs := by
  induction ps generalizing line with
  | nil => rfl
  | cons p ps ih =>
    have hlines : line + newlines ((p :: ps).map text).flatten =
        line + newlines p.text + newlines (ps.map text).flatten := by
      simp [newlines, Nat.add_assoc]
    rw [hlines]
    cases p with
    | lexeme k cs => exact congrArg (_ :: ·) (ih _)
    | _ => exact ih _

theorem lexemes_shift (σ : Shift) (line : Nat) (ps : List Piece) :
    lexemes (line + σ.lines) ps = (lexemes line ps).map (Token.shift σ) := by
  induction ps generalizing line with
  | nil => rfl
  | cons p ps ih =>
    have hline (cs : List Char) : line + σ.lines + newlines cs = line + newlines cs + σ.lines :=
      Nat.add_right_comm ..
    cases p with
    | lexeme k cs =>
      unfold lexemes
      rw [hline, ih]
      rfl
    | _ =>
      unfold lexemes
      rw [hline, ih]

end Lox.Piece

namespace Lox

namespace Grammar

theorem Derives.shift (σ : Shift) {ss : List Stmt} {ts : List Token} {n k : Nat}
    (hts : ∀ t ∈ ts, t.kind ≠ .finish) (h : Derives Complete (.declarations ss) ts n k []) :
    Derives Complete (.declarations (Stmt.shiftAll σ ss)) (ts.map (Token.shift σ)) (n + σ.ids)
      (k + σ.ids) [] := by
  have hf : (Token.mk .finish "" 0).kind = .finish := rfl
  have hf' : ((Token.mk .finish "" 0).shift σ).kind = .finish := rfl
  have hread := readProgram_shift σ hts hf n
  rw [(readProgram_eq_ok_iff hts hf).2 h] at hread
  apply (readProgram_eq_ok_iff _ hf').1 hread
  intro t ht
  obtain ⟨u, hu, rfl⟩ := List.mem_map.1 ht
  exact hts u hu

end Grammar

namespace Front

/-- The number of lines that a text takes. -/
def lines (source : String) : Nat := Piece.newlines source.toList + 1

/-- The program of two texts, the second from a new line on. -/
theorem program_join {n : Nat} {source source' : String} {program program' : List Stmt}
    (h : (Front.program n source).tree? = some program)
    (h' : (Front.program (Front.program n source).nextId source').tree? = some program') :
    (Front.program n (source ++ "\n" ++ source')).tree? =
        some (program ++ Stmt.shiftAll ⟨0, lines source⟩ program') ∧
      (Front.program n (source ++ "\n" ++ source')).nextId =
        (Front.program (Front.program n source).nextId source').nextId := by
  obtain ⟨hfit, hd⟩ := Front.program_tree h
  obtain ⟨hfit', hd'⟩ := Front.program_tree h'
  let ps := Piece.cut source.toList
  let qs := Piece.cut source'.toList
  have hlines : 1 + Piece.newlines (ps.map Piece.text).flatten + 1 = 1 + lines source := by
    rw [Piece.flatten_cut, lines, Nat.add_assoc]
  have htext : String.ofList ((ps ++ .blank '\n' :: qs).map Piece.text).flatten =
      source ++ "\n" ++ source' := by
    apply String.toList_inj.1
    simp [ps, qs, Piece.flatten_cut, Piece.text]
  have hjoined : Grammar.Derives Grammar.Complete
      (.declarations (program ++ Stmt.shiftAll ⟨0, lines source⟩ program'))
      (Piece.lexemes 1 (ps ++ .blank '\n' :: qs)) n
      (Front.program (Front.program n source).nextId source').nextId [] := by
    have hshift := hd'.shift ⟨0, lines source⟩ Piece.ne_finish_of_cut
    rw [← Piece.lexemes_shift] at hshift
    rw [Piece.lexemes_append]
    have hblank : Piece.lexemes (1 + Piece.newlines (ps.map Piece.text).flatten) (.blank '\n' :: qs) =
        Piece.lexemes (1 + lines source) qs := by
      rw [← hlines]
      rfl
    rw [hblank]
    exact hd.append hshift
  rw [← htext]
  exact Front.program_of_fits (hfit.join hfit') hjoined

end Front

end Lox
