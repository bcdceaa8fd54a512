import Lox.Proofs.Grammar.Respelling
import Lox.Proofs.Source.Stream

/-!
# Spelling names of a text anew

Names of a text can be spelled anew without any other change, since no piece is extended by
what follows it: how a text goes on is told from whether a name starts there, not from which.
Main statement: a tree with other names than the tree of a text is the tree of some text.
-/

set_option autoImplicit false

namespace Lox.Piece

/-- Some names among the pieces are spelled `cs`. -/
inductive Respelled (cs : List Char) : List Piece → List Piece → Prop
  | nil : Respelled cs [] []
  | keep {ps ps' : List Piece} (p : Piece) (h : Respelled cs ps ps') :
      Respelled cs (p :: ps) (p :: ps')
  | name {ps ps' : List Piece} (ds : List Char) (h : Respelled cs ps ps') :
      Respelled cs (.lexeme .identifier ds :: ps) (.lexeme .identifier cs :: ps')

theorem newlines_identifier {cs : List Char} (h : Lexeme .identifier cs) : newlines cs = 0 := by
  obtain ⟨-, c, ds, rfl, hc, hds⟩ := h.identifier
  apply List.count_eq_zero.2
  intro hm
  rcases List.mem_cons.1 hm with he | hm
  · exact ne_of_startsName hc (by decide) he.symm
  · have hd := hds _ hm
    revert hd
    decide

/-- The text of a name starts with a character that starts names. -/
theorem head_identifier {cs : List Char} (h : Lexeme .identifier cs) (rest : List Char) :
    ∃ c r, cs ++ rest = c :: r ∧ startsName c = true := by
  obtain ⟨-, c, ds, rfl, hc, -⟩ := h.identifier
  exact ⟨c, ds ++ rest, rfl, hc⟩

theorem lexeme_of_sound {k : Kind} {cs : List Char} (h : Sound (.lexeme k cs)) : Lexeme k cs := by
  cases h with
  | lexeme h => exact h

variable {cs : List Char} (hcs : Lexeme .identifier cs) {ps ps' : List Piece}

include hcs

theorem Avoids.respelled {q : Char → Bool}
    (hq : ∀ c d, startsName c = true → startsName d = true → q c = q d) (hf : Fits ps)
    (hr : Respelled cs ps ps') (h : Avoids q (ps.map text).flatten) :
    Avoids q (ps'.map text).flatten := by
  cases hr with
  | nil => exact h
  | @keep ps ps' p hr =>
    cases ht : p.text with
    | nil => exact absurd ht hf.1.text_ne_nil
    | cons c ds =>
      rw [List.map_cons, List.flatten_cons, ht] at h ⊢
      exact h
  | @name ps ps' ds hr =>
    obtain ⟨c, r, hc, hs⟩ := head_identifier (lexeme_of_sound hf.1) (ps.map text).flatten
    obtain ⟨c', r', hc', hs'⟩ := head_identifier hcs (ps'.map text).flatten
    have hhead : q c = false := by
      apply h
      show c ∈ (ds ++ _).head?
      rw [hc]
      rfl
    show Avoids q (cs ++ _)
    rw [hc']
    rintro _ ⟨⟩
    rw [hq c' c hs' hs]
    exact hhead

theorem noFraction_respelled (hf : Fits ps) (hr : Respelled cs ps ps')
    (h : ∀ d r, (ps.map text).flatten = '.' :: d :: r → isDigit d = false) :
    ∀ d r, (ps'.map text).flatten = '.' :: d :: r → isDigit d = false := by
  intro d r he
  cases hr with
  | nil => cases he
  | @keep ps ps' p hr =>
    rw [List.map_cons, List.flatten_cons] at he
    cases ht : p.text with
    | nil => exact absurd ht hf.1.text_ne_nil
    | cons c ds =>
      rw [ht, List.cons_append] at he
      obtain ⟨rfl, hrest⟩ := List.cons.inj he
      cases ds with
      | nil =>
        have hd : Avoids isDigit (ps.map text).flatten := by
          intro d' hd'
          cases hps : (ps.map text).flatten with
          | nil =>
            rw [hps] at hd'
            cases hd'
          | cons e r' =>
            rw [hps] at hd'
            cases hd'
            apply h d' r'
            rw [List.map_cons, List.flatten_cons, ht, hps]
            rfl
        have hdigit : ∀ c d, startsName c = true → startsName d = true → isDigit c = isDigit d := by
          intro c d hc hd
          rw [isDigit_of_startsName hc, isDigit_of_startsName hd]
        apply hd.respelled hcs hdigit hf.2.2 hr
        rw [← List.nil_append (ps'.map text).flatten, hrest]
        rfl
      | cons d' ds =>
        obtain ⟨rfl, -⟩ := List.cons.inj hrest
        apply h d' (ds ++ (ps.map text).flatten)
        rw [List.map_cons, List.flatten_cons, ht]
        rfl
  | @name ps ps' ds hr =>
    obtain ⟨c, r', hc, hs⟩ := head_identifier hcs (ps'.map text).flatten
    have hdot : c = '.' := (List.cons.inj (hc.symm.trans he)).1
    rw [hdot] at hs
    cases hs

/-- What does not extend a piece still does not with names spelled anew. -/
theorem Ends.respelled {p : Piece} (hf : Fits ps) (hr : Respelled cs ps ps')
    (h : Ends p (ps.map text).flatten) : Ends p (ps'.map text).flatten := by
  have hstart {q : Char → Bool} (hq : ∀ c, startsName c = true → q c = false) :
      ∀ c d, startsName c = true → startsName d = true → q c = q d := by
    intro c d hc hd
    rw [hq c hc, hq d hd]
  have hne {d : Char} (hd : startsName d = false) :
      ∀ c, startsName c = true → (c == d) = false := by
    intro c hc
    exact beq_eq_false_iff_ne.2 (ne_of_startsName hc hd)
  have hname : ∀ c d, startsName c = true → startsName d = true →
      continuesName c = continuesName d := by
    intro c d hc hd
    rw [continuesName, continuesName, hc, hd]
    rfl
  cases p with
  | comment text =>
    apply Avoids.respelled hcs _ hf hr h
    intro c d hc hd
    have hc' : (c != '\n') = true := by simpa using ne_of_startsName hc (by decide)
    have hd' : (d != '\n') = true := by simpa using ne_of_startsName hd (by decide)
    rw [hc', hd']
  | lexeme k text =>
    cases k with
    | mark m =>
      cases m with
      | slash => exact Avoids.respelled hcs (hstart (hne (by decide))) hf hr h
      | bang | equal | less | greater =>
        exact Avoids.respelled hcs (hstart (hne (by decide))) hf hr h
      | _ => trivial
    | word w => exact Avoids.respelled hcs hname hf hr h
    | identifier => exact Avoids.respelled hcs hname hf hr h
    | number x =>
      constructor
      · exact Avoids.respelled hcs (hstart fun c hc => isDigit_of_startsName hc) hf hr h.1
      · exact fun hdot => noFraction_respelled hcs hf hr (h.2 hdot)
    | _ => trivial
  | _ => trivial

theorem Fits.respelled (hf : Fits ps) (hr : Respelled cs ps ps') : Fits ps' := by
  induction hr with
  | nil => trivial
  | keep p hr ih => exact ⟨hf.1, hf.2.1.respelled hcs hf.2.2 hr, ih hf.2.2⟩
  | @name ps ps' ds hr ih =>
    have he : Ends (.lexeme .identifier cs) (ps.map text).flatten := hf.2.1
    exact ⟨.lexeme hcs, he.respelled hcs hf.2.2 hr, ih hf.2.2⟩

omit hcs

/-- Tokens spelled anew are the lexemes of pieces spelled anew. -/
theorem exists_respelled {y : String} (hy : Lexeme .identifier y.toList) {line : Nat}
    {ts' : List Token} (hf : Fits ps) (h : Grammar.AllRespell y (lexemes line ps) ts') :
    ∃ ps', Respelled y.toList ps ps' ∧ lexemes line ps' = ts' := by
  induction ps generalizing line ts' with
  | nil =>
    cases h
    exact ⟨[], .nil, rfl⟩
  | cons p ps ih =>
    cases p with
    | lexeme k cs =>
      cases h with
      | cons ht hts =>
        obtain ⟨ps', hps, rfl⟩ := ih hf.2.2 hts
        rcases ht with rfl | ⟨hk, rfl⟩
        · exact ⟨_, .keep _ hps, rfl⟩
        · obtain rfl : k = .identifier := hk
          refine ⟨_, .name cs hps, ?_⟩
          rw [lexemes, newlines_identifier hy, newlines_identifier (lexeme_of_sound hf.1),
            String.ofList_toList]
    | _ =>
      obtain ⟨ps', hps, rfl⟩ := ih hf.2.2 h
      exact ⟨_, .keep _ hps, rfl⟩

end Lox.Piece
