import Lox.Source.Scan

/-!
# The first piece of a text

Each piece has a form that depends on its kind, and what stands behind it does not extend
it. Conversely, a piece of that form is the first piece of any text that it starts and
that does not extend it. So a text made of such pieces is cut into just these.
-/

set_option autoImplicit false

namespace Lox.Piece

/-- The form of a lexeme. -/
inductive Lexeme : Kind → List Char → Prop
  | single {c : Char} {m : Mark} (h : single? c = some m) : Lexeme (.mark m) [c]
  | bare {c : Char} {m l : Mark} (h : extensible? c = some (m, l)) : Lexeme (.mark m) [c]
  | extended {c : Char} {m l : Mark} (h : extensible? c = some (m, l)) : Lexeme (.mark l) [c, '=']
  | name {c : Char} {cs : List Char} (hc : startsName c = true)
      (hcs : ∀ d ∈ cs, continuesName d = true) : Lexeme (nameKind (c :: cs)) (c :: cs)
  | string {cs : List Char} (hcs : ∀ d ∈ cs, (d != '"') = true) :
      Lexeme (.string (String.ofList cs)) ('"' :: (cs ++ ['"']))
  | whole {c : Char} {cs : List Char} (hc : isDigit c = true) (hcs : ∀ d ∈ cs, isDigit d = true) :
      Lexeme (.number (Number.ofNumeral (c :: cs))) (c :: cs)
  | fraction {c d : Char} {cs ds : List Char} (hc : isDigit c = true)
      (hcs : ∀ d ∈ cs, isDigit d = true) (hd : isDigit d = true)
      (hds : ∀ d ∈ ds, isDigit d = true) :
      Lexeme (.number (Number.ofNumeral (c :: (cs ++ '.' :: d :: ds)))) (c :: (cs ++ '.' :: d :: ds))

/-- The form of a piece of a text without lexical faults. -/
inductive Sound : Piece → Prop
  | blank {c : Char} (hc : isBlank c = true) : Sound (.blank c)
  | comment {cs : List Char} (hcs : ∀ d ∈ cs, (d != '\n') = true) :
      Sound (.comment ('/' :: '/' :: cs))
  | lexeme {k : Kind} {cs : List Char} (h : Lexeme k cs) : Sound (.lexeme k cs)

/-- No character with this property comes first. -/
def Avoids (p : Char → Bool) (rest : List Char) : Prop := ∀ d ∈ rest.head?, p d = false

/-- What follows does not extend the piece. -/
def Ends : Piece → List Char → Prop
  | .comment _, rest => Avoids (· != '\n') rest
  | .lexeme (.mark .slash) _, rest => Avoids (· == '/') rest
  | .lexeme (.mark .bang) _, rest => Avoids (· == '=') rest
  | .lexeme (.mark .equal) _, rest => Avoids (· == '=') rest
  | .lexeme (.mark .less) _, rest => Avoids (· == '=') rest
  | .lexeme (.mark .greater) _, rest => Avoids (· == '=') rest
  | .lexeme (.word _) _, rest => Avoids continuesName rest
  | .lexeme .identifier _, rest => Avoids continuesName rest
  | .lexeme (.number _) cs, rest =>
    Avoids isDigit rest ∧ ('.' ∉ cs → ∀ d r, rest = '.' :: d :: r → isDigit d = false)
  | _, _ => True

-- The equation of `first` is then there for all the proofs that wait for it.
attribute [local simp] first

theorem takeWhile_append {p : Char → Bool} {cs rest : List Char} (hcs : ∀ d ∈ cs, p d = true)
    (hr : Avoids p rest) : (cs ++ rest).takeWhile p = cs ∧ (cs ++ rest).dropWhile p = rest := by
  rw [List.takeWhile_append_of_pos hcs, List.dropWhile_append_of_pos hcs]
  cases rest with
  | nil => simp
  | cons d rest =>
    have hd : p d = false := hr d rfl
    simp [hd]

theorem ne_of_startsName {c d : Char} (hc : startsName c = true) (hd : startsName d = false) :
    c ≠ d := by
  intro he
  rw [he, hd] at hc
  cases hc

theorem ne_of_isDigit {c d : Char} (hc : isDigit c = true) (hd : isDigit d = false) : c ≠ d := by
  intro he
  rw [he, hd] at hc
  cases hc

theorem isDigit_of_startsName {c : Char} (hc : startsName c = true) : isDigit c = false := by
  simp only [startsName, isDigit, Bool.or_eq_true, Bool.and_eq_true, decide_eq_true_eq,
    Bool.and_eq_false_iff, decide_eq_false_iff_not, beq_iff_eq, Char.le_def, UInt32.le_iff_toNat_le] at hc ⊢
  rcases hc with (⟨h, -⟩ | ⟨h, -⟩) | rfl
  · right
    have h1 : ('a' : Char).val.toNat = 97 := rfl
    have h2 : ('9' : Char).val.toNat = 57 := rfl
    omega
  · right
    have h1 : ('A' : Char).val.toNat = 65 := rfl
    have h2 : ('9' : Char).val.toNat = 57 := rfl
    omega
  · decide

theorem isBlank_eq_false {c : Char} (h : c ≠ ' ') (h' : c ≠ '\r') (ht : c ≠ '\t') (hn : c ≠ '\n') :
    isBlank c = false := by
  simp [isBlank, h, h', ht, hn]

theorem first_name {c : Char} {cs rest : List Char} (hc : startsName c = true)
    (hcs : ∀ d ∈ cs, continuesName d = true) (hr : Avoids continuesName rest) :
    first c (cs ++ rest) = (.lexeme (nameKind (c :: cs)) (c :: cs), rest) := by
  have hb : isBlank c = false := by
    apply isBlank_eq_false <;> exact ne_of_startsName hc (by decide)
  have hs : c ≠ '/' := ne_of_startsName hc (by decide)
  have hq : c ≠ '"' := ne_of_startsName hc (by decide)
  obtain ⟨htake, hdrop⟩ := takeWhile_append hcs hr
  simp [first, hb, hs, hq, isDigit_of_startsName hc, hc, htake, hdrop]

theorem first_string {cs rest : List Char} (hcs : ∀ d ∈ cs, (d != '"') = true) :
    first '"' (cs ++ '"' :: rest) = (.lexeme (.string (String.ofList cs)) ('"' :: (cs ++ ['"'])), rest) := by
  have hr : Avoids (· != '"') ('"' :: rest) := by simp [Avoids]
  obtain ⟨htake, hdrop⟩ := takeWhile_append hcs hr
  have hb : isBlank '"' = false := by decide
  simp [first, hb, htake, hdrop]

theorem first_digit {c : Char} {cs rest : List Char} (hc : isDigit c = true)
    (hcs : ∀ d ∈ cs, isDigit d = true) (hr : Avoids isDigit rest) :
    first c (cs ++ rest) =
      (.lexeme (.number (Number.ofNumeral (c :: cs ++ (Piece.fraction rest).1)))
        (c :: cs ++ (Piece.fraction rest).1), (Piece.fraction rest).2) := by
  have hb : isBlank c = false := by
    apply isBlank_eq_false <;> exact ne_of_isDigit hc (by decide)
  have hs : c ≠ '/' := ne_of_isDigit hc (by decide)
  have hq : c ≠ '"' := ne_of_isDigit hc (by decide)
  obtain ⟨htake, hdrop⟩ := takeWhile_append hcs hr
  simp [first, hb, hs, hq, hc, htake, hdrop]

theorem fraction_none {rest : List Char} (h : ∀ d r, rest = '.' :: d :: r → isDigit d = false) :
    Piece.fraction rest = ([], rest) := by
  unfold Piece.fraction
  split
  · rename_i d r
    rw [if_neg (by simp [h d r rfl])]
  · rfl

theorem fraction_some {d : Char} {ds rest : List Char} (hd : isDigit d = true)
    (hds : ∀ d ∈ ds, isDigit d = true) (hr : Avoids isDigit rest) :
    Piece.fraction ('.' :: d :: (ds ++ rest)) = ('.' :: d :: ds, rest) := by
  obtain ⟨htake, hdrop⟩ := takeWhile_append hds hr
  simp [Piece.fraction, hd, htake, hdrop]

theorem first_single {c : Char} {m : Mark} {rest : List Char} (h : single? c = some m)
    (hr : m = .slash → Avoids (· == '/') rest) :
    first c rest = (.lexeme (.mark m) [c], rest) := by
  by_cases hm : m = .slash
  · replace hr := hr hm
    subst hm
    unfold single? at h
    split at h <;> cases h
    have hhead : (rest.head? == some '/') = false := by
      cases rest with
      | nil => rfl
      | cons d rest => exact hr d rfl
    simp only [first, hhead, Bool.and_false]
    rfl
  · unfold single? at h
    split at h <;> cases h <;> first | rfl | exact absurd rfl hm

theorem first_bare {c : Char} {m l : Mark} {rest : List Char} (h : extensible? c = some (m, l))
    (hr : Avoids (· == '=') rest) : first c rest = (.lexeme (.mark m) [c], rest) := by
  unfold extensible? at h
  cases rest with
  | nil => split at h <;> cases h <;> rfl
  | cons d rest =>
    have hd : d ≠ '=' := by simpa using hr d rfl
    split at h <;> cases h <;> simp [first, isBlank, isDigit, startsName, single?, extensible?] <;>
      split <;> simp_all

theorem first_extended {c : Char} {m l : Mark} {rest : List Char}
    (h : extensible? c = some (m, l)) :
    first c ('=' :: rest) = (.lexeme (.mark l) [c, '='], rest) := by
  unfold extensible? at h
  split at h <;> cases h <;> rfl

theorem ends_name (cs text rest : List Char) :
    Ends (.lexeme (nameKind cs) text) rest ↔ Avoids continuesName rest := by
  unfold nameKind
  split <;> rfl

/-- A piece of its form is the first one, unless it is extended. -/
theorem first_piece {p : Piece} {c : Char} {cs rest : List Char} (hp : Sound p)
    (ht : p.text = c :: cs) (hr : Ends p rest) : first c (cs ++ rest) = (p, rest) := by
  cases hp with
  | blank hc =>
    cases ht
    simp [first, hc]
  | comment hcs =>
    cases ht
    obtain ⟨htake, hdrop⟩ := takeWhile_append hcs hr
    simp [first, isBlank, htake, hdrop]
  | lexeme h =>
    cases h with
    | @single c m h =>
      cases ht
      exact first_single h fun hm => by
        subst hm
        exact hr
    | @bare c m l h =>
      cases ht
      have hr : Avoids (· == '=') rest := by
        unfold extensible? at h
        split at h <;> cases h <;> exact hr
      exact first_bare h hr
    | extended h =>
      cases ht
      exact first_extended h
    | name hc hcs =>
      cases ht
      exact first_name hc hcs ((ends_name _ _ rest).1 hr)
    | string hcs =>
      cases ht
      simpa using first_string hcs
    | whole hc hcs =>
      cases ht
      have hdot : '.' ∉ c :: cs := by
        intro hmem
        rcases List.mem_cons.1 hmem with rfl | hmem
        · cases hc
        · cases hcs _ hmem
      have hf := fraction_none (hr.2 hdot)
      rw [first_digit hc hcs hr.1, hf]
      simp
    | @fraction c d cs ds hc hcs hd hds =>
      cases ht
      have hf := fraction_some hd hds hr.1
      have hdot : Avoids isDigit ('.' :: d :: (ds ++ rest)) := by
        intro e he
        cases he
        rfl
      have h := first_digit hc hcs hdot
      rw [hf] at h
      simpa using h

theorem avoids_dropWhile (p : Char → Bool) (cs : List Char) : Avoids p (cs.dropWhile p) := by
  intro d hd
  have h := List.head?_dropWhile_not p cs
  rw [hd] at h
  exact h

/-- A piece that is no fault. -/
def clean : Piece → Bool
  | stray _ | unterminated _ => false
  | _ => true

theorem fraction_cases (cs : List Char) :
    (Piece.fraction cs = ([], cs) ∧ ∀ d r, cs = '.' :: d :: r → isDigit d = false) ∨
      ∃ d r, cs = '.' :: d :: r ∧ isDigit d = true ∧
        Piece.fraction cs = ('.' :: d :: r.takeWhile isDigit, r.dropWhile isDigit) := by
  unfold Piece.fraction
  split
  · rename_i d r
    by_cases hd : isDigit d = true
    · right
      exact ⟨d, r, rfl, hd, by rw [if_pos hd]⟩
    · left
      rw [if_neg hd]
      constructor
      · rfl
      · rintro _ _ ⟨⟩
        simpa using hd
  · rename_i hn
    left
    constructor
    · rfl
    · intro d r he
      exact absurd he (hn d r)

theorem mem_takeWhile (p : Char → Bool) (cs : List Char) : ∀ d ∈ cs.takeWhile p, p d = true := by
  intro d hd
  exact List.all_eq_true.1 List.all_takeWhile d hd

theorem first_sound_digit {c : Char} (cs : List Char) (hc : isDigit c = true) :
    Sound (first c cs).1 ∧ Ends (first c cs).1 (first c cs).2 := by
  have h := first_digit hc (mem_takeWhile isDigit cs) (avoids_dropWhile isDigit cs)
  rw [List.takeWhile_append_dropWhile] at h
  rw [h]
  rcases fraction_cases (cs.dropWhile isDigit) with ⟨hf, hn⟩ | ⟨d, r, he, hd, hf⟩
  · rw [hf]
    simp only [List.append_nil]
    constructor
    · exact .lexeme (.whole hc (mem_takeWhile isDigit cs))
    · exact ⟨avoids_dropWhile isDigit cs, fun _ => hn⟩
  · rw [hf]
    constructor
    · exact .lexeme (.fraction hc (mem_takeWhile isDigit cs) hd (mem_takeWhile isDigit r))
    · constructor
      · exact avoids_dropWhile isDigit r
      · intro hdot
        simp at hdot

theorem first_sound_mark {c : Char} {cs : List Char} (hb : isBlank c = false)
    (hs : (c == '/' && cs.head? == some '/') = false) (hq : c ≠ '"') (hd : isDigit c = false)
    (hn : startsName c = false) (h : (first c cs).1.clean = true) :
    Sound (first c cs).1 ∧ Ends (first c cs).1 (first c cs).2 := by
  cases hm : single? c with
  | some m =>
    have hr : m = .slash → Avoids (· == '/') cs := by
      rintro rfl
      have hc : c = '/' := by
        unfold single? at hm
        split at hm <;> first | rfl | cases hm
      cases cs with
      | nil => simp [Avoids]
      | cons d cs => simpa [hc, Avoids] using hs
    rw [first_single hm hr]
    constructor
    · exact .lexeme (.single hm)
    · cases m <;> first | trivial | exact hr rfl | (unfold single? at hm; split at hm <;> cases hm)
  | none =>
    cases he : extensible? c with
    | none =>
      have hf : first c cs = (.stray c, cs) := by
        simp [first, hb, hs, hq, hd, hn, hm, he]
      rw [hf] at h
      cases h
    | some ml =>
      obtain ⟨m, l⟩ := ml
      by_cases hx : Avoids (· == '=') cs
      · rw [first_bare he hx]
        constructor
        · exact .lexeme (.bare he)
        · unfold extensible? at he
          split at he <;> cases he <;> exact hx
      · cases cs with
        | nil => simp [Avoids] at hx
        | cons d cs =>
          obtain rfl : d = '=' := by simpa [Avoids] using hx
          rw [first_extended he]
          constructor
          · exact .lexeme (.extended he)
          · unfold extensible? at he
            split at he <;> cases he <;> trivial

/-- The first piece, if it is no fault, has its form and is not extended. -/
theorem first_sound {c : Char} {cs : List Char} (h : (first c cs).1.clean = true) :
    Sound (first c cs).1 ∧ Ends (first c cs).1 (first c cs).2 := by
  by_cases hb : isBlank c = true
  · have hf : first c cs = (.blank c, cs) := by simp [first, hb]
    rw [hf]
    exact ⟨.blank hb, trivial⟩
  rw [Bool.not_eq_true] at hb
  by_cases hs : (c == '/' && cs.head? == some '/') = true
  · have hf : first c cs =
        (.comment (c :: cs.takeWhile (· != '\n')), cs.dropWhile (· != '\n')) := by
      simp only [first, hb, hs]
      rfl
    rw [hf]
    simp only [Bool.and_eq_true, beq_iff_eq] at hs
    obtain ⟨rfl, hs⟩ := hs
    cases cs with
    | nil => cases hs
    | cons d cs =>
      cases hs
      exact ⟨.comment (mem_takeWhile (· != '\n') cs), avoids_dropWhile (· != '\n') cs⟩
  rw [Bool.not_eq_true] at hs
  by_cases hq : c = '"'
  · subst hq
    cases hr : cs.dropWhile (· != '"') with
    | nil =>
      have hf : first '"' cs = (.unterminated ('"' :: cs), []) := by
        simp [first, hb, hr]
      rw [hf] at h
      cases h
    | cons q r =>
      have hq : q = '"' := by simpa [hr] using avoids_dropWhile (· != '"') cs q
      subst hq
      have hf := @first_string _ r (mem_takeWhile (· != '"') cs)
      rw [← hr, List.takeWhile_append_dropWhile] at hf
      rw [hf]
      exact ⟨.lexeme (.string (mem_takeWhile (· != '"') cs)), trivial⟩
  by_cases hd : isDigit c = true
  · exact first_sound_digit cs hd
  rw [Bool.not_eq_true] at hd
  by_cases hn : startsName c = true
  · have hf := first_name hn (mem_takeWhile continuesName cs) (avoids_dropWhile continuesName cs)
    rw [List.takeWhile_append_dropWhile] at hf
    rw [hf]
    constructor
    · exact .lexeme (.name hn (mem_takeWhile continuesName cs))
    · exact (ends_name _ _ _).2 (avoids_dropWhile continuesName cs)
  rw [Bool.not_eq_true] at hn
  exact first_sound_mark hb hs hq hd hn h

/-- Pieces of their forms of which none extends the one before it. -/
def Fits : List Piece → Prop
  | [] => True
  | p :: ps => Sound p ∧ Ends p (ps.map text).flatten ∧ Fits ps

theorem Sound.text_ne_nil {p : Piece} (hp : Sound p) : p.text ≠ [] := by
  cases hp with
  | lexeme h => cases h <;> simp [text]
  | _ => simp [text]

/-- Such pieces are what their text is cut into. -/
theorem cut_eq_of_fits {ps : List Piece} (h : Fits ps) : cut (ps.map text).flatten = ps := by
  induction ps with
  | nil => simp [cut]
  | cons p ps ih =>
    obtain ⟨hp, he, hps⟩ := h
    cases ht : p.text with
    | nil => exact absurd ht hp.text_ne_nil
    | cons c cs =>
      have hf := first_piece hp ht he
      rw [List.map_cons, List.flatten_cons, ht, List.cons_append, cut, hf]
      rw [ih hps]

theorem fits_cut {cs : List Char} (h : ∀ p ∈ cut cs, p.clean = true) : Fits (cut cs) := by
  fun_induction cut cs with
  | case1 => trivial
  | case2 c cs ih =>
    obtain ⟨hp, he⟩ := first_sound (h _ (List.mem_cons_self ..))
    apply And.intro hp
    constructor
    · rw [flatten_cut]
      exact he
    · exact ih fun p hp => h p (List.mem_cons_of_mem _ hp)

end Lox.Piece
