import Lox.Proofs.Source.Printed

/-!
# The lexicon

The texts that are tokens, kind by kind, with no regard to how a text is cut: a mark or a
reserved word as it is spelled, any other name, a string between quotes, and a numeral.

Main statements: these are the lexemes, a text is a lexeme of one kind only, and what the
cutting puts in front is the longest lexeme that the text starts with.
-/

set_option autoImplicit false

namespace Lox.Piece

/-- The text is a token of this kind. -/
inductive Written : Kind → List Char → Prop
  | mark (m : Mark) : Written (.mark m) m.spelling.toList
  | word (w : Word) : Written (.word w) w.spelling.toList
  | name {c : Char} {cs : List Char} (hc : startsName c = true)
      (hcs : ∀ d ∈ cs, continuesName d = true)
      (hfree : ∀ w : Word, String.ofList (c :: cs) ≠ w.spelling) : Written .identifier (c :: cs)
  | string {cs : List Char} (hcs : '"' ∉ cs) :
      Written (.string (String.ofList cs)) ('"' :: (cs ++ ['"']))
  | digits {cs : List Char} (hne : cs ≠ []) (hcs : ∀ d ∈ cs, isDigit d = true) :
      Written (.number (Number.ofNumeral cs)) cs
  | fraction {cs ds : List Char} (hne : cs ≠ []) (hcs : ∀ d ∈ cs, isDigit d = true)
      (hne' : ds ≠ []) (hds : ∀ d ∈ ds, isDigit d = true) :
      Written (.number (Number.ofNumeral (cs ++ '.' :: ds))) (cs ++ '.' :: ds)

theorem eq_spelling_of_ofSpelling? {s : String} {w : Word} (h : Word.ofSpelling? s = some w) :
    s = w.spelling := by
  have hw := List.find?_some h
  exact (beq_iff_eq.1 hw).symm

theorem ofSpelling?_eq_none {s : String} :
    Word.ofSpelling? s = none ↔ ∀ w : Word, s ≠ w.spelling := by
  constructor
  · exact fun h w => Free.ne h w
  · intro h
    cases hs : Word.ofSpelling? s with
    | none => rfl
    | some w => exact absurd (eq_spelling_of_ofSpelling? hs) (h w)

theorem Written.lexeme {k : Kind} {cs : List Char} (h : Written k cs) : Lexeme k cs := by
  cases h with
  | mark m => exact .ofMark m
  | word w => exact .ofWord w
  | @name c cs hc hcs hfree =>
    have hk : nameKind (c :: cs) = .identifier := nameKind_identifier.2 (ofSpelling?_eq_none.2 hfree)
    rw [← hk]
    exact .name hc hcs
  | string hcs =>
    apply Lexeme.string
    intro d hd
    rw [bne_iff_ne]
    rintro rfl
    exact hcs hd
  | digits hne hcs =>
    obtain ⟨c, cs, rfl⟩ := List.exists_cons_of_ne_nil hne
    rw [List.forall_mem_cons] at hcs
    exact .whole hcs.1 hcs.2
  | fraction hne hcs hne' hds =>
    obtain ⟨c, cs, rfl⟩ := List.exists_cons_of_ne_nil hne
    obtain ⟨d, ds, rfl⟩ := List.exists_cons_of_ne_nil hne'
    rw [List.forall_mem_cons] at hcs hds
    exact .fraction hcs.1 hcs.2 hds.1 hds.2

theorem Lexeme.written {k : Kind} {cs : List Char} (h : Lexeme k cs) : Written k cs := by
  cases h with
  | @single c m hm =>
    rw [Lexeme.mark_text (.single hm)]
    exact .mark m
  | @bare c m l hm =>
    rw [Lexeme.mark_text (.bare hm)]
    exact .mark m
  | @extended c m l hm =>
    rw [Lexeme.mark_text (.extended hm)]
    exact .mark l
  | @name c cs hc hcs =>
    cases hw : Word.ofSpelling? (String.ofList (c :: cs)) with
    | none =>
      rw [nameKind_identifier.2 hw]
      exact .name hc hcs (ofSpelling?_eq_none.1 hw)
    | some w =>
      have hk : nameKind (c :: cs) = .word w := by
        unfold nameKind
        rw [hw]
      have htext : c :: cs = w.spelling.toList := by
        rw [← eq_spelling_of_ofSpelling? hw, String.toList_ofList]
      rw [hk, htext]
      exact .word w
  | string hcs =>
    apply Written.string
    intro hmem
    have hq := hcs _ hmem
    exact bne_iff_ne.1 hq rfl
  | whole hc hcs => exact .digits (by simp) (List.forall_mem_cons.2 ⟨hc, hcs⟩)
  | @fraction c d cs ds hc hcs hd hds =>
    have hnumeral : c :: (cs ++ '.' :: d :: ds) = (c :: cs) ++ '.' :: (d :: ds) := rfl
    rw [hnumeral]
    exact .fraction (by simp) (List.forall_mem_cons.2 ⟨hc, hcs⟩) (by simp)
      (List.forall_mem_cons.2 ⟨hd, hds⟩)

theorem lexeme_iff_written {k : Kind} {cs : List Char} : Lexeme k cs ↔ Written k cs :=
  ⟨Lexeme.written, Written.lexeme⟩

section Longest

variable {k k' : Kind} {c : Char} {cs ds rest : List Char}

/-- At the end of a text nothing is extended. -/
theorem ends_nil (k : Kind) (cs : List Char) : Ends (.lexeme k cs) [] := by
  unfold Ends
  split <;> simp [Avoids]

/-- A text is a lexeme of one kind only. -/
theorem Lexeme.kind_unique (h : Lexeme k cs) (h' : Lexeme k' cs) : k = k' := by
  obtain ⟨c, cs, rfl⟩ := List.exists_cons_of_ne_nil (Sound.lexeme h).text_ne_nil
  have hf := first_piece (.lexeme h) rfl (ends_nil k _)
  have hf' := first_piece (.lexeme h') rfl (ends_nil k' _)
  rw [hf] at hf'
  cases hf'
  rfl

theorem length_le_takeWhile {p : Char → Bool} (h : ∀ d ∈ cs, p d = true) (rest : List Char) :
    cs.length ≤ ((cs ++ rest).takeWhile p).length := by
  rw [List.takeWhile_append_of_pos h, List.length_append]
  exact Nat.le_add_right _ _

/-- What digits begin is a number at least as long. -/
theorem first_digit_length (hc : isDigit c = true) (hcs : ∀ d ∈ cs, isDigit d = true) :
    (c :: cs).length ≤ (first c (cs ++ rest)).1.text.length := by
  have h := first_digit hc (mem_takeWhile isDigit (cs ++ rest))
    (avoids_dropWhile isDigit (cs ++ rest))
  rw [List.takeWhile_append_dropWhile] at h
  rw [h]
  have hle := length_le_takeWhile hcs rest
  simp only [text, List.cons_append, List.length_cons, List.length_append]
  omega

/-- With a fraction behind them too. -/
theorem first_fraction_length {d : Char} (hc : isDigit c = true)
    (hcs : ∀ d ∈ cs, isDigit d = true) (hd : isDigit d = true) (hds : ∀ d ∈ ds, isDigit d = true) :
    (c :: (cs ++ '.' :: d :: ds)).length ≤
      (first c (cs ++ '.' :: d :: ds ++ rest)).1.text.length := by
  have hdot : Avoids isDigit ('.' :: d :: (ds ++ rest)) := by
    rintro e ⟨⟩
    rfl
  have hf := @fraction_some d _ _ hd (mem_takeWhile isDigit (ds ++ rest))
    (avoids_dropWhile isDigit (ds ++ rest))
  rw [List.takeWhile_append_dropWhile] at hf
  have h := first_digit hc hcs hdot
  rw [hf] at h
  have hle := length_le_takeWhile hds rest
  simp only [List.append_assoc, List.cons_append, h, text, List.length_cons, List.length_append]
  omega

/-- No lexeme that a text starts with is longer than its first piece. -/
theorem Lexeme.length_le_first (h : Lexeme k (c :: cs)) :
    (c :: cs).length ≤ (first c (cs ++ rest)).1.text.length := by
  have hpos : 1 ≤ (first c (cs ++ rest)).1.text.length :=
    List.length_pos_iff.2 (first_text_ne_nil _ _)
  generalize hcs : c :: cs = ts at h
  cases h with
  | single | bare =>
    cases hcs
    exact hpos
  | extended hm =>
    cases hcs
    rw [List.singleton_append, first_extended hm]
    exact Nat.le_refl _
  | name hc hcs' =>
    cases hcs
    have hf := first_name hc (mem_takeWhile continuesName (cs ++ rest))
      (avoids_dropWhile continuesName (cs ++ rest))
    rw [List.takeWhile_append_dropWhile] at hf
    rw [hf]
    exact Nat.succ_le_succ (length_le_takeWhile hcs' rest)
  | string hcs' =>
    cases hcs
    rw [List.append_assoc, List.singleton_append, first_string hcs']
    exact Nat.le_refl _
  | whole hc hcs' =>
    cases hcs
    exact first_digit_length hc hcs'
  | fraction hc hcs' hd hds =>
    cases hcs
    exact first_fraction_length hc hcs' hd hds

/-- The lexeme is the longest one that the text starts with, and no comment starts there. -/
structure Longest (cs rest : List Char) : Prop where
  length_le {k : Kind} {ds : List Char} : Written k ds → ds <+: cs ++ rest → ds.length ≤ cs.length
  noComment : ¬ ['/', '/'] <+: cs ++ rest

theorem Longest.of_ends (h : Lexeme k cs) (he : Ends (.lexeme k cs) rest) : Longest cs rest := by
  obtain ⟨c, cs, rfl⟩ := List.exists_cons_of_ne_nil (Sound.lexeme h).text_ne_nil
  have hfirst := first_piece (.lexeme h) rfl he
  constructor
  · rintro k' ds hw ⟨behind, hds⟩
    obtain ⟨d, ds, rfl⟩ := List.exists_cons_of_ne_nil (Sound.lexeme hw.lexeme).text_ne_nil
    rw [List.cons_append, List.cons_append] at hds
    obtain ⟨rfl, htext⟩ := List.cons.inj hds
    have hle : (d :: ds).length ≤ (first d (ds ++ behind)).1.text.length :=
      hw.lexeme.length_le_first
    rw [htext, hfirst] at hle
    exact hle
  · rintro ⟨behind, hds⟩
    simp only [List.cons_append, List.nil_append] at hds
    obtain ⟨rfl, htext⟩ := List.cons.inj hds
    rw [← htext] at hfirst
    simp [first, isBlank] at hfirst

/-- What would make the lexeme longer by one character does not follow. -/
theorem Longest.avoids {p : Char → Bool} (h : Longest cs rest)
    (hp : ∀ d, p d = true → ∃ k, Written k (cs ++ [d])) : Avoids p rest := by
  intro d hd
  obtain ⟨rest, rfl⟩ := List.head?_eq_some_iff.1 hd
  cases hpd : p d with
  | false => rfl
  | true =>
    obtain ⟨k, hk⟩ := hp d hpd
    have hle := h.length_le hk ⟨rest, by simp⟩
    simp at hle

theorem Longest.ends_single {m : Mark} (h : Longest [c] rest) (hm : single? c = some m) :
    Ends (.lexeme (.mark m) [c]) rest := by
  have hslash : c = '/' → Avoids (· == '/') rest := by
    rintro rfl d hd
    obtain ⟨rest, rfl⟩ := List.head?_eq_some_iff.1 hd
    rw [beq_eq_false_iff_ne]
    rintro rfl
    exact h.noComment ⟨rest, rfl⟩
  unfold single? at hm
  split at hm <;> cases hm <;> first | trivial | exact hslash rfl

theorem Longest.ends_digits (h : Longest (c :: cs) rest) (hc : isDigit c = true)
    (hcs : ∀ d ∈ cs, isDigit d = true) (k : Float) :
    Ends (.lexeme (.number k) (c :: cs)) rest := by
  constructor
  · apply h.avoids
    intro d hd
    have hmore : ∀ e ∈ cs ++ [d], isDigit e = true := by
      simpa [or_imp, forall_and] using ⟨hcs, hd⟩
    exact ⟨_, (Lexeme.whole hc hmore).written⟩
  · rintro - d r rfl
    cases hd : isDigit d with
    | false => rfl
    | true =>
      have hnone : ∀ e ∈ ([] : List Char), isDigit e = true := by simp
      have hle := h.length_le (Lexeme.fraction hc hcs hd hnone).written ⟨r, by simp⟩
      simp at hle

theorem Longest.ends_fraction {d : Char} (h : Longest (c :: (cs ++ '.' :: d :: ds)) rest)
    (hc : isDigit c = true) (hcs : ∀ d ∈ cs, isDigit d = true) (hd : isDigit d = true)
    (hds : ∀ d ∈ ds, isDigit d = true) (k : Float) :
    Ends (.lexeme (.number k) (c :: (cs ++ '.' :: d :: ds))) rest := by
  constructor
  · apply h.avoids
    intro e he
    have hmore : ∀ d ∈ ds ++ [e], isDigit d = true := by
      simpa [or_imp, forall_and] using ⟨hds, he⟩
    have hw := (Lexeme.fraction hc hcs hd hmore).written
    exact ⟨_, by simpa using hw⟩
  · intro hdot
    simp at hdot

theorem Longest.ends (hl : Lexeme k cs) (h : Longest cs rest) : Ends (.lexeme k cs) rest := by
  cases hl with
  | single hm => exact h.ends_single hm
  | @bare c m l hm =>
    have hr : Avoids (· == '=') rest := by
      apply h.avoids
      intro d hd
      rw [beq_iff_eq.1 hd]
      exact ⟨_, (Lexeme.extended hm).written⟩
    unfold extensible? at hm
    split at hm <;> cases hm <;> exact hr
  | extended hm =>
    unfold extensible? at hm
    split at hm <;> cases hm <;> trivial
  | @name c cs hc hcs =>
    rw [ends_name]
    apply h.avoids
    intro d hd
    have hmore : ∀ e ∈ cs ++ [d], continuesName e = true := by
      simpa [or_imp, forall_and] using ⟨hcs, hd⟩
    exact ⟨_, (Lexeme.name hc hmore).written⟩
  | string => trivial
  | whole hc hcs => exact h.ends_digits hc hcs _
  | fraction hc hcs hd hds => exact h.ends_fraction hc hcs hd hds _

/-- A lexeme ends where it does because no longer one starts the text. -/
theorem longest_iff_ends (h : Lexeme k cs) : Longest cs rest ↔ Ends (.lexeme k cs) rest :=
  ⟨Longest.ends h, Longest.of_ends h⟩

end Longest

end Lox.Piece
