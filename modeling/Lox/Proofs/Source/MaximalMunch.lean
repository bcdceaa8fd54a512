import Lox.Proofs.Source.Lexicon

/-!
# Cutting by the longest lexeme

Which piece a text starts with, said through the lexicon alone: a blank, a comment up to the
end of its line, the longest lexeme, a character that starts nothing, or a string that no
quote closes.

Main statement: a text is cut into such pieces in one way only, nothing of it is lost, and
its stream has one item for each lexeme and for each fault, in order, with the end behind.
-/

set_option autoImplicit false

namespace Lox

namespace Piece

/-- The text `p.text ++ rest` starts with this piece. -/
inductive Munch : Piece → List Char → Prop
  | blank {c : Char} {rest : List Char} (hc : c ∈ [' ', '\t', '\r', '\n']) : Munch (.blank c) rest
  | comment {cs rest : List Char} (hcs : '\n' ∉ cs) (hr : ∀ d ∈ rest.head?, d = '\n') :
      Munch (.comment ('/' :: '/' :: cs)) rest
  | lexeme {k : Kind} {cs rest : List Char} (h : Written k cs) (hl : Longest cs rest) :
      Munch (.lexeme k cs) rest
  | stray {c : Char} {rest : List Char} (hb : c ∉ [' ', '\t', '\r', '\n'])
      (hl : ∀ k cs, ¬ Written k (c :: cs)) : Munch (.stray c) rest
  | unterminated {cs : List Char} (hcs : '"' ∉ cs) : Munch (.unterminated ('"' :: cs)) []

/-- Each of the pieces is what the text from there on starts with. -/
inductive Munched : List Piece → Prop
  | nil : Munched []
  | cons {p : Piece} {ps : List Piece} (hp : Munch p (joined ps)) (hps : Munched ps) :
      Munched (p :: ps)

theorem isBlank_iff {c : Char} : isBlank c = true ↔ c ∈ [' ', '\t', '\r', '\n'] := by
  simp only [isBlank, Bool.or_eq_true, beq_iff_eq, List.mem_cons, List.not_mem_nil, or_false]
  tauto

section First

variable {c d : Char} {cs rest : List Char} {p : Piece}

/-- A character is stray if no test on it succeeds. -/
theorem first_stray (h : (first c cs).1 = .stray d) :
    d = c ∧ isBlank c = false ∧ c ≠ '"' ∧ isDigit c = false ∧ startsName c = false ∧
      single? c = none ∧ extensible? c = none := by
  unfold first at h
  repeat' split at h
  all_goals simp_all

theorem first_unterminated {text : List Char} (h : (first c cs).1 = .unterminated text) :
    text = '"' :: cs ∧ '"' ∉ cs ∧ (first c cs).2 = [] := by
  unfold first at h ⊢
  split at h
  · cases h
  split at h
  · cases h
  split at h
  · rename_i hb hs hq
    rw [if_neg hb, if_neg hs, if_pos hq]
    obtain rfl := beq_iff_eq.1 hq
    dsimp only at h ⊢
    split at h
    · cases h
    · rename_i hnil
      refine ⟨(unterminated.inj h).symm, ?_, rfl⟩
      rw [List.dropWhile_eq_nil_iff] at hnil
      intro hmem
      exact bne_iff_ne.1 (hnil _ hmem) rfl
  repeat' split at h
  all_goals cases h

/-- What starts no name, no number, no string and no mark starts no lexeme. -/
theorem not_lexeme_of_stray (h : (first c cs).1 = .stray d) (k : Kind) (text : List Char) :
    ¬ Lexeme k (c :: text) := by
  obtain ⟨-, -, hq, hd, hn, hs, he⟩ := first_stray h
  intro hl
  generalize ht : c :: text = cs at hl
  cases hl with
  | single hm => cases ht; simp [hs] at hm
  | bare hm | extended hm => cases ht; simp [he] at hm
  | name hc => cases ht; simp [hn] at hc
  | string => cases ht; exact hq rfl
  | whole hc | fraction hc => cases ht; simp [hd] at hc

theorem munch_clean (h : (first c cs).1.clean = true) :
    Munch (first c cs).1 (first c cs).2 := by
  obtain ⟨hs, he⟩ := first_sound h
  generalize (first c cs).1 = p, (first c cs).2 = rest at hs he
  cases hs with
  | blank hc => exact .blank (isBlank_iff.1 hc)
  | comment hcs =>
    apply Munch.comment
    · intro hmem
      exact bne_iff_ne.1 (hcs _ hmem) rfl
    · intro d hd
      simpa using he d hd
  | lexeme hl => exact .lexeme hl.written (.of_ends hl he)

/-- The first piece is one that the text starts with. -/
theorem munch_first (c : Char) (cs : List Char) : Munch (first c cs).1 (first c cs).2 := by
  cases hp : (first c cs).1 with
  | stray d =>
    obtain ⟨rfl, hb, -⟩ := first_stray hp
    apply Munch.stray
    · rw [← isBlank_iff, hb]
      exact Bool.false_ne_true
    · exact fun k text hw => not_lexeme_of_stray hp k text hw.lexeme
  | unterminated text =>
    obtain ⟨rfl, hq, hr⟩ := first_unterminated hp
    rw [hr]
    exact .unterminated hq
  | _ => exact hp ▸ munch_clean (by rw [hp]; rfl)

/-- A character that starts no lexeme fails all tests. -/
theorem first_of_stray (hb : isBlank c = false) (hl : ∀ k cs, ¬ Lexeme k (c :: cs)) :
    first c rest = (.stray c, rest) := by
  have hslash : c ≠ '/' := by
    rintro rfl
    exact hl _ _ (.ofMark .slash)
  have hquote : c ≠ '"' := by
    rintro rfl
    have hempty : ∀ d ∈ ([] : List Char), (d != '"') = true := by simp
    exact hl _ _ (.string hempty)
  have hdigit : isDigit c = false := by
    rw [← Bool.not_eq_true]
    exact fun hc => hl _ [] (.whole hc (by simp))
  have hname : startsName c = false := by
    rw [← Bool.not_eq_true]
    exact fun hc => hl _ [] (.name hc (by simp))
  have hsingle : single? c = none := by
    rw [Option.eq_none_iff_forall_ne_some]
    exact fun m hm => hl _ _ (.single hm)
  have hextensible : extensible? c = none := by
    rw [Option.eq_none_iff_forall_ne_some]
    exact fun (m, l) hm => hl _ _ (.bare hm)
  simp [first, hb, hslash, hquote, hdigit, hname, hsingle, hextensible]

/-- A text starts with one piece only. -/
theorem Munch.first_eq (h : Munch p rest) (ht : p.text = c :: cs) :
    first c (cs ++ rest) = (p, rest) := by
  cases h with
  | blank hc => exact first_piece (.blank (isBlank_iff.2 hc)) ht trivial
  | @comment cs' _ hcs hr =>
    have hsound : Sound (.comment ('/' :: '/' :: cs')) := by
      apply Sound.comment
      intro d hd
      rw [bne_iff_ne]
      rintro rfl
      exact hcs hd
    apply first_piece hsound ht
    intro d hd
    simp [hr d hd]
  | lexeme hw hl => exact first_piece (.lexeme hw.lexeme) ht (hl.ends hw.lexeme)
  | stray hb hl =>
    cases ht
    have hblank : isBlank c = false := by
      rw [← Bool.not_eq_true, isBlank_iff]
      exact hb
    exact first_of_stray hblank fun k cs h => hl k cs h.written
  | unterminated hq =>
    cases ht
    have hnil : cs.dropWhile (· != '"') = [] := by
      rw [List.dropWhile_eq_nil_iff]
      intro d hd
      rw [bne_iff_ne]
      rintro rfl
      exact hq hd
    simp [first, isBlank, hnil]

end First

theorem munched_cut (cs : List Char) : Munched (cut cs) := by
  fun_induction cut cs with
  | case1 => exact .nil
  | case2 c cs ih =>
    apply Munched.cons _ ih
    have hrest : joined (cut (first c cs).2) = (first c cs).2 := flatten_cut _
    rw [hrest]
    exact munch_first c cs

theorem Munch.text_ne_nil {p : Piece} {rest : List Char} (h : Munch p rest) : p.text ≠ [] := by
  cases h with
  | lexeme hw => exact (Sound.lexeme hw.lexeme).text_ne_nil
  | _ => simp [text]

theorem Munched.text_ne_nil {ps : List Piece} (h : Munched ps) : ∀ p ∈ ps, p.text ≠ [] := by
  induction h with
  | nil => simp
  | cons hp _ ih => exact List.forall_mem_cons.2 ⟨hp.text_ne_nil, ih⟩

/-- There is only one way to cut a text into such pieces. -/
theorem Munched.eq_cut {ps : List Piece} (h : Munched ps) : ps = cut (joined ps) := by
  induction h with
  | nil => simp [cut]
  | @cons p ps hp _ ih =>
    obtain ⟨c, cs, ht⟩ := List.exists_cons_of_ne_nil hp.text_ne_nil
    rw [joined_cons, ht, List.cons_append, cut, hp.first_eq ht, ← ih]

/-- A lexeme is a reserved word if and only if it is spelled like one. -/
theorem Written.isWord_iff {k : Kind} {cs : List Char} (h : Written k cs) :
    (∃ w, k = .word w) ↔ ∃ w : Word, String.ofList cs = w.spelling := by
  constructor
  · rintro ⟨w, rfl⟩
    exact ⟨w, h.lexeme.word⟩
  · rintro ⟨w, hw⟩
    have htext : cs = w.spelling.toList := by rw [← hw, String.toList_ofList]
    rw [htext] at h
    exact ⟨w, h.lexeme.kind_unique (.ofWord w)⟩

/-- What a piece puts into the stream, on some line. -/
inductive Item : Piece → Scanned → Prop
  | token {k : Kind} {cs : List Char} {line : Nat} :
      Item (.lexeme k cs) (.ok ⟨k, String.ofList cs, line⟩)
  | stray {c : Char} {line : Nat} :
      Item (.stray c) (.error (.lexical line (.unexpectedCharacter c)))
  | unterminated {cs : List Char} {line : Nat} :
      Item (.unterminated cs) (.error (.lexical line .unterminatedString))

/-- Whether a piece is a lexeme or a fault. -/
def yields : Piece → Bool
  | blank _ | comment _ => false
  | _ => true

theorem stream_items (line : Nat) (ps : List Piece) : ∃ items last,
    stream line ps = items ++ [.ok ⟨.finish, "", last⟩] ∧
      List.Forall₂ Item (ps.filter yields) items := by
  induction ps generalizing line with
  | nil => exact ⟨[], line, rfl, .nil⟩
  | cons p ps ih =>
    obtain ⟨items, last, hs, hf⟩ := ih (line + newlines p.text)
    cases p with
    | blank | comment => exact ⟨items, last, hs, hf⟩
    | lexeme => exact ⟨_ :: items, last, congrArg (_ :: ·) hs, .cons .token hf⟩
    | stray => exact ⟨_ :: items, last, congrArg (_ :: ·) hs, .cons .stray hf⟩
    | unterminated => exact ⟨_ :: items, last, congrArg (_ :: ·) hs, .cons .unterminated hf⟩

theorem Munched.written {ps : List Piece} (h : Munched ps) {k : Kind} {cs : List Char}
    (hm : .lexeme k cs ∈ ps) : Written k cs := by
  induction h with
  | nil => cases hm
  | cons hp _ ih =>
    rcases List.mem_cons.1 hm with rfl | hm
    · cases hp with
      | lexeme hw => exact hw
    · exact ih hm

/-- No lexeme gives an end. -/
theorem Item.ne_finish {ps : List Piece} {items : List Scanned}
    (hps : ∀ k cs, .lexeme k cs ∈ ps → k ≠ .finish) (h : List.Forall₂ Item ps items) :
    ∀ t, .ok t ∈ items → t.kind ≠ .finish := by
  induction h with
  | nil => simp
  | cons hi _ ih =>
    intro t ht
    rcases List.mem_cons.1 ht with rfl | ht
    · cases hi
      exact hps _ _ List.mem_cons_self
    · exact ih (fun k cs hm => hps k cs (List.mem_cons_of_mem _ hm)) t ht

end Piece

open Piece in
/-- Scanning cuts a text in the one way in which each piece is what the text from there on
starts with. Nothing of the text is lost, and the stream has a token for each lexeme and a
diagnostic for each fault, in their order, and then the only end. -/
theorem scan_munched (source : String) : ∃ ps : List Piece,
    joined ps = source.toList ∧ Munched ps ∧
    (∀ qs, joined qs = source.toList → Munched qs → qs = ps) ∧ (∀ p ∈ ps, p.text ≠ []) ∧
    (∀ k cs, .lexeme k cs ∈ ps →
      ((∃ w, k = .word w) ↔ ∃ w : Word, String.ofList cs = w.spelling)) ∧
    ∃ items last, scan source = items ++ [.ok ⟨.finish, "", last⟩] ∧
      (∀ t, .ok t ∈ items → t.kind ≠ .finish) ∧
      List.Forall₂ Item (ps.filter yields) items := by
  have hcut := munched_cut source.toList
  obtain ⟨items, last, hs, hf⟩ := stream_items 1 (cut source.toList)
  refine ⟨cut source.toList, flatten_cut _, hcut, ?_, hcut.text_ne_nil, ?_, items, last, hs, ?_, hf⟩
  · intro qs hqs hq
    rw [← hqs]
    exact hq.eq_cut
  · exact fun k cs hm => (hcut.written hm).isWord_iff
  · exact Item.ne_finish (fun k cs hm => (hcut.written (List.mem_of_mem_filter hm)).lexeme.ne_finish) hf

end Lox
