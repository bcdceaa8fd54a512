import Lox.Proofs.Source.Position

/-!
# Counting lines on the way

A scanner that walks through a text once keeps a counter, which goes on in two places only: at
a line break between pieces, and at each one inside a string. No other piece holds a line
break, a comment stopping in front of it, so the counter is always on the line that it should be.
-/

set_option autoImplicit false

namespace Lox.Piece

/-- The counter behind what follows a quote, up to the next quote or the end of the text. -/
def countString (line : Nat) : List Char → Nat
  | [] => line
  | c :: cs =>
    if c = '"' then line else countString (if c = '\n' then line + 1 else line) cs

/-- The counter behind the first piece of `c :: cs`. -/
def countFirst (line : Nat) (c : Char) (cs : List Char) : Nat :=
  if c = '\n' then line + 1 else if c = '"' then countString line cs else line

/-- The stream of a text, with the counter on `line` in front of it. -/
def walk (line : Nat) : List Char → List Scanned
  | [] => [ending line]
  | c :: cs =>
    let last := countFirst line c cs
    ((first c cs).1.scanned? last).toList ++ walk last (first c cs).2
termination_by cs => cs.length
decreasing_by exact first_length c cs

theorem newlines_eq_zero {cs : List Char} (h : '\n' ∉ cs) : newlines cs = 0 :=
  List.count_eq_zero.2 h

theorem countString_eq {body : List Char} (hbody : '"' ∉ body) (rest : List Char) (line : Nat) :
    countString line (body ++ '"' :: rest) = line + newlines body ∧
      countString line body = line + newlines body := by
  induction body generalizing line with
  | nil => exact ⟨rfl, rfl⟩
  | cons c body ih =>
    obtain ⟨hc, hbody⟩ := not_or.1 (mt List.mem_cons.2 hbody)
    have hline (l : Nat) : (if c = '\n' then l + 1 else l) + newlines body =
        l + newlines (c :: body) := by
      simp only [newlines, List.count_cons, beq_iff_eq]
      split <;> omega
    obtain ⟨hclosed, hopen⟩ := ih hbody (if c = '\n' then line + 1 else line)
    constructor
    · rw [List.cons_append, countString, if_neg (Ne.symm hc), hclosed, hline]
    · rw [countString, if_neg (Ne.symm hc), hopen, hline]

/-- A lexeme is a string, or it holds neither a quote nor a line break. -/
theorem Written.string_or_plain {k : Kind} {cs : List Char} (h : Written k cs) :
    (∃ body, '"' ∉ body ∧ cs = '"' :: (body ++ ['"'])) ∨ ∀ d ∈ cs, d ≠ '"' ∧ d ≠ '\n' := by
  have hdigit {d : Char} (hd : isDigit d = true) : d ≠ '"' ∧ d ≠ '\n' :=
    ⟨ne_of_isDigit hd (by decide), ne_of_isDigit hd (by decide)⟩
  have hstart {d : Char} (hd : startsName d = true) : d ≠ '"' ∧ d ≠ '\n' :=
    ⟨ne_of_startsName hd (by decide), ne_of_startsName hd (by decide)⟩
  have hname {d : Char} (hd : continuesName d = true) : d ≠ '"' ∧ d ≠ '\n' := by
    rw [continuesName, Bool.or_eq_true] at hd
    rcases hd with hd | hd
    · exact hstart hd
    · exact hdigit hd
  cases h with
  | mark m =>
    right
    cases m <;> simp [Mark.spelling]
  | word w =>
    right
    cases w <;> simp [Word.spelling]
  | name hc hcs =>
    right
    exact List.forall_mem_cons.2 ⟨hstart hc, fun d hd => hname (hcs d hd)⟩
  | string hcs => exact .inl ⟨_, hcs, rfl⟩
  | digits _ hcs =>
    right
    exact fun d hd => hdigit (hcs d hd)
  | fraction _ hcs _ hds =>
    right
    refine List.forall_mem_append.2 ⟨fun d hd => hdigit (hcs d hd), ?_⟩
    exact List.forall_mem_cons.2 ⟨by decide, fun d hd => hdigit (hds d hd)⟩

/-- Where no line break is, and no string starts, the counter stays as it is. -/
theorem countFirst_plain {c : Char} {cs text rest : List Char} (line : Nat)
    (htext : text ++ rest = c :: cs) (hne : text ≠ []) (hc : c ≠ '"') (hn : '\n' ∉ text) :
    countFirst line c cs = line + newlines text := by
  obtain ⟨d, ds, rfl⟩ := List.exists_cons_of_ne_nil hne
  obtain ⟨rfl, -⟩ := List.cons.inj htext
  rw [countFirst, if_neg fun hd => hn (by simp [hd]), if_neg hc, newlines_eq_zero hn, Nat.add_zero]

/-- The counter takes the line breaks of a piece, each once. -/
theorem countFirst_eq (line : Nat) (c : Char) (cs : List Char) :
    countFirst line c cs = line + newlines (first c cs).1.text := by
  have hm := munch_first c cs
  have htext := first_append c cs
  generalize (first c cs).1 = p, (first c cs).2 = rest at hm htext ⊢
  cases hm with
  | @blank d _ hd =>
    obtain ⟨rfl, -⟩ := List.cons.inj htext
    simp only [List.mem_cons, List.not_mem_nil, or_false] at hd
    rcases hd with rfl | rfl | rfl | rfl <;> rfl
  | comment hbody =>
    obtain ⟨rfl, -⟩ := List.cons.inj htext
    exact countFirst_plain line htext (by simp [text]) (by decide) (by simpa [text] using hbody)
  | lexeme hw =>
    rcases hw.string_or_plain with ⟨body, hbody, rfl⟩ | hplain
    · have hcs : c :: cs = '"' :: (body ++ '"' :: rest) := by simpa [text] using htext.symm
      obtain ⟨rfl, rfl⟩ := List.cons.inj hcs
      have hcount := (countString_eq hbody rest line).1
      simpa [countFirst, text, newlines] using hcount
    · obtain ⟨d, ds, rfl⟩ := List.exists_cons_of_ne_nil (Sound.lexeme hw.lexeme).text_ne_nil
      obtain ⟨rfl, -⟩ := List.cons.inj htext
      exact countFirst_plain line htext (by simp [text]) (hplain d List.mem_cons_self).1
        fun hmem => (hplain _ hmem).2 rfl
  | stray hb hl =>
    obtain ⟨rfl, -⟩ := List.cons.inj htext
    refine countFirst_plain line htext (by simp [text]) ?_ ?_
    · rintro rfl
      have hempty : '"' ∉ ([] : List Char) := List.not_mem_nil
      exact hl _ _ (.string hempty)
    · rw [text, List.mem_singleton]
      rintro rfl
      exact hb (by simp)
  | @unterminated body hbody =>
    have hcs : c :: cs = '"' :: body := by simpa [text] using htext.symm
    obtain ⟨rfl, rfl⟩ := List.cons.inj hcs
    have hcount := (countString_eq hbody [] line).2
    simpa [countFirst, text, newlines] using hcount

theorem walk_eq (line : Nat) (cs : List Char) : walk line cs = stream line (cut cs) := by
  fun_induction walk line cs with
  | case1 => simp [cut, stream, ending]
  | case2 line c cs last ih =>
    rw [cut]
    have hlast : last = line + newlines (first c cs).1.text := countFirst_eq line c cs
    rw [hlast] at ih ⊢
    cases hp : (first c cs).1.scanned? (line + newlines (first c cs).1.text) with
    | none => rw [(stream_none hp).1, ih]; rfl
    | some item => rw [(stream_some hp).1, ih]; rfl

end Lox.Piece
