import Lox.Proofs.Source.MaximalMunch

/-!
# Positions in a source text

Each item of the stream of a text stands somewhere in it: the text in front of it gives the
items in front of it, and the text from it on gives the item and those behind. The line of an
item is that on which its text ends, so lines never decrease along the stream.
-/

set_option autoImplicit false

namespace Lox.Piece

@[simp] theorem newlines_nil : newlines [] = 0 := rfl

@[simp] theorem newlines_append (cs ds : List Char) :
    newlines (cs ++ ds) = newlines cs + newlines ds :=
  List.count_append

section Entries

variable {line : Nat} {ps qs : List Piece} {items items' : List Scanned} {item : Scanned}

/-- What the pieces from `line` on put into the stream, without the end of the input. -/
def entries (line : Nat) : List Piece → List Scanned
  | [] => []
  | p :: ps =>
    let last := line + newlines p.text
    (p.scanned? last).toList ++ entries last ps

/-- The end of the input, on its line. -/
def ending (line : Nat) : Scanned := .ok ⟨.finish, "", line⟩

theorem stream_append (line : Nat) (ps qs : List Piece) :
    stream line (ps ++ qs) = entries line ps ++ stream (line + newlines (joined ps)) qs := by
  induction ps generalizing line with
  | nil => rfl
  | cons p ps ih =>
    have h := ih (line + newlines p.text)
    rw [Nat.add_assoc, ← newlines_append, ← joined_cons] at h
    simp only [List.cons_append, stream, entries]
    cases p.scanned? (line + newlines p.text) with
    | none => exact h
    | some item => exact congrArg (item :: ·) h

theorem stream_eq (line : Nat) (ps : List Piece) :
    stream line ps = entries line ps ++ [ending (line + newlines (joined ps))] := by
  have h := stream_append line ps []
  rwa [List.append_nil] at h

theorem stream_none {p : Piece} (hp : p.scanned? (line + newlines p.text) = none) :
    stream line (p :: ps) = stream (line + newlines p.text) ps ∧
      entries line (p :: ps) = entries (line + newlines p.text) ps := by
  simp [stream, entries, hp]

theorem stream_some {p : Piece} (hp : p.scanned? (line + newlines p.text) = some item) :
    stream line (p :: ps) = item :: stream (line + newlines p.text) ps ∧
      entries line (p :: ps) = item :: entries (line + newlines p.text) ps := by
  simp [stream, entries, hp]

/-- An item is that of one of the pieces, or it is the end behind all of them. -/
theorem stream_split (h : stream line ps = items ++ item :: items') :
    (∃ before p after, ps = before ++ p :: after ∧ items = entries line before ∧
      p.scanned? (line + newlines (joined before ++ p.text)) = some item ∧
      items' = stream (line + newlines (joined before ++ p.text)) after) ∨
    items = entries line ps ∧ item = ending (line + newlines (joined ps)) ∧ items' = [] := by
  induction ps generalizing line items with
  | nil =>
    right
    obtain ⟨rfl, ⟨⟩⟩ | ⟨-, ⟨⟩⟩ := List.singleton_eq_append_iff.1 h
    exact ⟨rfl, rfl, rfl⟩
  | cons q ps ih =>
    have hlines (qs : List Piece) (cs : List Char) :
        line + newlines (joined (q :: qs) ++ cs) =
          line + newlines q.text + newlines (joined qs ++ cs) := by
      simp [Nat.add_assoc]
    have hjoined := hlines ps []
    simp only [List.append_nil] at hjoined
    cases hq : q.scanned? (line + newlines q.text) with
    | none =>
      rw [(stream_none hq).1] at h
      rcases ih h with ⟨before, p, after, rfl, rfl, hp, rfl⟩ | ⟨rfl, rfl, rfl⟩
      · exact .inl ⟨q :: before, p, after, rfl, (stream_none hq).2.symm,
          by rwa [hlines], by rw [hlines]⟩
      · exact .inr ⟨(stream_none hq).2.symm, by rw [hjoined], rfl⟩
    | some first =>
      rw [(stream_some hq).1] at h
      cases items with
      | nil =>
        obtain ⟨rfl, rfl⟩ := List.cons.inj h
        exact .inl ⟨[], q, ps, rfl, rfl, hq, rfl⟩
      | cons head items =>
        obtain ⟨rfl, hrest⟩ := List.cons.inj h
        rcases ih hrest with ⟨before, p, after, rfl, rfl, hp, rfl⟩ | ⟨rfl, rfl, rfl⟩
        · exact .inl ⟨q :: before, p, after, rfl, (stream_some hq).2.symm,
            by rwa [hlines], by rw [hlines]⟩
        · exact .inr ⟨(stream_some hq).2.symm, by rw [hjoined], rfl⟩

end Entries

theorem joined_cut (cs : List Char) : joined (cut cs) = cs := flatten_cut cs

section Parts

variable {p : Piece} {ps qs : List Piece} {cs ds : List Char}

/-- What starts a text also starts a shorter one that still holds it. -/
theorem Munch.of_append (h : Munch p (cs ++ ds)) : Munch p cs := by
  generalize hr : cs ++ ds = rest at h
  cases h with
  | blank hc => exact .blank hc
  | comment hcs hhead =>
    apply Munch.comment hcs
    intro d hd
    obtain ⟨cs, rfl⟩ := List.head?_eq_some_iff.1 hd
    exact hhead d (by rw [← hr]; rfl)
  | @lexeme k text _ hw hl =>
    subst hr
    have hmore {es : List Char} (hes : es <+: text ++ cs) : es <+: text ++ (cs ++ ds) := by
      rw [← List.append_assoc]
      exact hes.trans (List.prefix_append _ _)
    exact .lexeme hw ⟨fun hw' hes => hl.length_le hw' (hmore hes), fun hes => hl.noComment (hmore hes)⟩
  | stray hb hl => exact .stray hb hl
  | unterminated hq =>
    rw [(List.append_eq_nil_iff.1 hr).1]
    exact .unterminated hq

theorem Munched.left (h : Munched (ps ++ qs)) : Munched ps := by
  induction ps with
  | nil => exact .nil
  | cons p ps ih =>
    obtain _ | ⟨hp, hps⟩ := h
    have hp : Munch p (joined ps ++ joined qs) := joined_append ps qs ▸ hp
    exact .cons hp.of_append (ih hps)

theorem Munched.right (h : Munched (ps ++ qs)) : Munched qs := by
  induction ps with
  | nil => exact h
  | cons p ps ih =>
    obtain _ | ⟨_, hps⟩ := h
    exact ih hps

end Parts

/-- The item stands between `pre` and `post`, written as `text`: what is in front of it gives
the items in front, its text adds the item to them, and the source from there on gives the item
and those behind. Only the end of the input has no text. -/
structure Stands (source : String) (items : List Scanned) (item : Scanned) (items' : List Scanned)
    (pre text post : List Char) : Prop where
  source_eq : source.toList = pre ++ text ++ post
  front : scan (String.ofList pre) = items ++ [ending (1 + newlines pre)]
  through : text ≠ [] →
    scan (String.ofList (pre ++ text)) = items ++ [item, ending (1 + newlines (pre ++ text))]
  onward : stream (1 + newlines pre) (cut (text ++ post)) = item :: items'

/-- A line break is a blank, so it is no stray character. -/
theorem ne_newline_of_stray {c : Char} {cs : List Char} (h : .stray c ∈ cut cs) : c ≠ '\n' := by
  obtain ⟨before, after, hcut⟩ := List.append_of_mem h
  have hm := munched_cut cs
  rw [hcut] at hm
  obtain _ | ⟨hp, -⟩ := hm.right
  cases hp with
  | stray hb =>
    rintro rfl
    exact hb (by simp)

section Stands

variable {source : String} {items items' : List Scanned} {item : Scanned}

/-- The item of a piece stands where the piece does. -/
theorem Stands.of_cut {before after : List Piece} {p : Piece}
    (hcut : cut source.toList = before ++ p :: after)
    (hp : p.scanned? (1 + newlines (joined before ++ p.text)) = some item) :
    Stands source (entries 1 before) item
      (stream (1 + newlines (joined before ++ p.text)) after)
      (joined before) p.text (joined after) := by
  have hm := munched_cut source.toList
  rw [hcut] at hm
  have hline : 1 + newlines (joined before) + newlines p.text =
      1 + newlines (joined before ++ p.text) := by
    rw [newlines_append, Nat.add_assoc]
  constructor
  · rw [← joined_cut source.toList, hcut, joined_append, joined_cons, List.append_assoc]
  · rw [scan, String.toList_ofList, ← hm.left.eq_cut]
    exact stream_eq 1 before
  · intro _
    have hm' : Munched ((before ++ [p]) ++ after) := by rwa [List.append_assoc]
    have hp' : Munched (before ++ [p]) := hm'.left
    have htext : joined before ++ p.text = joined (before ++ [p]) := by simp
    rw [scan, String.toList_ofList, htext, ← hp'.eq_cut, stream_append, ← htext]
    simp only [stream, hline, hp]
    rfl
  · rw [← joined_cons, ← hm.right.eq_cut]
    simp only [stream, hline, hp]

/-- Every item is that of a piece, or it is the end of the input behind all pieces. -/
theorem scan_split (h : scan source = items ++ item :: items') :
    (∃ before p after, cut source.toList = before ++ p :: after ∧
      p.scanned? (1 + newlines (joined before ++ p.text)) = some item ∧
      Stands source items item items' (joined before) p.text (joined after)) ∨
    item = ending (1 + newlines source.toList) ∧
      Stands source items item items' source.toList [] [] := by
  rcases stream_split h with ⟨before, p, after, hcut, rfl, hp, rfl⟩ | ⟨rfl, hend, rfl⟩
  · exact .inl ⟨before, p, after, hcut, hp, .of_cut hcut hp⟩
  · right
    rw [joined_cut] at hend
    refine ⟨hend, by simp, ?_, fun hne => absurd rfl hne, ?_⟩
    · rw [String.ofList_toList, scan, stream_eq, joined_cut]
    · rw [hend]
      simp [cut, stream, ending]

/-- A token stands where its lexeme does, and has the line on which this ends. -/
theorem stands_token {t : Token} (h : scan source = items ++ .ok t :: items') :
    ∃ pre post, Stands source items (.ok t) items' pre t.lexeme.toList post ∧
      t.line = 1 + newlines (pre ++ t.lexeme.toList) ∧ (t.kind = .finish → post = []) := by
  rcases scan_split h with ⟨before, p, after, hcut, hp, hs⟩ | ⟨hend, hs⟩
  · have hm : p ∈ cut source.toList := by simp [hcut]
    cases p with
    | lexeme k cs =>
      obtain rfl := Except.ok.inj (Option.some.inj hp)
      have hk : k ≠ .finish := (lexeme_of_mem_cut hm).ne_finish
      refine ⟨joined before, joined after, ?_, ?_, fun he => absurd he hk⟩
      · simpa [text] using hs
      · simp [text]
    | _ => cases hp
  · obtain rfl := Except.ok.inj hend
    exact ⟨source.toList, [], hs, by simp, fun _ => rfl⟩

/-- An unexpected character stands where the diagnostic says. -/
theorem stands_unexpected {line : Nat} {c : Char}
    (h : scan source = items ++ .error (.lexical line (.unexpectedCharacter c)) :: items') :
    ∃ pre post, Stands source items (.error (.lexical line (.unexpectedCharacter c))) items' pre [c]
      post ∧ line = 1 + newlines pre := by
  rcases scan_split h with ⟨before, p, after, hcut, hp, hs⟩ | ⟨hend, -⟩
  · have hm : p ∈ cut source.toList := by simp [hcut]
    cases p with
    | stray d =>
      cases hp
      refine ⟨joined before, joined after, hs, ?_⟩
      have hc : c ≠ '\n' := ne_newline_of_stray hm
      simp [text, newlines, hc]
    | _ => cases hp
  · cases hend

/-- A string that is never closed goes on to the last line. -/
theorem line_unterminated {line : Nat}
    (h : .error (.lexical line .unterminatedString) ∈ scan source) :
    line = 1 + newlines source.toList := by
  obtain ⟨items, items', h⟩ := List.append_of_mem h
  rcases scan_split h with ⟨before, p, after, hcut, hp, hs⟩ | ⟨hend, -⟩
  · have hm := munched_cut source.toList
    rw [hcut] at hm
    obtain _ | ⟨hp', -⟩ := hm.right
    rw [hs.source_eq]
    generalize joined after = rest at hp'
    cases p with
    | unterminated cs =>
      cases hp
      cases hp'
      simp [text]
    | _ => cases hp
  · cases hend

end Stands

end Lox.Piece

namespace Lox.Scanned

def line? : Scanned → Option Nat
  | .ok t => some t.line
  | .error d => d.line?

/-- The line of an item, which is one of these. -/
def Within (first last : Nat) (item : Scanned) : Prop :=
  ∃ line, item.line? = some line ∧ first ≤ line ∧ line ≤ last

/-- The one is on no later line than the other. -/
def NoLater (item item' : Scanned) : Prop :=
  ∃ line line', item.line? = some line ∧ item'.line? = some line' ∧ line ≤ line'

end Lox.Scanned

namespace Lox.Piece

theorem line?_scanned {p : Piece} {last : Nat} {item : Scanned} (h : p.scanned? last = some item) :
    item.line? = some last := by
  cases p <;> cases h <;> rfl

theorem within_stream (line : Nat) (ps : List Piece) :
    ∀ item ∈ stream line ps, item.Within line (line + newlines (joined ps)) := by
  induction ps generalizing line with
  | nil =>
    intro item hi
    obtain rfl := List.mem_singleton.1 hi
    exact ⟨line, rfl, Nat.le_refl _, Nat.le_add_right ..⟩
  | cons p ps ih =>
    have hbehind : ∀ item ∈ stream (line + newlines p.text) ps,
        item.Within line (line + newlines (joined (p :: ps))) := by
      intro item hi
      obtain ⟨l, hl, hfirst, hlast⟩ := ih _ item hi
      refine ⟨l, hl, by omega, ?_⟩
      rwa [joined_cons, newlines_append, ← Nat.add_assoc]
    cases hp : p.scanned? (line + newlines p.text) with
    | none => rwa [(stream_none hp).1]
    | some first =>
      rw [(stream_some hp).1, List.forall_mem_cons]
      refine ⟨⟨_, line?_scanned hp, Nat.le_add_right .., ?_⟩, hbehind⟩
      rw [joined_cons, newlines_append]
      omega

/-- Lines never decrease along a stream. -/
theorem pairwise_stream (line : Nat) (ps : List Piece) :
    (stream line ps).Pairwise Scanned.NoLater := by
  induction ps generalizing line with
  | nil => exact List.pairwise_singleton _ _
  | cons p ps ih =>
    cases hp : p.scanned? (line + newlines p.text) with
    | none =>
      rw [(stream_none hp).1]
      exact ih _
    | some first =>
      rw [(stream_some hp).1, List.pairwise_cons]
      refine ⟨?_, ih _⟩
      intro item hi
      obtain ⟨l, hl, hfirst, -⟩ := within_stream _ _ item hi
      exact ⟨_, l, line?_scanned hp, hl, hfirst⟩

end Lox.Piece
