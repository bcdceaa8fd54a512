import Mathlib
import Lox.Proofs.Number.RoundTrip
import Lox.Proofs.Source.Stream
import Lox.Tree.Form

/-!
# The pieces of a printed expression

The source form of an expression is made of pieces: the lexemes of its tokens and literals,
marks, and blanks around operators. Behind an operand stands nothing that could extend it,
so the printed text is cut into just these pieces.
-/

set_option autoImplicit false

namespace Lox

namespace Piece

/-- The text of pieces put together. -/
def joined (ps : List Piece) : List Char := (ps.map text).flatten

@[simp] theorem joined_nil : joined [] = [] := rfl

@[simp] theorem joined_cons (p : Piece) (ps : List Piece) : joined (p :: ps) = p.text ++ joined ps :=
  rfl

@[simp] theorem joined_append (ps qs : List Piece) : joined (ps ++ qs) = joined ps ++ joined qs := by
  simp [joined]

def mark (m : Mark) : Piece := .lexeme (.mark m) m.spelling.toList

def word (w : Word) : Piece := .lexeme (.word w) w.spelling.toList

/-- The token on whichever line. -/
def token (t : Token) : Piece := .lexeme t.kind t.lexeme.toList

def space : Piece := .blank ' '

end Piece

/-- The kind of the token that stands for a literal. -/
def Literal.kind : Literal → Kind
  | nil => .word .nil
  | bool true => .word .true
  | bool false => .word .false
  | number x => .number x
  | string s => .string s

namespace Expr

open Piece

mutual

def pieces : Expr → List Piece
  | literal v => [.lexeme v.kind v.source.toList]
  | grouping e => mark .leftParen :: pieces e ++ [mark .rightParen]
  | unary op e => mark .leftParen :: token op :: pieces e ++ [mark .rightParen]
  | binary l op r =>
    mark .leftParen :: (pieces l ++ space :: token op :: space :: pieces r) ++ [mark .rightParen]
  | logical l op r =>
    mark .leftParen :: (pieces l ++ space :: token op :: space :: pieces r) ++ [mark .rightParen]
  | var r => [token r.name]
  | assign r e => token r.name :: space :: mark .equal :: space :: pieces e
  | call f _ es => pieces f ++ mark .leftParen :: argumentPieces es ++ [mark .rightParen]
  | get e x => pieces e ++ [mark .dot, token x]
  | set e x v => pieces e ++ mark .dot :: token x :: space :: mark .equal :: space :: pieces v
  | this _ => [word .this]
  | super _ x => [word .super, mark .dot, token x]

def argumentPieces : List Expr → List Piece
  | [] => []
  | [e] => pieces e
  | e :: es => pieces e ++ mark .comma :: space :: argumentPieces es

end

mutual

/-- The pieces make up the printed text. -/
theorem joined_pieces : (e : Expr) → joined e.pieces = e.source.toList
  | literal v => by simp [pieces, source, text]
  | grouping e => by
    have h := joined_pieces e
    simp_all [pieces, source, text, mark, Mark.spelling]
  | unary op e => by
    have h := joined_pieces e
    simp_all [pieces, source, text, mark, token, Mark.spelling]
  | binary l op r => by
    have hl := joined_pieces l
    have hr := joined_pieces r
    simp_all [pieces, source, text, mark, token, space, Mark.spelling]
  | logical l op r => by
    have hl := joined_pieces l
    have hr := joined_pieces r
    simp_all [pieces, source, text, mark, token, space, Mark.spelling]
  | var r => by simp [pieces, source, text, token]
  | assign r e => by
    have h := joined_pieces e
    simp_all [pieces, source, text, mark, token, space, Mark.spelling]
  | call f c es => by
    have hf := joined_pieces f
    have hes := joined_argumentPieces es
    simp_all [pieces, source, text, mark, Mark.spelling]
  | get e x => by
    have h := joined_pieces e
    simp_all [pieces, source, text, mark, token, Mark.spelling]
  | set e x v => by
    have h := joined_pieces e
    have hv := joined_pieces v
    simp_all [pieces, source, text, mark, token, space, Mark.spelling]
  | this r => by simp [pieces, source, text, word, Word.spelling]
  | super r x => by simp [pieces, source, text, mark, word, token, Mark.spelling, Word.spelling]

theorem joined_argumentPieces : (es : List Expr) →
    joined (argumentPieces es) = (sourceArguments es).toList
  | [] => by simp [argumentPieces, sourceArguments]
  | [e] => by
    have h := joined_pieces e
    simp_all [argumentPieces, sourceArguments]
  | e :: e' :: es => by
    have h := joined_pieces e
    have hes := joined_argumentPieces (e' :: es)
    simp_all [argumentPieces, sourceArguments, text, mark, space, Mark.spelling]

end

end Expr

namespace Piece

namespace Lexeme

theorem ofMark (m : Mark) : Lexeme (.mark m) m.spelling.toList := by
  cases m <;> first | exact .single rfl | exact .bare rfl | exact .extended rfl

theorem ofName {cs : List Char} (h : cs ≠ []) (hs : ∀ c ∈ cs, startsName c = true) :
    Lexeme (nameKind cs) cs := by
  obtain ⟨c, cs, rfl⟩ := List.exists_cons_of_ne_nil h
  rw [List.forall_mem_cons] at hs
  apply Lexeme.name hs.1
  intro d hd
  simp [continuesName, hs.2 d hd]

theorem ofWord (w : Word) : Lexeme (.word w) w.spelling.toList := by
  have hk : nameKind w.spelling.toList = .word w := by
    unfold nameKind
    rw [String.ofList_toList, Word.ofSpelling?_spelling]
  rw [← hk]
  cases w <;> exact ofName (by simp [Word.spelling]) (by simp [Word.spelling, startsName])

variable {k : Kind} {cs : List Char}

/-- A mark is written as it is spelled. -/
theorem mark_text {m : Mark} (h : Lexeme (.mark m) cs) : cs = m.spelling.toList := by
  generalize hk : Kind.mark m = k at h
  cases h with
  | single hs =>
    cases hk
    unfold single? at hs
    split at hs <;> cases hs <;> rfl
  | bare hs | extended hs =>
    cases hk
    unfold extensible? at hs
    split at hs <;> cases hs <;> rfl
  | name =>
    unfold nameKind at hk
    split at hk <;> cases hk
  | _ => cases hk

/-- A string stands between quotes. -/
theorem string_text {s : String} (h : Lexeme (.string s) cs) : cs = ("\"" ++ s ++ "\"").toList := by
  generalize hk : Kind.string s = k at h
  cases h with
  | string =>
    cases hk
    simp
  | name =>
    unfold nameKind at hk
    split at hk <;> cases hk
  | _ => cases hk

/-- The value of a number is that of its numeral. -/
theorem number_value {x : Float} (h : Lexeme (.number x) cs) : x = Number.ofNumeral cs := by
  generalize hk : Kind.number x = k at h
  cases h with
  | whole | fraction =>
    cases hk
    rfl
  | name =>
    unfold nameKind at hk
    split at hk <;> cases hk
  | _ => cases hk

/-- Only a mark starts with an equals sign. -/
theorem starts (h : Lexeme k cs) (hk : ∀ m, k ≠ .mark m) (rest : List Char) :
    Avoids (· == '=') (cs ++ rest) := by
  intro d hd
  cases h with
  | single | bare | extended => exact absurd rfl (hk _)
  | name hc =>
    cases hd
    simpa using ne_of_startsName hc (by decide)
  | string =>
    cases hd
    rfl
  | whole hc | fraction hc =>
    cases hd
    simpa using ne_of_isDigit hc (by decide)

end Lexeme

/-- Nothing that extends a name or a number in front of it. -/
structure Closed (cs : List Char) : Prop where
  name : Avoids continuesName cs
  point : ∀ d r, cs = '.' :: d :: r → isDigit d = false

theorem Closed.nil : Closed [] where
  name := by simp [Avoids]
  point := by simp

theorem Closed.cons {c : Char} {cs : List Char} (hn : continuesName c = false) (hp : c ≠ '.') :
    Closed (c :: cs) where
  name := by simpa [Avoids] using hn
  point := by simp [hp]

theorem Closed.ends_literal {rest : List Char} (h : Closed rest) (v : Literal) (cs : List Char) :
    Ends (.lexeme v.kind cs) rest := by
  cases v with
  | nil => exact h.name
  | bool b => cases b <;> exact h.name
  | number x =>
    apply And.intro
    · intro d hd
      have hn := h.name d hd
      simp only [continuesName, Bool.or_eq_false_iff] at hn
      exact hn.2
    · exact fun _ => h.point
  | string s => trivial

/-- A blank extends no lexeme. -/
theorem ends_blank (k : Kind) (cs rest : List Char) : Ends (.lexeme k cs) (' ' :: rest) := by
  unfold Ends
  split
  case h_9 => simp [Avoids, isDigit]
  all_goals first | trivial | simp [Avoids, continuesName, startsName, isDigit]

theorem Fits.space {ps : List Piece} (h : Fits ps) : Fits (space :: ps) :=
  ⟨.blank (by decide), trivial, h⟩

theorem Fits.mark {m : Mark} {ps : List Piece} (h : Fits ps)
    (he : Ends (.mark m) (joined ps)) : Fits (Piece.mark m :: ps) :=
  ⟨.lexeme (.ofMark m), he, h⟩

/-- A token with a blank behind it. -/
theorem Fits.spaced {t : Token} {ps : List Piece} (h : Fits ps)
    (ht : Lexeme t.kind t.lexeme.toList) : Fits (token t :: Piece.space :: ps) :=
  ⟨.lexeme ht, ends_blank _ _ _, h.space⟩

/-- A name behind a point, which is not the point of a number. -/
theorem Fits.access {x : Token} {ps : List Piece} (h : Fits ps) (hc : Closed (joined ps))
    (hx : x.kind = .identifier) (hl : Lexeme x.kind x.lexeme.toList) :
    Fits (Piece.mark .dot :: token x :: ps) ∧
      Closed (joined (Piece.mark .dot :: token x :: ps)) := by
  have hends : Ends (token x) (joined ps) := by
    rw [token, hx]
    exact hc.name
  apply And.intro
  · exact Fits.mark ⟨.lexeme hl, hends, h⟩ trivial
  · rw [hx] at hl
    obtain ⟨-, c, cs, he, hs, -⟩ := hl.identifier
    constructor
    · simp [joined_cons, text, Piece.mark, Mark.spelling, Avoids, continuesName, startsName, isDigit]
    · intro d r hd
      simp only [joined_cons, text, Piece.mark, token, Mark.spelling, he] at hd
      cases hd
      exact isDigit_of_startsName hs

/-- Pieces that can stand before anything that does not extend an operand, and behind an
operator. -/
structure Placed (ps : List Piece) : Prop where
  starts (rest : List Char) : Avoids (· == '=') (joined ps ++ rest)
  fits {rest : List Piece} (h : Fits rest) (hc : Closed (joined rest)) : Fits (ps ++ rest)

namespace Placed

variable {ps qs : List Piece} {x : Token}

theorem single {k : Kind} {cs : List Char} (hl : Lexeme k cs) (hk : ∀ m, k ≠ .mark m)
    (he : ∀ rest, Closed rest → Ends (.lexeme k cs) rest) : Placed [.lexeme k cs] where
  starts rest := by simpa [text] using hl.starts hk rest
  fits h hc := ⟨.lexeme hl, he _ hc, h⟩

theorem name (hx : x.kind = .identifier) (hl : Lexeme x.kind x.lexeme.toList) :
    Placed [token x] := by
  apply single hl
  · simp [hx]
  · intro rest h
    rw [hx]
    exact h.name

/-- Brackets around anything that fits before the closing one. -/
theorem enclosed (h : ∀ {rest}, Fits rest → Fits (ps ++ mark .rightParen :: rest)) :
    Placed (mark .leftParen :: ps ++ [mark .rightParen]) where
  starts rest := by simp [Avoids, text, mark, Mark.spelling]
  fits hr hc := by
    have hfits := Fits.mark (m := .leftParen) (h hr) trivial
    simpa using hfits

theorem closing {rest : List Piece} (h : Placed ps) (hr : Fits rest) :
    Fits (ps ++ mark .rightParen :: rest) :=
  h.fits (hr.mark trivial) (.cons (by decide) (by decide))

theorem paren (h : Placed ps) : Placed (mark .leftParen :: ps ++ [mark .rightParen]) :=
  .enclosed h.closing

theorem unary {op : Token} (h : Placed ps) (ho : Grammar.isUnaryOperator op.kind = true)
    (hl : Lexeme op.kind op.lexeme.toList) :
    Placed (mark .leftParen :: token op :: ps ++ [mark .rightParen]) := by
  apply enclosed
  intro rest hr
  refine ⟨.lexeme hl, ?_, h.closing hr⟩
  simp only [Grammar.isUnaryOperator, Bool.or_eq_true, beq_iff_eq] at ho
  show Ends (token op) (joined (ps ++ mark .rightParen :: rest))
  rw [joined_append]
  rcases ho with ho | ho
  · rw [token, ho]
    exact h.starts _
  · rw [token, ho]
    trivial

theorem binary {op : Token} (h : Placed ps) (h' : Placed qs) (hl : Lexeme op.kind op.lexeme.toList) :
    Placed (mark .leftParen :: (ps ++ space :: token op :: space :: qs) ++ [mark .rightParen]) := by
  apply enclosed
  intro rest hr
  have hfits := h.fits ((h'.closing hr).spaced hl).space (.cons (by decide) (by decide))
  simpa using hfits

theorem access (h : Placed ps) (hx : x.kind = .identifier) (hl : Lexeme x.kind x.lexeme.toList) :
    Placed (ps ++ [mark .dot, token x]) where
  starts rest := by
    rw [joined_append, List.append_assoc]
    exact h.starts _
  fits hr hc := by
    have ha := hr.access hc hx hl
    simpa using h.fits ha.1 ha.2

theorem emptyCall (h : Placed ps) : Placed (ps ++ mark .leftParen :: [] ++ [mark .rightParen]) where
  starts rest := by
    rw [List.append_assoc, joined_append, List.append_assoc]
    exact h.starts _
  fits hr hc := by
    have hfits := h.fits (Fits.mark (m := .leftParen) (hr.mark (m := .rightParen) trivial) trivial)
      (.cons (by decide) (by decide))
    simpa using hfits

theorem call (h : Placed ps) (h' : Placed qs) :
    Placed (ps ++ mark .leftParen :: qs ++ [mark .rightParen]) where
  starts rest := by
    rw [List.append_assoc, joined_append, List.append_assoc]
    exact h.starts _
  fits hr hc := by
    have hfits := h.fits (Fits.mark (m := .leftParen) (h'.closing hr) trivial)
      (.cons (by decide) (by decide))
    simpa using hfits

theorem comma (h : Placed ps) (h' : Placed qs) : Placed (ps ++ mark .comma :: space :: qs) where
  starts rest := by
    rw [joined_append, List.append_assoc]
    exact h.starts _
  fits hr hc := by
    have hfits := h.fits (Fits.mark (m := .comma) (h'.fits hr hc).space trivial)
      (.cons (by decide) (by decide))
    simpa using hfits

/-- The assignment of a value to what was printed before. -/
theorem fits_assigned {rest : List Piece} (h : Placed qs) (hr : Fits rest) (hc : Closed (joined rest)) :
    Fits (space :: mark .equal :: space :: qs ++ rest) :=
  (Fits.mark (h.fits hr hc).space (by simp [Ends, mark, space, text, Avoids])).space

theorem assign (h : Placed ps) (h' : Placed qs) :
    Placed (ps ++ space :: mark .equal :: space :: qs) where
  starts rest := by
    rw [joined_append, List.append_assoc]
    exact h.starts _
  fits hr hc := by
    have hfits := h.fits (h'.fits_assigned hr hc) (.cons (by decide) (by decide))
    simpa using hfits

end Placed

end Piece

end Lox
