import Lox.Token
import Lox.Number.Numeral

/-!
# Pieces of a source text

A source text is cut into pieces: blanks, comments, lexemes, characters that
can start nothing, and at most one string that is never closed. Each cut takes
the longest piece its first characters allow, no piece is empty, and the
pieces put together are the text.
-/

set_option autoImplicit false

namespace Lox

inductive Piece where
  | blank (c : Char)
  | comment (text : List Char)
  | lexeme (kind : Kind) (text : List Char)
  | stray (c : Char)
  | unterminated (text : List Char)

namespace Piece

def text : Piece → List Char
  | blank c => [c]
  | comment cs => cs
  | lexeme _ cs => cs
  | stray c => [c]
  | unterminated cs => cs

def isBlank (c : Char) : Bool := c == ' ' || c == '\r' || c == '\t' || c == '\n'

def isDigit (c : Char) : Bool := '0' ≤ c && c ≤ '9'

/-- Names are made of ASCII letters, digits and underscores. -/
def startsName (c : Char) : Bool := 'a' ≤ c && c ≤ 'z' || 'A' ≤ c && c ≤ 'Z' || c == '_'

def continuesName (c : Char) : Bool := startsName c || isDigit c

/-- The marks of one character that no second character can extend. -/
def single? : Char → Option Mark
  | '(' => some .leftParen
  | ')' => some .rightParen
  | '\x7b' => some .leftBrace
  | '\x7d' => some .rightBrace
  | ',' => some .comma
  | '.' => some .dot
  | '-' => some .minus
  | '+' => some .plus
  | ';' => some .semicolon
  | '/' => some .slash
  | '*' => some .star
  | _ => none

/-- The marks that a following `=` extends, each with its extension. -/
def extensible? : Char → Option (Mark × Mark)
  | '!' => some (.bang, .bangEqual)
  | '=' => some (.equal, .equalEqual)
  | '<' => some (.less, .lessEqual)
  | '>' => some (.greater, .greaterEqual)
  | _ => none

/-- A fraction is a point with a digit behind it. -/
def fraction (cs : List Char) : List Char × List Char :=
  match cs with
  | '.' :: d :: r =>
    if isDigit d then ('.' :: d :: r.takeWhile isDigit, r.dropWhile isDigit) else ([], cs)
  | _ => ([], cs)

def nameKind (cs : List Char) : Kind :=
  match Word.ofSpelling? (String.ofList cs) with
  | some w => .word w
  | none => .identifier

/-- The first piece of `c :: cs` and the text behind it. -/
def first (c : Char) (cs : List Char) : Piece × List Char :=
  if isBlank c then (blank c, cs)
  else if c == '/' && cs.head? == some '/' then
    (comment (c :: cs.takeWhile (· != '\n')), cs.dropWhile (· != '\n'))
  else if c == '"' then
    let body := cs.takeWhile (· != '"')
    match cs.dropWhile (· != '"') with
    | q :: r => (lexeme (.string (String.ofList body)) (c :: (body ++ [q])), r)
    | [] => (unterminated (c :: cs), [])
  else if isDigit c then
    let whole := c :: cs.takeWhile isDigit
    let (places, r) := fraction (cs.dropWhile isDigit)
    (lexeme (.number (Number.ofNumeral (whole ++ places))) (whole ++ places), r)
  else if startsName c then
    let name := c :: cs.takeWhile continuesName
    (lexeme (nameKind name) name, cs.dropWhile continuesName)
  else
    match single? c, extensible? c, cs with
    | some m, _, _ => (lexeme (.mark m) [c], cs)
    | none, some (_, m), '=' :: r => (lexeme (.mark m) [c, '='], r)
    | none, some (m, _), _ => (lexeme (.mark m) [c], cs)
    | none, none, _ => (stray c, cs)

theorem fraction_append (cs : List Char) : (fraction cs).1 ++ (fraction cs).2 = cs := by
  unfold fraction
  split
  · split <;> simp
  · simp

theorem first_append (c : Char) (cs : List Char) :
    (first c cs).1.text ++ (first c cs).2 = c :: cs := by
  unfold first
  split
  · simp [text]
  split
  · simp [text]
  split
  · dsimp only
    split
    · rename_i q r h
      have hs := List.takeWhile_append_dropWhile (p := (· != '"')) (l := cs)
      rw [h] at hs
      simpa [text] using hs
    · simp [text]
  split
  · have hf := fraction_append (cs.dropWhile isDigit)
    simp only [text, List.cons_append, List.append_assoc, hf, List.takeWhile_append_dropWhile]
  split
  · simp [text]
  · split <;> simp [text]

theorem first_text_ne_nil (c : Char) (cs : List Char) : (first c cs).1.text ≠ [] := by
  unfold first
  repeat' (first | split | dsimp only)
  all_goals simp [text]

theorem first_length (c : Char) (cs : List Char) :
    (first c cs).2.length < (c :: cs).length := by
  have h := congrArg List.length (first_append c cs)
  have hp := List.length_pos_iff.2 (first_text_ne_nil c cs)
  simp only [List.length_append] at h
  omega

/-- All pieces of a text, in order. -/
def cut : List Char → List Piece
  | [] => []
  | c :: cs => (first c cs).1 :: cut (first c cs).2
termination_by cs => cs.length
decreasing_by exact first_length c cs

/-- Cutting loses nothing. -/
theorem flatten_cut (cs : List Char) : ((cut cs).map text).flatten = cs := by
  fun_induction cut cs with
  | case1 => rfl
  | case2 c cs ih => simp [ih, first_append]

end Piece

end Lox
