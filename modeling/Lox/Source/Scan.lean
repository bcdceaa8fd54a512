import Lox.Source.Piece
import Lox.Diagnostic

/-!
# Tokens of a source text

Each lexeme piece gives one token and each bad piece one diagnostic, in their
order in the text. The stream ends with one token for the end of the input.
-/

set_option autoImplicit false

namespace Lox

abbrev Scanned := Except Diagnostic Token

namespace Piece

def newlines (cs : List Char) : Nat := cs.count '\n'

/-- What a piece puts into the stream, given the line on which it ends. -/
def scanned? (line : Nat) : Piece → Option Scanned
  | blank _ => none
  | comment _ => none
  | lexeme kind cs => some (.ok ⟨kind, String.ofList cs, line⟩)
  | stray c => some (.error (.lexical line (.unexpectedCharacter c)))
  | unterminated _ => some (.error (.lexical line .unterminatedString))

/-- The stream of the pieces from `line` on. -/
def stream (line : Nat) : List Piece → List Scanned
  | [] => [.ok ⟨.finish, "", line⟩]
  | p :: ps =>
    let last := line + newlines p.text
    match p.scanned? last with
    | some s => s :: stream last ps
    | none => stream last ps

end Piece

/-- The stream of a source text; lines count from one. -/
def scan (source : String) : List Scanned := Piece.stream 1 (Piece.cut source.toList)

namespace Scanned

def tokens (ss : List Scanned) : List Token := ss.filterMap Except.toOption

def faults (ss : List Scanned) : List Diagnostic :=
  ss.filterMap fun | .ok _ => none | .error d => some d

end Scanned

end Lox
