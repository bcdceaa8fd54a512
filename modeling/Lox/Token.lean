import Lox.Number.Text

/-!
# Tokens

A token is a kind, the text it was written with and the line on which that
text ends. Kinds fall into marks, reserved words, names, the two kinds of
literal, which carry their value, and the end of the input.
-/

set_option autoImplicit false

namespace Lox

inductive Mark where
  | leftParen | rightParen | leftBrace | rightBrace
  | comma | dot | minus | plus | semicolon | slash | star
  | bang | bangEqual | equal | equalEqual
  | greater | greaterEqual | less | lessEqual
deriving DecidableEq, Repr

inductive Word where
  | and | «class» | «else» | «false» | «fun» | «for» | «if» | nil | or
  | print | «return» | super | this | «true» | var | «while»
deriving DecidableEq, Repr

inductive Kind where
  | mark (m : Mark)
  | word (w : Word)
  | identifier
  | string (contents : String)
  | number (value : Float)
  | finish
deriving DecidableEq, Repr

structure Token where
  kind : Kind
  lexeme : String
  line : Nat
deriving DecidableEq, Repr

namespace Mark

def name : Mark → String
  | leftParen => "LEFT_PAREN"
  | rightParen => "RIGHT_PAREN"
  | leftBrace => "LEFT_BRACE"
  | rightBrace => "RIGHT_BRACE"
  | comma => "COMMA"
  | dot => "DOT"
  | minus => "MINUS"
  | plus => "PLUS"
  | semicolon => "SEMICOLON"
  | slash => "SLASH"
  | star => "STAR"
  | bang => "BANG"
  | bangEqual => "BANG_EQUAL"
  | equal => "EQUAL"
  | equalEqual => "EQUAL_EQUAL"
  | greater => "GREATER"
  | greaterEqual => "GREATER_EQUAL"
  | less => "LESS"
  | lessEqual => "LESS_EQUAL"

def spelling : Mark → String
  | leftParen => "("
  | rightParen => ")"
  | leftBrace => "\x7b"
  | rightBrace => "\x7d"
  | comma => ","
  | dot => "."
  | minus => "-"
  | plus => "+"
  | semicolon => ";"
  | slash => "/"
  | star => "*"
  | bang => "!"
  | bangEqual => "!="
  | equal => "="
  | equalEqual => "=="
  | greater => ">"
  | greaterEqual => ">="
  | less => "<"
  | lessEqual => "<="

def all : List Mark :=
  [leftParen, rightParen, leftBrace, rightBrace, comma, dot, minus, plus, semicolon, slash, star,
    bang, bangEqual, equal, equalEqual, greater, greaterEqual, less, lessEqual]

theorem mem_all (m : Mark) : m ∈ all := by cases m <;> simp [all]

end Mark

namespace Word

def name : Word → String
  | and => "AND"
  | «class» => "CLASS"
  | «else» => "ELSE"
  | «false» => "FALSE"
  | «fun» => "FUN"
  | «for» => "FOR"
  | «if» => "IF"
  | nil => "NIL"
  | or => "OR"
  | print => "PRINT"
  | «return» => "RETURN"
  | super => "SUPER"
  | this => "THIS"
  | «true» => "TRUE"
  | var => "VAR"
  | «while» => "WHILE"

def spelling : Word → String
  | and => "and"
  | «class» => "class"
  | «else» => "else"
  | «false» => "false"
  | «fun» => "fun"
  | «for» => "for"
  | «if» => "if"
  | nil => "nil"
  | or => "or"
  | print => "print"
  | «return» => "return"
  | super => "super"
  | this => "this"
  | «true» => "true"
  | var => "var"
  | «while» => "while"

def all : List Word :=
  [and, «class», «else», «false», «fun», «for», «if», nil, or, print, «return», super, this,
    «true», var, «while»]

theorem mem_all (w : Word) : w ∈ all := by cases w <;> simp [all]

/-- The reserved word with this spelling. -/
def ofSpelling? (s : String) : Option Word := all.find? (·.spelling == s)

theorem ofSpelling?_spelling (w : Word) : ofSpelling? w.spelling = some w := by
  cases w <;> decide

end Word

namespace Kind

def name : Kind → String
  | mark m => m.name
  | word w => w.name
  | identifier => "IDENTIFIER"
  | string _ => "STRING"
  | number _ => "NUMBER"
  | finish => "EOF"

/-- The value a kind carries: the contents of a string without its quotes, the
text of a number, and `null` for all others. -/
def literal : Kind → String
  | string s => s
  | number x => Number.literalText x
  | _ => "null"

end Kind

namespace Token

def text (t : Token) : String := t.kind.name ++ " " ++ t.lexeme ++ " " ++ t.kind.literal

/-- The name token for a binding that no source text wrote. -/
def ofName (name : String) (line : Nat) : Token := ⟨.identifier, name, line⟩

end Token

end Lox
