/-!
# JSON documents

A document keeps its fields in order and its numbers as text, so that it is
written as it was built. It has a compact and an indented rendering.
-/

set_option autoImplicit false

namespace Lox

inductive Document where
  | null
  | number (text : String)
  | string (contents : String)
  | array (items : List Document)
  | object (fields : List (String × Document))

namespace Document

def hexDigit (n : Nat) : Char := if n < 10 then Char.ofNat (48 + n) else Char.ofNat (87 + n)

/-- Quotes, backslashes and control characters are escaped, the common ones of
the latter by a letter. -/
def escaped (c : Char) : String :=
  match c with
  | '"' => "\\\""
  | '\\' => "\\\\"
  | '\n' => "\\n"
  | '\r' => "\\r"
  | '\t' => "\\t"
  | '\x08' => "\\b"
  | '\x0c' => "\\f"
  | c =>
    if c.toNat < 32 then
      "\\u00" ++ String.ofList [hexDigit (c.toNat / 16), hexDigit (c.toNat % 16)]
    else c.toString

def quoted (s : String) : String := "\"" ++ String.join (s.toList.map escaped) ++ "\""

mutual

def compact : Document → String
  | null => "null"
  | number t => t
  | string s => quoted s
  | array [] => "[]"
  | array (d :: ds) => "[" ++ compact d ++ compactItems ds ++ "]"
  | object [] => "\x7b\x7d"
  | object ((k, d) :: fs) => "\x7b" ++ quoted k ++ ":" ++ compact d ++ compactFields fs ++ "\x7d"

def compactItems : List Document → String
  | [] => ""
  | d :: ds => "," ++ compact d ++ compactItems ds

def compactFields : List (String × Document) → String
  | [] => ""
  | (k, d) :: fs => "," ++ quoted k ++ ":" ++ compact d ++ compactFields fs

end

/-- A new line, indented by two spaces a level. -/
def newline (level : Nat) : String := "\n" ++ String.ofList (List.replicate (2 * level) ' ')

mutual

def indented (level : Nat) : Document → String
  | null => "null"
  | number t => t
  | string s => quoted s
  | array [] => "[]"
  | array (d :: ds) =>
    "[" ++ newline (level + 1) ++ indented (level + 1) d ++ indentedItems (level + 1) ds ++
      newline level ++ "]"
  | object [] => "\x7b\x7d"
  | object ((k, d) :: fs) =>
    "\x7b" ++ newline (level + 1) ++ quoted k ++ ": " ++ indented (level + 1) d ++
      indentedFields (level + 1) fs ++ newline level ++ "\x7d"

def indentedItems (level : Nat) : List Document → String
  | [] => ""
  | d :: ds => "," ++ newline level ++ indented level d ++ indentedItems level ds

def indentedFields (level : Nat) : List (String × Document) → String
  | [] => ""
  | (k, d) :: fs =>
    "," ++ newline level ++ quoted k ++ ": " ++ indented level d ++ indentedFields level fs

end

def pretty (d : Document) : String := indented 0 d

end Document

end Lox
