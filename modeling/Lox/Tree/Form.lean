import Lox.Tree

/-!
# Printed forms of an expression

The listed form puts each operator before its operands in brackets and shows
the structure. The source form puts operators between their operands and can
be read again as an expression. Both use the lexemes of the tokens.
-/

set_option autoImplicit false

namespace Lox

namespace Literal

def listed : Literal → String
  | nil => "nil"
  | bool b => if b then "true" else "false"
  | number x => Number.pointText x
  | string s => s

def source : Literal → String
  | nil => "nil"
  | bool b => if b then "true" else "false"
  | number x => Number.shortText x
  | string s => "\"" ++ s ++ "\""

end Literal

namespace Expr

mutual

def listed : Expr → String
  | literal v => v.listed
  | grouping e => "(group " ++ listed e ++ ")"
  | unary op e => "(" ++ op.lexeme ++ " " ++ listed e ++ ")"
  | binary l op r => "(" ++ op.lexeme ++ " " ++ listed l ++ " " ++ listed r ++ ")"
  | logical l op r => "(" ++ op.lexeme ++ " " ++ listed l ++ " " ++ listed r ++ ")"
  | var ref => ref.name.lexeme
  | assign ref e => "(= " ++ ref.name.lexeme ++ " " ++ listed e ++ ")"
  | call callee _ args => "(call " ++ listed callee ++ listedArguments args ++ ")"
  | get e name => "(. " ++ listed e ++ " " ++ name.lexeme ++ ")"
  | set e name v => "(= (. " ++ listed e ++ " " ++ name.lexeme ++ ") " ++ listed v ++ ")"
  | this _ => "this"
  | super _ method => "(super " ++ method.lexeme ++ ")"

def listedArguments : List Expr → String
  | [] => ""
  | e :: es => " " ++ listed e ++ listedArguments es

end

mutual

/-- Assignments have no brackets of their own: nothing bracketed can be
assigned to, and no operand is an assignment. -/
def source : Expr → String
  | literal v => v.source
  | grouping e => "(" ++ source e ++ ")"
  | unary op e => "(" ++ op.lexeme ++ source e ++ ")"
  | binary l op r => "(" ++ source l ++ " " ++ op.lexeme ++ " " ++ source r ++ ")"
  | logical l op r => "(" ++ source l ++ " " ++ op.lexeme ++ " " ++ source r ++ ")"
  | var ref => ref.name.lexeme
  | assign ref e => ref.name.lexeme ++ " = " ++ source e
  | call callee _ args => source callee ++ "(" ++ sourceArguments args ++ ")"
  | get e name => source e ++ "." ++ name.lexeme
  | set e name v => source e ++ "." ++ name.lexeme ++ " = " ++ source v
  | this _ => "this"
  | super _ method => "super." ++ method.lexeme

def sourceArguments : List Expr → String
  | [] => ""
  | [e] => source e
  | e :: es => source e ++ ", " ++ sourceArguments es

end

end Expr

end Lox
