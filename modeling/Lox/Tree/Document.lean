import Lox.Document
import Lox.Tree

/-!
# Tokens and trees as JSON documents
-/

set_option autoImplicit false

namespace Lox

private def natural (n : Nat) : Document := .number (Nat.repr n)

private def tagged (tag : String) (d : Document) : Document := .object [(tag, d)]

private def optional : Option Document → Document
  | none => .null
  | some d => d

def Kind.document : Kind → Document
  | string s => tagged "STRING" (.string s)
  | number x => tagged "NUMBER" (.number (Number.jsonText x))
  | k => .string k.name

def Token.document (t : Token) : Document :=
  .object [("token_type", t.kind.document), ("lexeme", .string t.lexeme), ("line", natural t.line)]

def Literal.document : Literal → Document
  | nil => .string "Nil"
  | bool b => .string (if b then "True" else "False")
  | number x => tagged "Number" (.number (Number.jsonText x))
  | string s => tagged "Str" (.string s)

namespace Reference

/-- The fields of a reference, its token under the key given. -/
def fields (r : Reference) (key : String) : List (String × Document) :=
  [("id", natural r.id), (key, r.name.document)]

def document (r : Reference) : Document := tagged "Variable" (.object (r.fields "name"))

end Reference

namespace Expr

mutual

def document : Expr → Document
  | literal v => tagged "Literal" v.document
  | grouping e => tagged "Grouping" (document e)
  | unary op e =>
    tagged "Unary" (.object [("operator", op.document), ("right", document e)])
  | binary l op r =>
    tagged "Binary"
      (.object [("left", document l), ("operator", op.document), ("right", document r)])
  | logical l op r =>
    tagged "Logical"
      (.object [("left", document l), ("operator", op.document), ("right", document r)])
  | var ref => ref.document
  | assign ref e => tagged "Assign" (.object (ref.fields "name" ++ [("value", document e)]))
  | call callee paren args =>
    tagged "Call"
      (.object [("callee", document callee), ("paren", paren.document),
        ("arguments", .array (documents args))])
  | get e name => tagged "Get" (.object [("object", document e), ("name", name.document)])
  | set e name v =>
    tagged "Set"
      (.object [("object", document e), ("name", name.document), ("value", document v)])
  | this ref => tagged "This" (.object (ref.fields "keyword"))
  | super ref method =>
    tagged "Super" (.object (ref.fields "keyword" ++ [("method", method.document)]))

def documents : List Expr → List Document
  | [] => []
  | e :: es => document e :: documents es

end

end Expr

mutual

def Stmt.document : Stmt → Document
  | .expression e => tagged "Expression" e.document
  | .print e => tagged "Print" e.document
  | .var name initializer =>
    tagged "Var"
      (.object [("name", name.document), ("initializer", optional (initializer.map Expr.document))])
  | .block body => tagged "Block" (.array (Stmt.documents body))
  | .if condition yes no =>
    tagged "If"
      (.object [("condition", condition.document), ("then_branch", yes.document),
        ("else_branch", Stmt.optionalDocument no)])
  | .while condition body =>
    tagged "While" (.object [("condition", condition.document), ("body", body.document)])
  | .function f => tagged "Function" f.document
  | .return keyword value =>
    tagged "Return"
      (.object [("keyword", keyword.document), ("value", optional (value.map Expr.document))])
  | .class name superclass methods =>
    tagged "Class"
      (.object [("name", name.document),
        ("superclass", optional (superclass.map Reference.document)),
        ("methods", .array (Function.documents methods))])

def Stmt.documents : List Stmt → List Document
  | [] => []
  | s :: ss => s.document :: Stmt.documents ss

def Stmt.optionalDocument : Option Stmt → Document
  | none => .null
  | some s => s.document

def Function.document : Function → Document
  | .mk name params body =>
    .object [("name", name.document), ("params", .array (params.map Token.document)),
      ("body", .array (Stmt.documents body))]

def Function.documents : List Function → List Document
  | [] => []
  | f :: fs => f.document :: Function.documents fs

end

end Lox
