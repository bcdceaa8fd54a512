import Lox.Grammar.Statement

/-!
# The grammar of programs

The grammar is a relation between a phrase, which is a nonterminal together with the
tree it stands for, and the tokens that derive it. It also says which identities the
references of the tree take, counted from the first to the next free one, and which
violations are reported on the way: an argument or a parameter beyond the limit, and
an assignment to something else than a name or a property. A derivation without
violations is one of the grammar proper.

Nothing here mentions the reader of tokens. A statement is dangling if an `else` behind
it could belong to an `if` in it. Whether such a statement may stand before an `else` is
a parameter: with all allowed the grammar is ambiguous, without the dangling ones each
`else` belongs to the nearest `if`.
-/

set_option autoImplicit false

namespace Lox.Grammar

/-- The levels of operators that group to the left, loosest first. -/
inductive Chain where
  | or
  | and
  | equality
  | comparison
  | term
  | factor
deriving DecidableEq, Repr

/-- The levels of precedence. -/
inductive Level where
  | assignment
  | chain (c : Chain)
  | unary
  | call
  | primary
deriving DecidableEq, Repr

namespace Chain

def operator : Chain → Kind → Bool
  | or => (· == .word .or)
  | and => (· == .word .and)
  | equality => isEqualityOperator
  | comparison => isComparisonOperator
  | term => isTermOperator
  | factor => isFactorOperator

def join : Chain → Expr → Token → Expr → Expr
  | or | and => .logical
  | equality | comparison | term | factor => .binary

/-- The level of the operands. -/
def operand : Chain → Level
  | or => .chain and
  | and => .chain equality
  | equality => .chain comparison
  | comparison => .chain term
  | term => .chain factor
  | factor => .unary

end Chain

def isUnaryOperator (k : Kind) : Bool := k == .mark .bang || k == .mark .minus

/-- The literal a token of this kind stands for. -/
def literal? : Kind → Option Literal
  | .word .false => some (.bool false)
  | .word .true => some (.bool true)
  | .word .nil => some .nil
  | .number x => some (.number x)
  | .string s => some (.string s)
  | _ => none

end Lox.Grammar

namespace Lox

/-- What an assignment can change: a variable or a property. -/
def Expr.assignable : Expr → Bool
  | .var _ => true
  | .get _ _ => true
  | _ => false

end Lox

namespace Lox.Grammar

/-- A nonterminal with its tree. Some stand for a part of a rule: the operands and
the suffixes that turn an expression into another, arguments and parameters behind
`count` others, and what a rule has in square brackets. -/
inductive Phrase where
  | expr (l : Level) (e : Expr)
  | operands (c : Chain) (first e : Expr)
  | suffixes (first e : Expr)
  | arguments (count : Nat) (es : List Expr)
  | optional (e : Option Expr)
  | varDeclaration (s : Stmt)
  | initializer (s : Option Stmt)
  | statement (dangling : Bool) (s : Stmt)
  | declaration (s : Stmt)
  | declarations (ss : List Stmt)
  | superclass (r : Option Reference)
  | parameters (count : Nat) (ps : List Token)
  | someParameters (ps : List Token)
  | function (f : Function)
  | functions (fs : List Function)

/-- The violation that an item of a list behind `count` others is, if it is one. -/
def beyond (cause : ParseCause) (count : Nat) (ts : List Token) : List Diagnostic :=
  if maxArity ≤ count then ts.head?.toList.map (fault cause) else []

/-- Every statement may stand before an `else`. -/
def Anything (_ : Bool) : Prop := True

/-- Only a statement that is not dangling may stand before an `else`. -/
def Complete (dangling : Bool) : Prop := dangling = false

/-- `Derives before p ts n k ds`: the tokens `ts` derive the phrase `p`, its references
take the identities from `n` up to `k`, and `ds` are the violations in it. -/
inductive Derives (before : Bool → Prop) :
    Phrase → List Token → Nat → Nat → List Diagnostic → Prop
  | literal {t : Token} {v : Literal} {n : Nat} (ht : literal? t.kind = some v) :
      Derives before (.expr .primary (.literal v)) [t] n n []
  | this {t : Token} {n : Nat} (ht : t.kind = .word .this) :
      Derives before (.expr .primary (.this ⟨n, t⟩)) [t] n (n + 1) []
  | var {t : Token} {n : Nat} (ht : t.kind = .identifier) :
      Derives before (.expr .primary (.var ⟨n, t⟩)) [t] n (n + 1) []
  | super {t dot x : Token} {n : Nat} (ht : t.kind = .word .super)
      (hd : dot.kind = .mark .dot) (hx : x.kind = .identifier) :
      Derives before (.expr .primary (.super ⟨n, t⟩ x)) [t, dot, x] n (n + 1) []
  | grouping {o c : Token} {e : Expr} {ts : List Token} {n k : Nat} {ds : List Diagnostic}
      (ho : o.kind = .mark .leftParen) (he : Derives before (.expr .assignment e) ts n k ds)
      (hc : c.kind = .mark .rightParen) :
      Derives before (.expr .primary (.grouping e)) (o :: ts ++ [c]) n k ds
  | call {p e : Expr} {ts us : List Token} {n m k : Nat} {ds es : List Diagnostic}
      (hp : Derives before (.expr .primary p) ts n m ds)
      (hs : Derives before (.suffixes p e) us m k es) :
      Derives before (.expr .call e) (ts ++ us) n k (ds ++ es)
  | noSuffix {e : Expr} {n : Nat} : Derives before (.suffixes e e) [] n n []
  | emptyCall {f e : Expr} {o c : Token} {us : List Token} {n k : Nat} {es : List Diagnostic}
      (ho : o.kind = .mark .leftParen) (hc : c.kind = .mark .rightParen)
      (hs : Derives before (.suffixes (.call f c []) e) us n k es) :
      Derives before (.suffixes f e) (o :: c :: us) n k es
  | argumentCall {f e : Expr} {args : List Expr} {o c : Token} {ts us : List Token}
      {n m k : Nat} {ds es : List Diagnostic} (ho : o.kind = .mark .leftParen)
      (ha : Derives before (.arguments 0 args) ts n m ds) (hc : c.kind = .mark .rightParen)
      (hs : Derives before (.suffixes (.call f c args) e) us m k es) :
      Derives before (.suffixes f e) (o :: ts ++ c :: us) n k (ds ++ es)
  | property {o e : Expr} {dot x : Token} {us : List Token} {n k : Nat} {es : List Diagnostic}
      (hd : dot.kind = .mark .dot) (hx : x.kind = .identifier)
      (hs : Derives before (.suffixes (.get o x) e) us n k es) :
      Derives before (.suffixes o e) (dot :: x :: us) n k es
  | argument {count : Nat} {e : Expr} {ts : List Token} {n k : Nat} {ds : List Diagnostic}
      (he : Derives before (.expr .assignment e) ts n k ds) :
      Derives before (.arguments count [e]) ts n k (beyond .tooManyArguments count ts ++ ds)
  | moreArguments {count : Nat} {e : Expr} {args : List Expr} {c : Token} {ts us : List Token}
      {n m k : Nat} {ds es : List Diagnostic}
      (he : Derives before (.expr .assignment e) ts n m ds) (hc : c.kind = .mark .comma)
      (ha : Derives before (.arguments (count + 1) args) us m k es) :
      Derives before (.arguments count (e :: args)) (ts ++ c :: us) n k
        (beyond .tooManyArguments count ts ++ ds ++ es)
  | operator {op : Token} {e : Expr} {ts : List Token} {n k : Nat} {ds : List Diagnostic}
      (ho : isUnaryOperator op.kind) (he : Derives before (.expr .unary e) ts n k ds) :
      Derives before (.expr .unary (.unary op e)) (op :: ts) n k ds
  | noOperator {e : Expr} {ts : List Token} {n k : Nat} {ds : List Diagnostic}
      (he : Derives before (.expr .call e) ts n k ds) :
      Derives before (.expr .unary e) ts n k ds
  | chain {c : Chain} {l e : Expr} {ts us : List Token} {n m k : Nat} {ds es : List Diagnostic}
      (hl : Derives before (.expr c.operand l) ts n m ds)
      (ho : Derives before (.operands c l e) us m k es) :
      Derives before (.expr (.chain c) e) (ts ++ us) n k (ds ++ es)
  | noOperand {c : Chain} {e : Expr} {n : Nat} : Derives before (.operands c e e) [] n n []
  | operand {c : Chain} {l r e : Expr} {op : Token} {ts us : List Token} {n m k : Nat}
      {ds es : List Diagnostic} (ho : c.operator op.kind)
      (hr : Derives before (.expr c.operand r) ts n m ds)
      (hs : Derives before (.operands c (c.join l op r) e) us m k es) :
      Derives before (.operands c l e) (op :: ts ++ us) n k (ds ++ es)
  | noAssignment {e : Expr} {ts : List Token} {n k : Nat} {ds : List Diagnostic}
      (he : Derives before (.expr (.chain .or) e) ts n k ds) :
      Derives before (.expr .assignment e) ts n k ds
  | assignVar {x q : Token} {v : Expr} {ts : List Token} {n k : Nat} {ds : List Diagnostic}
      (hx : x.kind = .identifier) (hq : q.kind = .mark .equal)
      (hv : Derives before (.expr .assignment v) ts (n + 1) k ds) :
      Derives before (.expr .assignment (.assign ⟨k, x⟩ v)) (x :: q :: ts) n (k + 1) ds
  | assignProperty {o v : Expr} {dot x q : Token} {ts us : List Token} {n m k : Nat}
      {ds es : List Diagnostic} (ho : Derives before (.expr .call o) ts n m ds)
      (hd : dot.kind = .mark .dot) (hx : x.kind = .identifier) (hq : q.kind = .mark .equal)
      (hv : Derives before (.expr .assignment v) us m k es) :
      Derives before (.expr .assignment (.set o x v)) (ts ++ dot :: x :: q :: us) n k (ds ++ es)
  /-- No rule of the grammar proper: the target is reported and stands for the whole. -/
  | invalidTarget {e v : Expr} {q : Token} {ts us : List Token} {n m k : Nat}
      {ds es : List Diagnostic} (he : Derives before (.expr (.chain .or) e) ts n m ds)
      (ha : e.assignable = false) (hq : q.kind = .mark .equal)
      (hv : Derives before (.expr .assignment v) us m k es) :
      Derives before (.expr .assignment e) (ts ++ q :: us) n k
        (ds ++ es ++ [fault .invalidTarget q])
  | noExpression {n : Nat} : Derives before (.optional none) [] n n []
  | someExpression {e : Expr} {ts : List Token} {n k : Nat} {ds : List Diagnostic}
      (he : Derives before (.expr .assignment e) ts n k ds) :
      Derives before (.optional (some e)) ts n k ds
  | expression {e : Expr} {s : Token} {ts : List Token} {n k : Nat} {ds : List Diagnostic}
      (he : Derives before (.expr .assignment e) ts n k ds) (hs : s.kind = .mark .semicolon) :
      Derives before (.statement false (.expression e)) (ts ++ [s]) n k ds
  | print {w s : Token} {e : Expr} {ts : List Token} {n k : Nat} {ds : List Diagnostic}
      (hw : w.kind = .word .print) (he : Derives before (.expr .assignment e) ts n k ds)
      (hs : s.kind = .mark .semicolon) :
      Derives before (.statement false (.print e)) (w :: ts ++ [s]) n k ds
  | returns {w s : Token} {e : Option Expr} {ts : List Token} {n k : Nat} {ds : List Diagnostic}
      (hw : w.kind = .word .return) (he : Derives before (.optional e) ts n k ds)
      (hs : s.kind = .mark .semicolon) :
      Derives before (.statement false (.return w e)) (w :: ts ++ [s]) n k ds
  | block {o c : Token} {ss : List Stmt} {ts : List Token} {n k : Nat} {ds : List Diagnostic}
      (ho : o.kind = .mark .leftBrace) (hs : Derives before (.declarations ss) ts n k ds)
      (hc : c.kind = .mark .rightBrace) :
      Derives before (.statement false (.block ss)) (o :: ts ++ [c]) n k ds
  | ifThen {w o c : Token} {e : Expr} {yes : Stmt} {d : Bool} {ts us : List Token}
      {n m k : Nat} {ds es : List Diagnostic} (hw : w.kind = .word .if) (ho : o.kind = .mark .leftParen)
      (he : Derives before (.expr .assignment e) ts n m ds) (hc : c.kind = .mark .rightParen)
      (hy : Derives before (.statement d yes) us m k es) :
      Derives before (.statement true (.if e yes none)) (w :: o :: ts ++ c :: us) n k (ds ++ es)
  | ifElse {w o c l : Token} {e : Expr} {yes no : Stmt} {d d' : Bool}
      {ts us vs : List Token} {n m j k : Nat} {ds es fs : List Diagnostic} (hw : w.kind = .word .if)
      (ho : o.kind = .mark .leftParen) (he : Derives before (.expr .assignment e) ts n m ds)
      (hc : c.kind = .mark .rightParen) (hy : Derives before (.statement d yes) us m j es)
      (hb : before d) (hl : l.kind = .word .else)
      (hn : Derives before (.statement d' no) vs j k fs) :
      Derives before (.statement d' (.if e yes (some no)))
        (w :: o :: ts ++ c :: us ++ l :: vs) n k (ds ++ es ++ fs)
  | whileDo {w o c : Token} {e : Expr} {body : Stmt} {d : Bool} {ts us : List Token}
      {n m k : Nat} {ds es : List Diagnostic} (hw : w.kind = .word .while) (ho : o.kind = .mark .leftParen)
      (he : Derives before (.expr .assignment e) ts n m ds) (hc : c.kind = .mark .rightParen)
      (hb : Derives before (.statement d body) us m k es) :
      Derives before (.statement d (.while e body)) (w :: o :: ts ++ c :: us) n k (ds ++ es)
  | forDo {w o s c : Token} {i : Option Stmt} {condition increment : Option Expr} {body : Stmt}
      {d : Bool} {ts us vs ws : List Token} {n m j l k : Nat} {ds es fs gs : List Diagnostic}
      (hw : w.kind = .word .for) (ho : o.kind = .mark .leftParen)
      (hi : Derives before (.initializer i) ts n m ds)
      (he : Derives before (.optional condition) us m j es) (hs : s.kind = .mark .semicolon)
      (hn : Derives before (.optional increment) vs j l fs) (hc : c.kind = .mark .rightParen)
      (hb : Derives before (.statement d body) ws l k gs) :
      Derives before (.statement d (forLoop i condition increment body))
        (w :: o :: ts ++ us ++ s :: vs ++ c :: ws) n k (ds ++ es ++ fs ++ gs)
  | noInitializer {s : Token} {n : Nat} (hs : s.kind = .mark .semicolon) :
      Derives before (.initializer none) [s] n n []
  | variableInitializer {s : Stmt} {ts : List Token} {n k : Nat} {ds : List Diagnostic}
      (hs : Derives before (.varDeclaration s) ts n k ds) :
      Derives before (.initializer (some s)) ts n k ds
  | expressionInitializer {e : Expr} {s : Token} {ts : List Token} {n k : Nat}
      {ds : List Diagnostic} (he : Derives before (.expr .assignment e) ts n k ds)
      (hs : s.kind = .mark .semicolon) :
      Derives before (.initializer (some (.expression e))) (ts ++ [s]) n k ds
  | bareVariable {w x s : Token} {n : Nat} (hw : w.kind = .word .var) (hx : x.kind = .identifier)
      (hs : s.kind = .mark .semicolon) :
      Derives before (.varDeclaration (.var x none)) [w, x, s] n n []
  | initialized {w x q s : Token} {e : Expr} {ts : List Token} {n k : Nat} {ds : List Diagnostic}
      (hw : w.kind = .word .var) (hx : x.kind = .identifier) (hq : q.kind = .mark .equal)
      (he : Derives before (.expr .assignment e) ts n k ds) (hs : s.kind = .mark .semicolon) :
      Derives before (.varDeclaration (.var x (some e))) (w :: x :: q :: ts ++ [s]) n k ds
  | declaredStatement {s : Stmt} {d : Bool} {ts : List Token} {n k : Nat} {ds : List Diagnostic}
      (hs : Derives before (.statement d s) ts n k ds) :
      Derives before (.declaration s) ts n k ds
  | declaredVariable {s : Stmt} {ts : List Token} {n k : Nat} {ds : List Diagnostic}
      (hs : Derives before (.varDeclaration s) ts n k ds) :
      Derives before (.declaration s) ts n k ds
  | declaredFunction {w : Token} {f : Function} {ts : List Token} {n k : Nat}
      {ds : List Diagnostic} (hw : w.kind = .word .fun)
      (hf : Derives before (.function f) ts n k ds) :
      Derives before (.declaration (.function f)) (w :: ts) n k ds
  | declaredClass {w x o c : Token} {r : Option Reference} {fs : List Function}
      {ts us : List Token} {n m k : Nat} {ds es : List Diagnostic}
      (hw : w.kind = .word .class) (hx : x.kind = .identifier)
      (hr : Derives before (.superclass r) ts n m ds) (ho : o.kind = .mark .leftBrace)
      (hf : Derives before (.functions fs) us m k es) (hc : c.kind = .mark .rightBrace) :
      Derives before (.declaration (.class x r fs))
        (w :: x :: ts ++ o :: us ++ [c]) n k (ds ++ es)
  | noDeclaration {n : Nat} : Derives before (.declarations []) [] n n []
  | moreDeclarations {s : Stmt} {ss : List Stmt} {ts us : List Token} {n m k : Nat}
      {ds es : List Diagnostic} (hs : Derives before (.declaration s) ts n m ds)
      (hss : Derives before (.declarations ss) us m k es) :
      Derives before (.declarations (s :: ss)) (ts ++ us) n k (ds ++ es)
  | noSuperclass {n : Nat} : Derives before (.superclass none) [] n n []
  | someSuperclass {l x : Token} {n : Nat} (hl : l.kind = .mark .less)
      (hx : x.kind = .identifier) :
      Derives before (.superclass (some ⟨n, x⟩)) [l, x] n (n + 1) []
  | function {x o c b d : Token} {ps : List Token} {body : List Stmt} {ts us : List Token}
      {n m k : Nat} {ds es : List Diagnostic} (hx : x.kind = .identifier)
      (ho : o.kind = .mark .leftParen) (hp : Derives before (.someParameters ps) ts n m ds)
      (hc : c.kind = .mark .rightParen) (hb : b.kind = .mark .leftBrace)
      (hs : Derives before (.declarations body) us m k es) (hd : d.kind = .mark .rightBrace) :
      Derives before (.function (.mk x ps body))
        (x :: o :: ts ++ c :: b :: us ++ [d]) n k (ds ++ es)
  | noFunction {n : Nat} : Derives before (.functions []) [] n n []
  | moreFunctions {f : Function} {fs : List Function} {ts us : List Token} {n m k : Nat}
      {ds es : List Diagnostic} (hf : Derives before (.function f) ts n m ds)
      (hfs : Derives before (.functions fs) us m k es) :
      Derives before (.functions (f :: fs)) (ts ++ us) n k (ds ++ es)
  | noParameter {n : Nat} : Derives before (.someParameters []) [] n n []
  | someParameter {ps ts : List Token} {n k : Nat} {ds : List Diagnostic}
      (hp : Derives before (.parameters 0 ps) ts n k ds) :
      Derives before (.someParameters ps) ts n k ds
  | parameter {count : Nat} {p : Token} {n : Nat} (hp : p.kind = .identifier) :
      Derives before (.parameters count [p]) [p] n n (beyond .tooManyParameters count [p])
  | moreParameters {count : Nat} {p c : Token} {ps ts : List Token} {n k : Nat}
      {ds : List Diagnostic} (hp : p.kind = .identifier) (hc : c.kind = .mark .comma)
      (hs : Derives before (.parameters (count + 1) ps) ts n k ds) :
      Derives before (.parameters count (p :: ps)) (p :: c :: ts) n k
        (beyond .tooManyParameters count [p] ++ ds)

end Lox.Grammar
