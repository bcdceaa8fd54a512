import Mathlib
import Lox.Proofs.Grammar.Derivation

/-!
# The rules of the grammar

The grammar as it is written down: each nonterminal has one rule, an expression in
sequences, alternatives and repetitions. It is relaxed in two ways. Anything that binds
tighter than an assignment may stand left of its mark, and no list has a limit. Tokens are
viable if they can be extended to something that the grammar derives.
-/

set_option autoImplicit false

namespace Lox.Grammar

/-- The operators of a level. -/
def Chain.operators : Chain → List Kind
  | or => [.word .or]
  | and => [.word .and]
  | equality => [.mark .bangEqual, .mark .equalEqual]
  | comparison => [.mark .greater, .mark .greaterEqual, .mark .less, .mark .lessEqual]
  | term => [.mark .minus, .mark .plus]
  | factor => [.mark .slash, .mark .star]

theorem Chain.operator_iff {c : Chain} {k : Kind} : c.operator k = true ↔ k ∈ c.operators := by
  cases c <;> simp [operator, operators, isEqualityOperator, isComparisonOperator, isTermOperator,
    isFactorOperator, or_assoc]

/-- A class of tokens. Numbers and strings of all values are alike. -/
inductive Terminal where
  | kind (k : Kind)
  | number
  | string
deriving DecidableEq, Repr

def Terminal.fits : Terminal → Kind → Bool
  | kind k, k' => k' == k
  | number, k' => match k' with
    | .number _ => true
    | _ => false
  | string, k' => match k' with
    | .string _ => true
    | _ => false

inductive Nonterminal where
  | program | input
  | declaration | classDecl | funDecl | function | varDecl
  | statement | exprStmt | forStmt | ifStmt | printStmt | returnStmt | whileStmt | block
  | parameters | arguments
  | level (l : Level)
deriving DecidableEq, Repr

inductive Ebnf where
  | empty
  | terminal (x : Terminal)
  | nonterminal (r : Nonterminal)
  | seq (a b : Ebnf)
  | alt (a b : Ebnf)
  | star (a : Ebnf)

namespace Ebnf

def kind (k : Kind) : Ebnf := terminal (.kind k)

def mark (m : Mark) : Ebnf := kind (.mark m)

def word (w : Word) : Ebnf := kind (.word w)

def name : Ebnf := kind .identifier

def expression : Ebnf := nonterminal (.level .assignment)

/-- One behind the other. -/
def all : List Ebnf → Ebnf
  | [] => empty
  | e :: es => seq e (all es)

/-- One of them; there must be one. -/
def oneOf : List Ebnf → Ebnf
  | [] => empty
  | [e] => e
  | e :: es => alt e (oneOf es)

def optional (e : Ebnf) : Ebnf := alt e empty

/-- One or more, with commas between them. -/
def listOf (e : Ebnf) : Ebnf := all [e, star (all [mark .comma, e])]

/-- The right side of the one rule of each nonterminal. -/
def rule : Nonterminal → Ebnf
  | .program => all [star (nonterminal .declaration), kind .finish]
  | .input => all [expression, kind .finish]
  | .declaration => oneOf [nonterminal .classDecl, nonterminal .funDecl, nonterminal .varDecl,
      nonterminal .statement]
  | .classDecl => all [word .class, name, optional (all [mark .less, name]), mark .leftBrace,
      star (nonterminal .function), mark .rightBrace]
  | .funDecl => all [word .fun, nonterminal .function]
  | .function => all [name, mark .leftParen, optional (nonterminal .parameters), mark .rightParen,
      nonterminal .block]
  | .varDecl => all [word .var, name, optional (all [mark .equal, expression]), mark .semicolon]
  | .statement => oneOf [nonterminal .forStmt, nonterminal .ifStmt, nonterminal .printStmt,
      nonterminal .returnStmt, nonterminal .whileStmt, nonterminal .block, nonterminal .exprStmt]
  | .exprStmt => all [expression, mark .semicolon]
  | .forStmt => all [word .for, mark .leftParen,
      oneOf [mark .semicolon, nonterminal .varDecl, nonterminal .exprStmt],
      optional expression, mark .semicolon, optional expression, mark .rightParen,
      nonterminal .statement]
  | .ifStmt => all [word .if, mark .leftParen, expression, mark .rightParen, nonterminal .statement,
      optional (all [word .else, nonterminal .statement])]
  | .printStmt => all [word .print, expression, mark .semicolon]
  | .returnStmt => all [word .return, optional expression, mark .semicolon]
  | .whileStmt => all [word .while, mark .leftParen, expression, mark .rightParen,
      nonterminal .statement]
  | .block => all [mark .leftBrace, star (nonterminal .declaration), mark .rightBrace]
  | .parameters => listOf name
  | .arguments => listOf expression
  | .level .assignment =>
      oneOf [all [nonterminal (.level (.chain .or)), mark .equal, nonterminal (.level .assignment)],
        nonterminal (.level (.chain .or))]
  | .level (.chain c) => all [nonterminal (.level c.operand),
      star (all [oneOf (c.operators.map kind), nonterminal (.level c.operand)])]
  | .level .unary => oneOf [all [oneOf [mark .bang, mark .minus], nonterminal (.level .unary)],
      nonterminal (.level .call)]
  | .level .call => all [nonterminal (.level .primary),
      star (oneOf [all [mark .leftParen, optional (nonterminal .arguments), mark .rightParen],
        all [mark .dot, name]])]
  | .level .primary => oneOf [terminal .number, terminal .string, word .true, word .false, word .nil,
      word .this, name, all [mark .leftParen, expression, mark .rightParen],
      all [word .super, mark .dot, name]]

end Ebnf

/-- The tokens derive from the expression. -/
inductive Matches : Ebnf → List Token → Prop
  | empty : Matches .empty []
  | terminal {x : Terminal} {t : Token} (h : x.fits t.kind = true) : Matches (.terminal x) [t]
  | nonterminal {r : Nonterminal} {ts : List Token} (h : Matches (Ebnf.rule r) ts) :
      Matches (.nonterminal r) ts
  | seq {a b : Ebnf} {ts us : List Token} (ha : Matches a ts) (hb : Matches b us) :
      Matches (.seq a b) (ts ++ us)
  | left {a b : Ebnf} {ts : List Token} (h : Matches a ts) : Matches (.alt a b) ts
  | right {a b : Ebnf} {ts : List Token} (h : Matches b ts) : Matches (.alt a b) ts
  | done {a : Ebnf} : Matches (.star a) []
  | more {a : Ebnf} {ts us : List Token} (ha : Matches a ts) (hs : Matches (.star a) us) :
      Matches (.star a) (ts ++ us)

/-- The tokens can be extended to something that derives from the expression. -/
def Viable (e : Ebnf) (ts : List Token) : Prop := ∃ us, Matches e (ts ++ us)

variable {a b e : Ebnf} {ts us : List Token}

theorem Matches.kind {k : Kind} {t : Token} (h : t.kind = k) : Matches (.kind k) [t] :=
  .terminal (beq_iff_eq.2 h)

theorem Matches.kind_inv {k : Kind} (h : Matches (.kind k) ts) : ∃ t, ts = [t] ∧ t.kind = k := by
  cases h with
  | terminal h => exact ⟨_, rfl, beq_iff_eq.1 h⟩

theorem Matches.oneOf {es : List Ebnf} (he : e ∈ es) (h : Matches e ts) :
    Matches (.oneOf es) ts := by
  induction es with
  | nil => cases he
  | cons e' es ih =>
    cases es with
    | nil =>
      obtain rfl := List.mem_singleton.1 he
      exact h
    | cons e'' es =>
      rcases List.mem_cons.1 he with rfl | he
      · exact .left h
      · exact .right (ih he)

theorem matches_seq {ts : List Token} :
    Matches (.seq a b) ts ↔ ∃ us vs, ts = us ++ vs ∧ Matches a us ∧ Matches b vs := by
  constructor
  · intro h
    cases h with
    | seq ha hb => exact ⟨_, _, rfl, ha, hb⟩
  · rintro ⟨us, vs, rfl, ha, hb⟩
    exact .seq ha hb

theorem Matches.behind {k : Kind} {t : Token} (ht : t.kind = k) (h : Matches a ts) :
    Matches (.seq (.kind k) a) (t :: ts) := .seq (.kind ht) h

/-- Nothing behind it makes no difference. -/
theorem matches_seq_empty : Matches (.seq e .empty) ts ↔ Matches e ts := by
  constructor
  · intro h
    cases h with
    | seq h he =>
      cases he
      rwa [List.append_nil]
  · intro h
    have hs := Matches.seq h .empty
    rwa [List.append_nil] at hs

theorem matches_empty_seq : Matches (.seq .empty e) ts ↔ Matches e ts := by
  constructor
  · intro h
    cases h with
    | seq he h =>
      cases he
      exact h
  · exact fun h => .seq .empty h

theorem Matches.seq_mono (h : Matches (.seq e a) ts) (hab : ∀ us, Matches a us → Matches b us) :
    Matches (.seq e b) ts := by
  cases h with
  | seq he ha => exact .seq he (hab _ ha)

/-- A list is an item, and behind a comma there may be another list. -/
theorem Matches.listOf (h : Matches (.seq e (.optional (.seq (.mark .comma) (.listOf e)))) ts) :
    Matches (.listOf e) ts := by
  apply h.seq_mono
  intro us hus
  cases hus with
  | left hmore =>
    obtain ⟨vs, ws, rfl, hc, hlist⟩ := matches_seq.1 hmore
    obtain ⟨xs, ys, rfl, he, hrest⟩ := matches_seq.1 hlist
    have hrest := matches_seq_empty.1 hrest
    rw [← List.append_assoc]
    apply matches_seq_empty.2
    exact .more (.seq hc (matches_seq_empty.2 he)) hrest
  | right hnil =>
    cases hnil
    exact .seq .done .empty

section Productive

namespace Ebnf

/-- Something derives from the expression if something does from these nonterminals. -/
def within (known : List Nonterminal) : Ebnf → Bool
  | empty | terminal _ | star _ => true
  | nonterminal r => r ∈ known
  | seq a b => a.within known && b.within known
  | alt a b => a.within known || b.within known

/-- Something derives from each of the nonterminals because it does from those behind it. -/
def ordered : List Nonterminal → Bool
  | [] => true
  | r :: rs => (rule r).within rs && ordered rs

def order : List Nonterminal :=
  [.program, .input, .classDecl, .funDecl, .function, .forStmt, .ifStmt, .whileStmt, .declaration,
    .statement, .block, .varDecl, .exprStmt, .printStmt, .returnStmt, .parameters, .arguments,
    .level .assignment, .level (.chain .or), .level (.chain .and), .level (.chain .equality),
    .level (.chain .comparison), .level (.chain .term), .level (.chain .factor), .level .unary,
    .level .call, .level .primary]

theorem mem_order (r : Nonterminal) : r ∈ order := by
  cases r with
  | level l =>
    cases l with
    | chain c => cases c <;> decide
    | _ => decide
  | _ => decide

end Ebnf

theorem productive_terminal (x : Terminal) : ∃ ts, Matches (.terminal x) ts := by
  cases x with
  | kind k => exact ⟨_, .kind (t := ⟨k, "", 1⟩) rfl⟩
  | number => exact ⟨_, .terminal (t := ⟨.number 0, "", 1⟩) rfl⟩
  | string => exact ⟨_, .terminal (t := ⟨.string "", "", 1⟩) rfl⟩

theorem productive_within {known : List Nonterminal}
    (hknown : ∀ r ∈ known, ∃ ts, Matches (.nonterminal r) ts) (he : e.within known = true) :
    ∃ ts, Matches e ts := by
  induction e with
  | empty => exact ⟨_, .empty⟩
  | terminal x => exact productive_terminal x
  | nonterminal r => exact hknown r (of_decide_eq_true he)
  | seq a b iha ihb =>
    obtain ⟨ha, hb⟩ := Bool.and_eq_true_iff.1 he
    obtain ⟨ts, ha⟩ := iha ha
    obtain ⟨us, hb⟩ := ihb hb
    exact ⟨_, .seq ha hb⟩
  | alt a b iha ihb =>
    rcases Bool.or_eq_true_iff.1 he with ha | hb
    · obtain ⟨ts, ha⟩ := iha ha
      exact ⟨ts, .left ha⟩
    · obtain ⟨ts, hb⟩ := ihb hb
      exact ⟨ts, .right hb⟩
  | star => exact ⟨_, .done⟩

theorem productive_of_ordered {rs : List Nonterminal} (h : Ebnf.ordered rs = true) :
    ∀ r ∈ rs, ∃ ts, Matches (.nonterminal r) ts := by
  induction rs with
  | nil => exact nofun
  | cons r rs ih =>
    obtain ⟨hr, hrs⟩ := Bool.and_eq_true_iff.1 h
    intro r' hr'
    rcases List.mem_cons.1 hr' with rfl | hr'
    · obtain ⟨ts, hts⟩ := productive_within (ih hrs) hr
      exact ⟨ts, .nonterminal hts⟩
    · exact ih hrs r' hr'

/-- Something derives from every expression. -/
theorem productive (e : Ebnf) : ∃ ts, Matches e ts := by
  have hwithin : e.within Ebnf.order = true := by
    induction e with
    | nonterminal r => exact decide_eq_true (Ebnf.mem_order r)
    | seq a b iha ihb => exact Bool.and_eq_true_iff.2 ⟨iha, ihb⟩
    | alt a b iha _ => exact Bool.or_eq_true_iff.2 (.inl iha)
    | _ => rfl
  exact productive_within (productive_of_ordered (by decide)) hwithin

end Productive

section Viable

theorem Viable.mono (h : Viable a ts) (hab : ∀ us, Matches a us → Matches b us) : Viable b ts := by
  obtain ⟨us, h⟩ := h
  exact ⟨us, hab _ h⟩

theorem viable_nil (e : Ebnf) : Viable e [] := productive e

/-- What is viable stays so with something to follow. -/
theorem Viable.seq (h : Viable a ts) (b : Ebnf) : Viable (.seq a b) ts := by
  obtain ⟨us, ha⟩ := h
  obtain ⟨vs, hb⟩ := productive b
  refine ⟨us ++ vs, ?_⟩
  rw [← List.append_assoc]
  exact .seq ha hb

theorem Matches.seq_viable (ha : Matches a ts) (hb : Viable b us) : Viable (.seq a b) (ts ++ us) := by
  obtain ⟨vs, hb⟩ := hb
  refine ⟨vs, ?_⟩
  rw [List.append_assoc]
  exact .seq ha hb

end Viable

section Unfinished

/-- The end of the input does not occur in the expression. -/
def Ebnf.unfinished : Ebnf → Bool
  | empty => true
  | terminal x => x != .kind .finish
  | nonterminal r => r != .program && r != .input
  | seq a b | alt a b => a.unfinished && b.unfinished
  | star a => a.unfinished

theorem unfinished_rule {r : Nonterminal} (h : (Ebnf.nonterminal r).unfinished = true) :
    (Ebnf.rule r).unfinished = true := by
  cases r with
  | level l =>
    cases l with
    | chain c => cases c <;> decide
    | _ => decide
  | program | input => cases h
  | _ => decide

theorem Matches.ne_finish (h : Matches e ts) (he : e.unfinished = true) :
    ∀ t ∈ ts, t.kind ≠ .finish := by
  induction h with
  | empty | done => exact nofun
  | @terminal x t h =>
    intro t' ht' hk
    obtain rfl := List.mem_singleton.1 ht'
    rw [hk] at h
    cases x with
    | kind k =>
      obtain rfl : Kind.finish = k := beq_iff_eq.1 h
      cases he
    | number | string => cases h
  | nonterminal _ ih => exact ih (unfinished_rule he)
  | seq _ _ iha ihb =>
    obtain ⟨ha, hb⟩ := Bool.and_eq_true_iff.1 he
    exact List.forall_mem_append.2 ⟨iha ha, ihb hb⟩
  | left _ ih => exact ih (Bool.and_eq_true_iff.1 he).1
  | right _ ih => exact ih (Bool.and_eq_true_iff.1 he).2
  | more _ _ iha ihs => exact List.forall_mem_append.2 ⟨iha he, ihs he⟩

end Unfinished

end Lox.Grammar
