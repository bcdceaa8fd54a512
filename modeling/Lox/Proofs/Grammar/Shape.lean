import Lox.Proofs.Grammar.Derivation

/-!
# The shape of derivations

With which tokens a phrase begins, what a variable or a property access is derived from, and
that declarations stand one behind the other. These are facts about the grammar alone.
-/

set_option autoImplicit false

namespace Lox.Grammar

/-- The kinds of the tokens with which a primary expression begins. -/
def startsPrimary : Kind → Bool
  | .identifier | .number _ | .string _ => true
  | .word .false | .word .true | .word .nil | .word .this | .word .super => true
  | .mark .leftParen => true
  | _ => false

def startsExpression (k : Kind) : Bool := startsPrimary k || isUnaryOperator k

/-- The words and marks with which a statement other than an expression begins. -/
def opensStatement : Kind → Bool
  | .word .for | .word .if | .word .print | .word .return | .word .while => true
  | .mark .leftBrace => true
  | _ => false

/-- The words with which a declaration other than a statement begins. -/
def opensDeclaration : Kind → Bool
  | .word .class | .word .fun | .word .var => true
  | _ => false

def startsDeclaration (k : Kind) : Bool :=
  startsExpression k || opensStatement k || opensDeclaration k

/-- The kinds with which the tokens of a phrase begin, if there always are some. -/
def Phrase.starts? : Phrase → Option (Kind → Bool)
  | .expr .primary _ | .expr .call _ => some startsPrimary
  | .expr _ _ | .arguments _ _ => some startsExpression
  | .statement _ _ => some fun k => startsExpression k || opensStatement k
  | .declaration _ => some startsDeclaration
  | .varDeclaration _ => some (· == .word .var)
  | .function _ | .parameters _ _ => some (· == .identifier)
  | _ => none

theorem startsPrimary_of_literal {k : Kind} {v : Literal} (h : literal? k = some v) :
    startsPrimary k = true := by
  unfold literal? at h
  split at h <;> first | rfl | cases h

theorem startsExpression_of_primary {k : Kind} (h : startsPrimary k = true) :
    startsExpression k = true := by
  simp [startsExpression, h]

theorem not_unary_of_startsPrimary {k : Kind} (h : startsPrimary k = true) :
    isUnaryOperator k = false := by
  unfold startsPrimary at h
  split at h <;> first | rfl | cases h

theorem ne_of_startsExpression {k k' : Kind} (h : startsExpression k = true)
    (h' : startsExpression k' = false) : (k == k') = false := by
  rw [beq_eq_false_iff_ne]
  rintro rfl
  rw [h] at h'
  cases h'

variable {before : Bool → Prop}

theorem Derives.starts {p : Phrase} {ts : List Token} {n k : Nat} {ds : List Diagnostic}
    (h : Derives before p ts n k ds) {s : Kind → Bool} (hs : p.starts? = some s) :
    ∃ t us, ts = t :: us ∧ s t.kind = true := by
  induction h generalizing s with
  | literal ht => cases hs; exact ⟨_, _, rfl, startsPrimary_of_literal ht⟩
  | this ht | var ht | super ht | grouping ht => cases hs; exact ⟨_, _, rfl, by rw [ht]; rfl⟩
  | operator ho => cases hs; exact ⟨_, _, rfl, by simp [startsExpression, ho]⟩
  | noOperator _ ih =>
    obtain ⟨t, us, rfl, ht⟩ := ih rfl
    cases hs
    exact ⟨t, us, rfl, startsExpression_of_primary ht⟩
  | @chain c _ _ _ _ _ _ _ _ _ _ _ ih =>
    obtain ⟨t, us, rfl, ht⟩ := ih (s := startsExpression) (by cases c <;> rfl)
    cases hs
    exact ⟨t, _, rfl, ht⟩
  | assignProperty _ _ _ _ _ ih =>
    obtain ⟨t, us, rfl, ht⟩ := ih rfl
    cases hs
    exact ⟨t, _, rfl, startsExpression_of_primary ht⟩
  | call _ _ ih | noAssignment _ ih | argument _ ih | moreArguments _ _ _ ih
  | invalidTarget _ _ _ _ ih | expression _ _ ih =>
    obtain ⟨t, us, rfl, ht⟩ := ih rfl
    cases hs
    exact ⟨t, _, rfl, by simp [ht]⟩
  | assignVar hx => cases hs; exact ⟨_, _, rfl, by rw [hx]; rfl⟩
  | print hw | returns hw | block hw | ifThen hw | ifElse hw | whileDo hw | forDo hw
  | declaredFunction hw | declaredClass hw =>
    cases hs
    exact ⟨_, _, rfl, by rw [hw]; rfl⟩
  | bareVariable hw | initialized hw | function hw | parameter hw | moreParameters hw =>
    cases hs
    exact ⟨_, _, rfl, by rw [hw]; rfl⟩
  | declaredStatement _ ih | declaredVariable _ ih =>
    obtain ⟨t, us, rfl, ht⟩ := ih rfl
    cases hs
    exact ⟨t, us, rfl, by simp_all [startsDeclaration, opensDeclaration]⟩
  | _ => cases hs

theorem Derives.starts_operands {c : Chain} {l e : Expr} {ts : List Token} {n k : Nat}
    {ds : List Diagnostic} (h : Derives before (.operands c l e) ts n k ds) :
    (∃ op us, ts = op :: us ∧ c.operator op.kind = true) ∨ ts = [] := by
  cases h with
  | noOperand => exact .inr rfl
  | operand ho => exact .inl ⟨_, _, rfl, ho⟩

theorem Derives.starts_declarations {ss : List Stmt} {ts : List Token} {n k : Nat}
    {ds : List Diagnostic} (h : Derives before (.declarations ss) ts n k ds) :
    ts = [] ∨ ∃ t us, ts = t :: us ∧ startsDeclaration t.kind = true := by
  cases h with
  | noDeclaration => exact .inl rfl
  | moreDeclarations hs =>
    obtain ⟨t, us, rfl, ht⟩ := hs.starts rfl
    exact .inr ⟨t, _, rfl, ht⟩

theorem Derives.append {ss us : List Stmt} {ts vs : List Token} {n m k : Nat}
    {ds es : List Diagnostic} (h : Derives before (.declarations ss) ts n m ds)
    (h' : Derives before (.declarations us) vs m k es) :
    Derives before (.declarations (ss ++ us)) (ts ++ vs) n k (ds ++ es) := by
  generalize hp : Phrase.declarations ss = p at h
  induction h generalizing ss with
  | noDeclaration =>
    cases hp
    exact h'
  | moreDeclarations hs _ _ ih =>
    cases hp
    have h := Derives.moreDeclarations hs (ih h' rfl)
    simpa using h
  | _ => cases hp

theorem beyond_eq_nil {cause : ParseCause} {count : Nat} {ts : List Token}
    (h : count < maxArity) : beyond cause count ts = [] :=
  if_neg (Nat.not_le.2 h)

section Targets

variable {c : Chain} {e f l : Expr} {ts : List Token} {n k : Nat} {ds : List Diagnostic}

theorem assignable_join (c : Chain) (a : Expr) (op : Token) (b : Expr) :
    (c.join a op b).assignable = false := by
  cases c <;> rfl

/-- Operands either add nothing or leave an expression of their own level. -/
theorem Derives.operands_inv (h : Derives before (.operands c l e) ts n k ds) :
    (e = l ∧ ts = [] ∧ k = n ∧ ds = []) ∨ e.assignable = false := by
  generalize hp : Phrase.operands c l e = p at h
  induction h generalizing l with
  | noOperand => cases hp; exact .inl ⟨rfl, rfl, rfl, rfl⟩
  | operand _ _ _ _ ih =>
    cases hp
    rcases ih rfl with ⟨rfl, -⟩ | h
    · exact .inr (assignable_join ..)
    · exact .inr h
  | _ => cases hp

theorem Derives.operand_of_chain (h : Derives before (.expr (.chain c) e) ts n k ds)
    (he : e.assignable = true) : Derives before (.expr c.operand e) ts n k ds := by
  cases h with
  | chain hl ho =>
    rcases ho.operands_inv with ⟨rfl, rfl, rfl, rfl⟩ | h
    · simpa using hl
    · simp [h] at he

theorem Derives.call_of_or (h : Derives before (.expr (.chain .or) e) ts n k ds)
    (he : e.assignable = true) : Derives before (.expr .call e) ts n k ds := by
  have hand : Derives before (.expr (.chain .and) e) ts n k ds := h.operand_of_chain he
  have hequality : Derives before (.expr (.chain .equality) e) ts n k ds := hand.operand_of_chain he
  have hcomparison : Derives before (.expr (.chain .comparison) e) ts n k ds :=
    hequality.operand_of_chain he
  have hterm : Derives before (.expr (.chain .term) e) ts n k ds := hcomparison.operand_of_chain he
  have hfactor : Derives before (.expr (.chain .factor) e) ts n k ds := hterm.operand_of_chain he
  have hunary : Derives before (.expr .unary e) ts n k ds := hfactor.operand_of_chain he
  cases hunary with
  | operator => cases he
  | noOperator h => exact h

/-- The last suffix, if there is one and it is no call. -/
theorem Derives.suffixes_inv (h : Derives before (.suffixes f e) ts n k ds)
    (he : e.assignable = true) : (e = f ∧ ts = [] ∧ k = n ∧ ds = []) ∨
      ∃ o x dot us, e = .get o x ∧ ts = us ++ [dot, x] ∧ dot.kind = .mark .dot ∧
        x.kind = .identifier ∧ Derives before (.suffixes f o) us n k ds := by
  generalize hp : Phrase.suffixes f e = p at h
  induction h generalizing f with
  | noSuffix => cases hp; exact .inl ⟨rfl, rfl, rfl, rfl⟩
  | emptyCall ho hc hs ih =>
    cases hp
    rcases ih rfl with ⟨rfl, -⟩ | ⟨o, x, dot, us, rfl, rfl, hd, hx, hs⟩
    · cases he
    · exact .inr ⟨o, x, dot, _, rfl, by simp, hd, hx, .emptyCall ho hc hs⟩
  | argumentCall ho ha hc hs _ ih =>
    cases hp
    rcases ih rfl with ⟨rfl, -⟩ | ⟨o, x, dot, us, rfl, rfl, hd, hx, hs⟩
    · cases he
    · exact .inr ⟨o, x, dot, _, rfl, by simp, hd, hx, .argumentCall ho ha hc hs⟩
  | @property o e dot x us n k es hd hx hs ih =>
    cases hp
    rcases ih rfl with ⟨rfl, rfl, rfl, rfl⟩ | ⟨o', x', dot', us', rfl, rfl, hd', hx', hs'⟩
    · exact .inr ⟨o, x, dot, [], rfl, rfl, hd, hx, .noSuffix⟩
    · exact .inr ⟨o', x', dot', _, rfl, by simp, hd', hx', .property hd hx hs'⟩
  | _ => cases hp

theorem Derives.var_inv {r : Reference} (h : Derives before (.expr .call (.var r)) ts n k ds) :
    ∃ x, ts = [x] ∧ x.kind = .identifier ∧ r = ⟨n, x⟩ ∧ k = n + 1 ∧ ds = [] := by
  cases h with
  | call hp hs =>
    rcases hs.suffixes_inv rfl with ⟨rfl, rfl, rfl, rfl⟩ | ⟨_, _, _, _, h, -⟩
    · cases hp with
      | var hx => exact ⟨_, rfl, hx, rfl, rfl, rfl⟩
    · cases h

theorem Derives.get_inv {o : Expr} {x : Token}
    (h : Derives before (.expr .call (.get o x)) ts n k ds) :
    ∃ us dot, ts = us ++ [dot, x] ∧ dot.kind = .mark .dot ∧ x.kind = .identifier ∧
      Derives before (.expr .call o) us n k ds := by
  cases h with
  | call hp hs =>
    rcases hs.suffixes_inv rfl with ⟨rfl, -⟩ | ⟨o', x', dot, us, h, rfl, hd, hx, hs'⟩
    · cases hp
    · cases h
      exact ⟨_, dot, (List.append_assoc ..).symm, hd, hx, .call hp hs'⟩

end Targets

end Lox.Grammar
