import Lox.Proofs.Grammar.Derivation
import Lox.Proofs.Scoping.Twin

/-!
# What the grammar promises of a tree

Declared and referenced names are identifiers, `this` and `super` are spelled so, and a
branch or the body of a loop declares nothing. No two references of a tree have the same
identity, and all identities are from the range that the derivation takes.
-/

set_option autoImplicit false

namespace Lox

namespace Expr

mutual

/-- All names are in `ok`, and the reserved words are spelled as such. -/
def Formed (ok : String → Prop) : Expr → Prop
  | literal _ => True
  | grouping e => Formed ok e
  | unary _ e => Formed ok e
  | binary l _ r => Formed ok l ∧ Formed ok r
  | logical l _ r => Formed ok l ∧ Formed ok r
  | var r => ok r.name.lexeme
  | assign r e => ok r.name.lexeme ∧ Formed ok e
  | call f _ es => Formed ok f ∧ AllFormed ok es
  | get e _ => Formed ok e
  | set e _ v => Formed ok e ∧ Formed ok v
  | this r => r.name.lexeme = "this"
  | super r _ => r.name.lexeme = "super"

def AllFormed (ok : String → Prop) : List Expr → Prop
  | [] => True
  | e :: es => Formed ok e ∧ AllFormed ok es

end

mutual

/-- The references in the order of the walk that scopes them. -/
def references : Expr → List Reference
  | literal _ => []
  | grouping e => references e
  | unary _ e => references e
  | binary l _ r => references l ++ references r
  | logical l _ r => references l ++ references r
  | var r => [r]
  | assign r e => references e ++ [r]
  | call f _ es => references f ++ allReferences es
  | get e _ => references e
  | set e _ v => references v ++ references e
  | this r => [r]
  | super r _ => [r]

def allReferences : List Expr → List Reference
  | [] => []
  | e :: es => references e ++ allReferences es

end

end Expr

mutual

def Stmt.Formed (ok : String → Prop) : Stmt → Prop
  | .expression e => e.Formed ok
  | .print e => e.Formed ok
  | .var x e => ok x.lexeme ∧ ∀ e' ∈ e, e'.Formed ok
  | .block ss => Stmt.AllFormed ok ss
  | .if e yes no => e.Formed ok ∧ Stmt.Formed ok yes ∧ yes.plain ∧ Stmt.OptionFormed ok no
  | .while e s => e.Formed ok ∧ Stmt.Formed ok s ∧ s.plain
  | .function f => Function.Formed ok f
  | .return _ e => ∀ e' ∈ e, e'.Formed ok
  | .class x r fs => ok x.lexeme ∧ (∀ r' ∈ r, ok r'.name.lexeme) ∧ Function.AllFormed ok fs

def Stmt.AllFormed (ok : String → Prop) : List Stmt → Prop
  | [] => True
  | s :: ss => Stmt.Formed ok s ∧ Stmt.AllFormed ok ss

def Stmt.OptionFormed (ok : String → Prop) : Option Stmt → Prop
  | none => True
  | some s => Stmt.Formed ok s ∧ s.plain

def Function.Formed (ok : String → Prop) : Function → Prop
  | .mk x ps ss => ok x.lexeme ∧ (∀ p ∈ ps, ok p.lexeme) ∧ Stmt.AllFormed ok ss

def Function.AllFormed (ok : String → Prop) : List Function → Prop
  | [] => True
  | f :: fs => Function.Formed ok f ∧ Function.AllFormed ok fs

end

def optionReferences : Option Expr → List Reference
  | none => []
  | some e => e.references

mutual

def Stmt.references : Stmt → List Reference
  | .expression e => e.references
  | .print e => e.references
  | .var _ e => optionReferences e
  | .block ss => Stmt.allReferences ss
  | .if e yes no => e.references ++ Stmt.references yes ++ Stmt.optionReferences no
  | .while e s => e.references ++ Stmt.references s
  | .function f => Function.references f
  | .return _ e => optionReferences e
  | .class _ r fs => r.toList ++ Function.allReferences fs

def Stmt.allReferences : List Stmt → List Reference
  | [] => []
  | s :: ss => Stmt.references s ++ Stmt.allReferences ss

def Stmt.optionReferences : Option Stmt → List Reference
  | none => []
  | some s => Stmt.references s

def Function.references : Function → List Reference
  | .mk _ _ ss => Stmt.allReferences ss

def Function.allReferences : List Function → List Reference
  | [] => []
  | f :: fs => Function.references f ++ Function.allReferences fs

end

end Lox

namespace Lox.Grammar

/-- A token as it may stand in a text whose names are in `ok`. -/
structure Spelled (ok : String → Prop) (t : Token) : Prop where
  identifier : t.kind = .identifier → ok t.lexeme
  this : t.kind = .word .this → t.lexeme = "this"
  super : t.kind = .word .super → t.lexeme = "super"

def Phrase.Formed (ok : String → Prop) : Phrase → Prop
  | .expr _ e => e.Formed ok
  | .operands _ first e => first.Formed ok → e.Formed ok
  | .suffixes first e => first.Formed ok → e.Formed ok
  | .arguments _ es => Expr.AllFormed ok es
  | .optional e => ∀ e' ∈ e, e'.Formed ok
  | .varDeclaration s => s.Formed ok
  | .initializer s => ∀ s' ∈ s, s'.Formed ok
  | .statement _ s => s.Formed ok ∧ s.plain
  | .declaration s => s.Formed ok
  | .declarations ss => Stmt.AllFormed ok ss
  | .superclass r => ∀ r' ∈ r, ok r'.name.lexeme
  | .parameters _ ps => ∀ p ∈ ps, ok p.lexeme
  | .someParameters ps => ∀ p ∈ ps, ok p.lexeme
  | .function f => f.Formed ok
  | .functions fs => Function.AllFormed ok fs

variable {before : Bool → Prop} {ok : String → Prop} {p : Phrase} {ts : List Token} {n k : Nat}
  {ds : List Diagnostic}

theorem formed_join {c : Chain} {l r : Expr} {op : Token} (hl : l.Formed ok) (hr : r.Formed ok) :
    (c.join l op r).Formed ok := by
  cases c <;> exact ⟨hl, hr⟩

theorem formed_forLoop {i : Option Stmt} {condition increment : Option Expr} {body : Stmt}
    (hi : ∀ s ∈ i, s.Formed ok) (hc : ∀ e ∈ condition, e.Formed ok)
    (hn : ∀ e ∈ increment, e.Formed ok) (hb : body.Formed ok) (hp : body.plain = true) :
    (forLoop i condition increment body).Formed ok ∧
      (forLoop i condition increment body).plain = true := by
  have hcondition : (condition.getD (.literal (.bool true))).Formed ok := by
    cases condition with
    | none => trivial
    | some e => exact hc e rfl
  unfold forLoop
  cases increment with
  | none =>
    cases i with
    | none => exact ⟨⟨hcondition, hb, hp⟩, rfl⟩
    | some s => exact ⟨⟨hi s rfl, ⟨hcondition, hb, hp⟩, trivial⟩, rfl⟩
  | some e =>
    have hbody : (Stmt.block [body, .expression e]).Formed ok := ⟨hb, hn e rfl, trivial⟩
    cases i with
    | none => exact ⟨⟨hcondition, hbody, rfl⟩, rfl⟩
    | some s => exact ⟨⟨hi s rfl, ⟨hcondition, hbody, rfl⟩, trivial⟩, rfl⟩

theorem Derives.formed (h : Derives before p ts n k ds) (hts : ∀ t ∈ ts, Spelled ok t) :
    p.Formed ok := by
  induction h with
  | literal ht => trivial
  | this ht => exact (hts _ List.mem_cons_self).this ht
  | var ht => exact (hts _ List.mem_cons_self).identifier ht
  | super ht hd hx => exact (hts _ List.mem_cons_self).super ht
  | grouping ho he hc ih => exact ih fun t ht => hts t (by simp [ht])
  | call hp hs ihp ihs =>
    exact ihs (fun t ht => hts t (by simp [ht])) (ihp fun t ht => hts t (by simp [ht]))
  | noSuffix => exact fun hf => hf
  | emptyCall ho hc hs ih => exact fun hf => ih (fun t ht => hts t (by simp [ht])) ⟨hf, trivial⟩
  | argumentCall ho ha hc hs iha ihs =>
    intro hf
    exact ihs (fun t ht => hts t (by simp [ht])) ⟨hf, iha fun t ht => hts t (by simp [ht])⟩
  | property hd hx hs ih => exact fun hf => ih (fun t ht => hts t (by simp [ht])) hf
  | argument he ih => exact ⟨ih hts, trivial⟩
  | moreArguments he hc ha ihe iha =>
    exact ⟨ihe fun t ht => hts t (by simp [ht]), iha fun t ht => hts t (by simp [ht])⟩
  | operator ho he ih => exact ih fun t ht => hts t (by simp [ht])
  | noOperator he ih => exact ih hts
  | chain hl ho ihl iho =>
    exact iho (fun t ht => hts t (by simp [ht])) (ihl fun t ht => hts t (by simp [ht]))
  | noOperand => exact fun hf => hf
  | operand ho hr hs ihr ihs =>
    intro hf
    exact ihs (fun t ht => hts t (by simp [ht]))
      (formed_join hf (ihr fun t ht => hts t (by simp [ht])))
  | noAssignment he ih => exact ih hts
  | assignVar hx hq hv ih =>
    exact ⟨(hts _ List.mem_cons_self).identifier hx, ih fun t ht => hts t (by simp [ht])⟩
  | assignProperty ho hd hx hq hv iho ihv =>
    exact ⟨iho fun t ht => hts t (by simp [ht]), ihv fun t ht => hts t (by simp [ht])⟩
  | invalidTarget he ha hq hv ihe ihv => exact ihe fun t ht => hts t (by simp [ht])
  | noExpression => exact fun e he => by cases he
  | someExpression he ih =>
    intro e' he'
    cases he'
    exact ih hts
  | expression he hs ih => exact ⟨ih fun t ht => hts t (by simp [ht]), rfl⟩
  | print hw he hs ih => exact ⟨ih fun t ht => hts t (by simp [ht]), rfl⟩
  | returns hw he hs ih => exact ⟨ih fun t ht => hts t (by simp [ht]), rfl⟩
  | block ho hs hc ih => exact ⟨ih fun t ht => hts t (by simp [ht]), rfl⟩
  | ifThen hw ho he hc hy ihe ihy =>
    have hyes := ihy fun t ht => hts t (by simp [ht])
    exact ⟨⟨ihe fun t ht => hts t (by simp [ht]), hyes.1, hyes.2, trivial⟩, rfl⟩
  | ifElse hw ho he hc hy hb hl hn ihe ihy ihn =>
    have hyes := ihy fun t ht => hts t (by simp [ht])
    have hno := ihn fun t ht => hts t (by simp [ht])
    exact ⟨⟨ihe fun t ht => hts t (by simp [ht]), hyes.1, hyes.2, hno⟩, rfl⟩
  | whileDo hw ho he hc hb ihe ihb =>
    have hbody := ihb fun t ht => hts t (by simp [ht])
    exact ⟨⟨ihe fun t ht => hts t (by simp [ht]), hbody.1, hbody.2⟩, rfl⟩
  | forDo hw ho hi he hs hn hc hb ihi ihe ihn ihb =>
    have hbody := ihb fun t ht => hts t (by simp [ht])
    exact formed_forLoop (ihi fun t ht => hts t (by simp [ht]))
      (ihe fun t ht => hts t (by simp [ht])) (ihn fun t ht => hts t (by simp [ht])) hbody.1 hbody.2
  | noInitializer hs => exact fun s hs => by cases hs
  | variableInitializer hs ih =>
    intro s' hs'
    cases hs'
    exact ih hts
  | expressionInitializer he hs ih =>
    intro s' hs'
    cases hs'
    exact ih fun t ht => hts t (by simp [ht])
  | bareVariable hw hx hs =>
    exact ⟨(hts _ (by simp)).identifier hx, fun e he => by cases he⟩
  | initialized hw hx hq he hs ih =>
    apply And.intro ((hts _ (by simp)).identifier hx)
    intro e' he'
    cases he'
    exact ih fun t ht => hts t (by simp [ht])
  | declaredStatement hs ih => exact (ih hts).1
  | declaredVariable hs ih => exact ih hts
  | declaredFunction hw hf ih => exact ih fun t ht => hts t (by simp [ht])
  | declaredClass hw hx hr ho hf hc ihr ihf =>
    exact ⟨(hts _ (by simp)).identifier hx, ihr fun t ht => hts t (by simp [ht]),
      ihf fun t ht => hts t (by simp [ht])⟩
  | noDeclaration => trivial
  | moreDeclarations hs hss ihs ihss =>
    exact ⟨ihs fun t ht => hts t (by simp [ht]), ihss fun t ht => hts t (by simp [ht])⟩
  | noSuperclass => exact fun r hr => by cases hr
  | someSuperclass hl hx =>
    intro r' hr'
    cases hr'
    exact (hts _ (by simp)).identifier hx
  | function hx ho hp hc hb hs hd ihp ihs =>
    exact ⟨(hts _ (by simp)).identifier hx, ihp fun t ht => hts t (by simp [ht]),
      ihs fun t ht => hts t (by simp [ht])⟩
  | noFunction => trivial
  | moreFunctions hf hfs ihf ihfs =>
    exact ⟨ihf fun t ht => hts t (by simp [ht]), ihfs fun t ht => hts t (by simp [ht])⟩
  | noParameter => exact fun p hp => by cases hp
  | someParameter hp ih => exact ih hts
  | parameter hp =>
    intro q hq
    rw [List.mem_singleton.1 hq]
    exact (hts _ (by simp)).identifier hp
  | moreParameters hp hc hs ih =>
    intro q hq
    rcases List.mem_cons.1 hq with rfl | hq
    · exact (hts _ (by simp)).identifier hp
    · exact ih (fun t ht => hts t (by simp [ht])) q hq

end Lox.Grammar
