import Mathlib
import Lox.Proofs.Grammar.Ebnf

/-!
# Parse trees

A parse tree shows how tokens derive from the relaxed rules: each of them stands under the
nonterminals whose rules led to it. What the rules are relaxed by can be counted in the tree:
the parameters and arguments that are too many in their list, and the assignments to
something else than a variable or a property.
-/

set_option autoImplicit false

namespace Lox.Grammar

inductive ParseTree where
  | leaf (t : Token)
  | node (r : Nonterminal) (children : List ParseTree)

/-- The trees show how their tokens derive from the expression. -/
inductive Parses : Ebnf → List ParseTree → Prop
  | empty : Parses .empty []
  | terminal {x : Terminal} {t : Token} (h : x.fits t.kind = true) : Parses (.terminal x) [.leaf t]
  | nonterminal {r : Nonterminal} {cs : List ParseTree} (h : Parses (Ebnf.rule r) cs) :
      Parses (.nonterminal r) [.node r cs]
  | seq {a b : Ebnf} {cs ds : List ParseTree} (ha : Parses a cs) (hb : Parses b ds) :
      Parses (.seq a b) (cs ++ ds)
  | left {a b : Ebnf} {cs : List ParseTree} (h : Parses a cs) : Parses (.alt a b) cs
  | right {a b : Ebnf} {cs : List ParseTree} (h : Parses b cs) : Parses (.alt a b) cs
  | done {a : Ebnf} : Parses (.star a) []
  | more {a : Ebnf} {cs ds : List ParseTree} (ha : Parses a cs) (hs : Parses (.star a) ds) :
      Parses (.star a) (cs ++ ds)

namespace ParseTree

mutual

/-- The tokens in the tree, in order. -/
def tokens : ParseTree → List Token
  | leaf t => [t]
  | node _ cs => tokensAll cs

def tokensAll : List ParseTree → List Token
  | [] => []
  | c :: cs => c.tokens ++ tokensAll cs

end

/-- The items of a list, without the commas between them. -/
def items : List ParseTree → List ParseTree
  | [] => []
  | [c] => [c]
  | c :: _ :: cs => c :: items cs

/-- The last suffix of a call is a property. -/
def endsInName (suffixes : List ParseTree) : Bool :=
  match suffixes.getLast? with
  | some (leaf t) => t.kind == .identifier
  | _ => false

/-- Just a variable or a property, that is nothing else in all levels down to the call. -/
def assignable : ParseTree → Bool
  | leaf t => t.kind == .identifier
  | node (.level _) [c] => c.assignable
  | node (.level .call) (_ :: suffixes) => endsInName suffixes
  | node _ _ => false

/-- The violations that the items of a list behind `count` others are, if they are too many. -/
def excess (cause : ParseCause) (count : Nat) (cs : List ParseTree) : Multiset Diagnostic :=
  ↑(((items cs).drop (maxArity - count)).flatMap fun c => c.tokens.head?.toList.map (fault cause))

/-- The violations right below a nonterminal: items beyond the limit of a list, and the mark
behind a target that cannot be assigned to. -/
def own : Nonterminal → List ParseTree → Multiset Diagnostic
  | .parameters, cs => excess .tooManyParameters 0 cs
  | .arguments, cs => excess .tooManyArguments 0 cs
  | .level .assignment, [target, leaf q, _] =>
    if target.assignable then 0 else {fault .invalidTarget q}
  | _, _ => 0

mutual

/-- All violations in the tree. -/
def violations : ParseTree → Multiset Diagnostic
  | leaf _ => 0
  | node r cs => own r cs + violationsAll cs

def violationsAll : List ParseTree → Multiset Diagnostic
  | [] => 0
  | c :: cs => c.violations + violationsAll cs

end

@[simp] theorem tokens_leaf (t : Token) : (leaf t).tokens = [t] := rfl

@[simp] theorem tokens_node (r : Nonterminal) (cs : List ParseTree) :
    (node r cs).tokens = tokensAll cs := rfl

@[simp] theorem tokensAll_nil : tokensAll [] = [] := rfl

@[simp] theorem tokensAll_cons (c : ParseTree) (cs : List ParseTree) :
    tokensAll (c :: cs) = c.tokens ++ tokensAll cs := rfl

@[simp] theorem tokensAll_append (cs ds : List ParseTree) :
    tokensAll (cs ++ ds) = tokensAll cs ++ tokensAll ds := by
  induction cs with
  | nil => rfl
  | cons c cs ih => simp [ih]

@[simp] theorem violations_leaf (t : Token) : (leaf t).violations = 0 := rfl

@[simp] theorem violations_node (r : Nonterminal) (cs : List ParseTree) :
    (node r cs).violations = own r cs + violationsAll cs := rfl

@[simp] theorem violationsAll_nil : violationsAll [] = 0 := rfl

@[simp] theorem violationsAll_cons (c : ParseTree) (cs : List ParseTree) :
    violationsAll (c :: cs) = c.violations + violationsAll cs := rfl

@[simp] theorem violationsAll_append (cs ds : List ParseTree) :
    violationsAll (cs ++ ds) = violationsAll cs + violationsAll ds := by
  induction cs with
  | nil => simp
  | cons c cs ih => simp [ih, add_assoc]

end ParseTree

open ParseTree

section Parses

variable {e : Ebnf} {ts : List Token} {cs : List ParseTree}

theorem Parses.matches (h : Parses e cs) : Matches e (tokensAll cs) := by
  induction h with
  | empty => exact .empty
  | terminal h => exact .terminal h
  | nonterminal _ ih =>
    apply Matches.nonterminal
    simpa using ih
  | seq _ _ iha ihb =>
    rw [tokensAll_append]
    exact .seq iha ihb
  | left _ ih => exact .left ih
  | right _ ih => exact .right ih
  | done => exact .done
  | more _ _ iha ihs =>
    rw [tokensAll_append]
    exact .more iha ihs

theorem Matches.parses (h : Matches e ts) : ∃ cs, Parses e cs ∧ tokensAll cs = ts := by
  induction h with
  | empty => exact ⟨[], .empty, rfl⟩
  | @terminal x t h => exact ⟨[.leaf t], .terminal h, rfl⟩
  | @nonterminal r ts _ ih =>
    obtain ⟨cs, hcs, rfl⟩ := ih
    exact ⟨[.node r cs], .nonterminal hcs, by simp⟩
  | seq _ _ iha ihb =>
    obtain ⟨cs, hcs, rfl⟩ := iha
    obtain ⟨ds, hds, rfl⟩ := ihb
    exact ⟨cs ++ ds, .seq hcs hds, tokensAll_append cs ds⟩
  | left _ ih =>
    obtain ⟨cs, hcs, hts⟩ := ih
    exact ⟨cs, .left hcs, hts⟩
  | right _ ih =>
    obtain ⟨cs, hcs, hts⟩ := ih
    exact ⟨cs, .right hcs, hts⟩
  | done => exact ⟨[], .done, rfl⟩
  | more _ _ iha ihs =>
    obtain ⟨cs, hcs, rfl⟩ := iha
    obtain ⟨ds, hds, rfl⟩ := ihs
    exact ⟨cs ++ ds, .more hcs hds, tokensAll_append cs ds⟩

end Parses

section Least

/-- What the expression stands for if the nonterminals stand for these languages of trees. -/
def Ebnf.denote (ρ : Nonterminal → Language ParseTree) : Ebnf → Language ParseTree
  | empty => 1
  | terminal x => {cs | ∃ t, cs = [.leaf t] ∧ x.fits t.kind = true}
  | nonterminal r => ρ r
  | seq a b => a.denote ρ * b.denote ρ
  | alt a b => a.denote ρ + b.denote ρ
  | star a => KStar.kstar (a.denote ρ)

/-- Languages that the rules do not leave contain all parse trees of the nonterminals. -/
theorem Parses.denote {ρ : Nonterminal → Language ParseTree}
    (hρ : ∀ r, ∀ cs ∈ (Ebnf.rule r).denote ρ, [.node r cs] ∈ ρ r) {e : Ebnf} {cs : List ParseTree}
    (h : Parses e cs) : cs ∈ e.denote ρ := by
  induction h with
  | empty => exact Language.nil_mem_one
  | @terminal x t h => exact ⟨t, rfl, h⟩
  | nonterminal _ ih => exact hρ _ _ ih
  | seq _ _ iha ihb => exact Language.append_mem_mul iha ihb
  | left _ ih => exact .inl ih
  | right _ ih => exact .inr ih
  | done => exact Language.nil_mem_kstar _
  | more _ _ iha ihs =>
    obtain ⟨parts, rfl, hparts⟩ := ihs
    exact ⟨_ :: parts, rfl, List.forall_mem_cons.2 ⟨iha, hparts⟩⟩

end Least

end Lox.Grammar
