import Mathlib
import Lox.Proofs.Grammar.DanglingElse
import Lox.Proofs.Grammar.ParseTree
import Lox.Proofs.Grammar.Shape

/-!
# Derivations from the rules

Whatever has a parse tree has a derivation that builds a syntax tree. The violations in it
are those of the parse tree: of a limit, or by what stands left of the mark of an assignment.
-/

set_option autoImplicit false

namespace Lox.Grammar

open ParseTree

/-- From wherever identities are counted, the tokens of the trees derive a phrase of this form,
with the violations that are in the trees. -/
def Has {α : Type} (phrase : α → Phrase) : Language ParseTree :=
  {cs | ∀ n, ∃ a k ds, Derives Anything (phrase a) (tokensAll cs) n k ds ∧
    (ds : Multiset Diagnostic) = violationsAll cs}

/-- As `Has`, for one tree that also shows what can be assigned to. -/
def HasLevel (l : Level) : Language ParseTree :=
  {cs | ∃ c, cs = [c] ∧ ∀ n, ∃ e k ds, Derives Anything (.expr l e) c.tokens n k ds ∧
    (ds : Multiset Diagnostic) = c.violations ∧ e.assignable = c.assignable}

/-- What the nonterminals stand for. -/
def meaning : Nonterminal → Language ParseTree
  | .program => {cs | ∃ us t, cs = [.node .program (us ++ [.leaf t])] ∧ t.kind = .finish ∧
      us ∈ Has .declarations}
  | .input => {cs | ∃ us t, cs = [.node .input (us ++ [.leaf t])] ∧ t.kind = .finish ∧
      us ∈ Has (.expr .assignment)}
  | .declaration | .classDecl | .funDecl => Has .declaration
  | .function => Has .function
  | .varDecl => Has .varDeclaration
  | .statement | .forStmt | .ifStmt | .printStmt | .returnStmt | .whileStmt =>
    Has fun p : Bool × Stmt => .statement p.1 p.2
  | .exprStmt => {cs | ∃ us s, cs = [.node .exprStmt (us ++ [.leaf s])] ∧
      s.kind = .mark .semicolon ∧ us ∈ Has (.expr .assignment)}
  | .block => {cs | ∃ o us c, cs = [.node .block (.leaf o :: us ++ [.leaf c])] ∧
      o.kind = .mark .leftBrace ∧ us ∈ Has .declarations ∧ c.kind = .mark .rightBrace}
  | .parameters => Has (.parameters 0)
  | .arguments => Has (.arguments 0)
  | .level .assignment => {cs | ∃ c, cs = [c] ∧ cs ∈ Has (.expr .assignment)}
  | .level l => HasLevel l

section Denote

variable {ρ : Nonterminal → Language ParseTree} {e : Ebnf} {es : List Ebnf} {ts : List ParseTree}

theorem mem_kind {k : Kind} : ts ∈ (Ebnf.kind k).denote ρ ↔ ∃ t, ts = [.leaf t] ∧ t.kind = k := by
  show (∃ t, ts = [.leaf t] ∧ (t.kind == k) = true) ↔ _
  simp only [beq_iff_eq]

theorem mem_all_nil : ts ∈ (Ebnf.all []).denote ρ ↔ ts = [] := Language.mem_one ts

theorem mem_all_cons : ts ∈ (Ebnf.all (e :: es)).denote ρ ↔
    ∃ us vs, ts = us ++ vs ∧ us ∈ e.denote ρ ∧ vs ∈ (Ebnf.all es).denote ρ := by
  simp only [Ebnf.all, Ebnf.denote, Language.mem_mul]
  grind

theorem mem_alt {a b : Ebnf} :
    ts ∈ (Ebnf.alt a b).denote ρ ↔ ts ∈ a.denote ρ ∨ ts ∈ b.denote ρ := Language.mem_add _ _ ts

theorem mem_optional : ts ∈ e.optional.denote ρ ↔ ts ∈ e.denote ρ ∨ ts = [] := by
  simp [Ebnf.optional, Ebnf.denote, Language.mem_add]

theorem mem_oneOf (hne : es ≠ []) :
    ts ∈ (Ebnf.oneOf es).denote ρ ↔ ∃ e ∈ es, ts ∈ e.denote ρ := by
  induction es with
  | nil => exact absurd rfl hne
  | cons e es ih =>
    cases es with
    | nil => simp [Ebnf.oneOf]
    | cons e' es =>
      show ts ∈ e.denote ρ + (Ebnf.oneOf (e' :: es)).denote ρ ↔ _
      rw [Language.mem_add, ih (by simp)]
      simp only [List.mem_cons, exists_eq_or_imp]

/-- A repetition has what is closed under putting one more in front. -/
theorem mem_of_star {L : Language ParseTree} (hnil : [] ∈ L)
    (hcons : ∀ us ∈ e.denote ρ, ∀ vs ∈ L, us ++ vs ∈ L) (hts : ts ∈ (Ebnf.star e).denote ρ) :
    ts ∈ L := by
  have hle : (Ebnf.star e).denote ρ ≤ L := by
    apply kstar_le_of_mul_le_right
    · intro us hus
      rw [(Language.mem_one us).1 hus]
      exact hnil
    · intro us hus
      obtain ⟨vs, hvs, ws, hws, rfl⟩ := Language.mem_mul.1 hus
      exact hcons vs hvs ws hws
  exact hle hts

end Denote

section Expressions

variable {cs : List ParseTree}

/-- A nonterminal without violations of its own has the derivation that its rule has. -/
theorem has_node {α : Type} {phrase : α → Phrase} {r : Nonterminal} (hr : own r cs = 0)
    (h : cs ∈ Has phrase) : [.node r cs] ∈ Has phrase := by
  intro n
  obtain ⟨a, k, ds, hd, hv⟩ := h n
  exact ⟨a, k, ds, by simpa using hd, by simpa [hr] using hv⟩

theorem has_primary (hcs : cs ∈ (Ebnf.rule (.level .primary)).denote meaning) :
    [.node (.level .primary) cs] ∈ HasLevel .primary := by
  refine ⟨_, rfl, fun n => ?_⟩
  have hliteral {t : Token} {v : Literal} (h : literal? t.kind = some v)
      (hk : t.kind ≠ .identifier) : ∃ e k ds, Derives Anything (.expr .primary e)
        (ParseTree.node (.level .primary) [.leaf t]).tokens n k ds ∧
          (ds : Multiset Diagnostic) = (ParseTree.node (.level .primary) [.leaf t]).violations ∧
            e.assignable = (ParseTree.node (.level .primary) [.leaf t]).assignable :=
    ⟨_, _, _, .literal h, rfl, (beq_eq_false_iff_ne.2 hk).symm⟩
  obtain ⟨e, he, hcs⟩ := (mem_oneOf (by simp)).1 hcs
  simp only [List.mem_cons, List.not_mem_nil, or_false] at he
  rcases he with rfl | rfl | rfl | rfl | rfl | rfl | rfl | rfl | rfl
  · obtain ⟨t, rfl, h⟩ := hcs
    cases hk : t.kind with
    | number x => exact hliteral (v := .number x) (by rw [hk]; rfl) (by simp [hk])
    | _ => simp [Terminal.fits, hk] at h
  · obtain ⟨t, rfl, h⟩ := hcs
    cases hk : t.kind with
    | string x => exact hliteral (v := .string x) (by rw [hk]; rfl) (by simp [hk])
    | _ => simp [Terminal.fits, hk] at h
  · obtain ⟨t, rfl, h⟩ := mem_kind.1 hcs
    exact hliteral (v := .bool true) (by rw [h]; rfl) (by simp [h])
  · obtain ⟨t, rfl, h⟩ := mem_kind.1 hcs
    exact hliteral (v := .bool false) (by rw [h]; rfl) (by simp [h])
  · obtain ⟨t, rfl, h⟩ := mem_kind.1 hcs
    exact hliteral (v := .nil) (by rw [h]; rfl) (by simp [h])
  · obtain ⟨t, rfl, h⟩ := mem_kind.1 hcs
    exact ⟨_, _, _, .this h, rfl, (beq_eq_false_iff_ne.2 (by simp [h])).symm⟩
  · obtain ⟨t, rfl, h⟩ := mem_kind.1 hcs
    exact ⟨_, _, _, .var h, rfl, (beq_iff_eq.2 h).symm⟩
  · simp only [mem_all_cons, mem_all_nil, Ebnf.mark, mem_kind] at hcs
    obtain ⟨_, _, rfl, ⟨o, rfl, ho⟩, us, _, rfl, hus, _, _, rfl, ⟨c, rfl, hc⟩, rfl⟩ := hcs
    obtain ⟨us, rfl, hus⟩ := hus
    obtain ⟨e, k, ds, he, hv⟩ := hus n
    have h := Derives.grouping ho he hc
    exact ⟨_, _, _, by simpa using h, by simpa [own] using hv, rfl⟩
  · simp only [mem_all_cons, mem_all_nil, Ebnf.mark, Ebnf.word, Ebnf.name, mem_kind] at hcs
    obtain ⟨_, _, rfl, ⟨t, rfl, ht⟩, _, _, rfl, ⟨d, rfl, hd⟩, _, _, rfl, ⟨x, rfl, hx⟩, rfl⟩ := hcs
    exact ⟨_, _, _, .super ht hd hx, rfl, rfl⟩

/-- The suffixes of a call, whatever they are behind. -/
def Suffixed : Language ParseTree :=
  {cs | ∀ f n, ∃ e k ds, Derives Anything (.suffixes f e) (tokensAll cs) n k ds ∧
    (ds : Multiset Diagnostic) = violationsAll cs ∧ (cs = [] → e = f) ∧
      (cs ≠ [] → e.assignable = endsInName cs)}

theorem endsInName_append {us vs : List ParseTree} (h : vs ≠ []) :
    endsInName (us ++ vs) = endsInName vs := by
  unfold endsInName
  rw [List.getLast?_append_of_ne_nil us h]

theorem suffixed_more {us vs : List ParseTree} {f f' : Expr} {n m : Nat} {ds : List Diagnostic}
    (hvs : vs ∈ Suffixed) (hne : us ≠ []) (hend : f'.assignable = endsInName us)
    (hds : (ds : Multiset Diagnostic) = violationsAll us)
    (h : ∀ e k es, Derives Anything (.suffixes f' e) (tokensAll vs) m k es →
      Derives Anything (.suffixes f e) (tokensAll (us ++ vs)) n k (ds ++ es)) :
    ∃ e k ds, Derives Anything (.suffixes f e) (tokensAll (us ++ vs)) n k ds ∧
      (ds : Multiset Diagnostic) = violationsAll (us ++ vs) ∧ (us ++ vs = [] → e = f) ∧
        (us ++ vs ≠ [] → e.assignable = endsInName (us ++ vs)) := by
  obtain ⟨e, k, es, hs, hv, hnil, hcons⟩ := hvs f' m
  refine ⟨e, k, ds ++ es, h e k es hs, ?_, fun h => absurd h (by simp [hne]), fun _ => ?_⟩
  · rw [violationsAll_append, ← Multiset.coe_add, hds, hv]
  · by_cases hempty : vs = []
    · rw [hempty, List.append_nil, hnil hempty, hend]
    · rw [endsInName_append hempty, hcons hempty]

theorem has_call (hcs : cs ∈ (Ebnf.rule (.level .call)).denote meaning) :
    [.node (.level .call) cs] ∈ HasLevel .call := by
  have hsuffixes {cs : List ParseTree} : cs ∈ (Ebnf.star (Ebnf.oneOf [Ebnf.all [.mark .leftParen,
      Ebnf.optional (.nonterminal .arguments), .mark .rightParen],
        Ebnf.all [.mark .dot, .name]])).denote meaning → cs ∈ Suffixed := by
    apply mem_of_star
    · exact fun f n => ⟨_, _, _, .noSuffix, rfl, fun _ => rfl, fun h => absurd rfl h⟩
    · intro us hus vs hvs f n
      simp only [Ebnf.oneOf, mem_alt, mem_all_cons, mem_all_nil, Ebnf.mark, Ebnf.name, mem_kind,
        mem_optional] at hus
      rcases hus with hus | hus
      · obtain ⟨_, _, rfl, ⟨o, rfl, ho⟩, args, _, rfl, hargs, _, _, rfl, ⟨c, rfl, hc⟩, rfl⟩ := hus
        have hend : endsInName ([.leaf o] ++ (args ++ ([.leaf c] ++ []))) = false := by
          rw [List.append_nil, ← List.append_assoc, endsInName_append (by simp)]
          exact beq_eq_false_iff_ne.2 (by simp [hc])
        rcases hargs with hargs | rfl
        · obtain ⟨es, m, ds, ha, hv⟩ := hargs n
          have hcall : (Expr.call f c es).assignable = false := rfl
          exact suffixed_more hvs (by simp) (hcall.trans hend.symm) (by simpa using hv)
            fun e k es hs => by simpa using .argumentCall ho ha hc hs
        · have hcall : (Expr.call f c []).assignable = false := rfl
          exact suffixed_more hvs (by simp) (hcall.trans hend.symm) Multiset.coe_nil
            fun e k es hs => .emptyCall ho hc hs
      · obtain ⟨_, _, rfl, ⟨d, rfl, hd⟩, _, _, rfl, ⟨x, rfl, hx⟩, rfl⟩ := hus
        have hget : (Expr.get f x).assignable = endsInName [.leaf d, .leaf x] := (beq_iff_eq.2 hx).symm
        exact suffixed_more hvs (by simp) hget Multiset.coe_nil fun e k es hs => .property hd hx hs
  simp only [Ebnf.rule, mem_all_cons, mem_all_nil] at hcs
  obtain ⟨_, _, rfl, ⟨c, rfl, hc⟩, vs, _, rfl, hvs, rfl⟩ := hcs
  refine ⟨_, rfl, fun n => ?_⟩
  obtain ⟨p, m, ds, hp, hv, hassignable⟩ := hc n
  obtain ⟨e, k, es, hs, hv', hnil, hcons⟩ := hsuffixes hvs p m
  refine ⟨e, k, ds ++ es, by simpa using .call hp hs, ?_, ?_⟩
  · simp [← Multiset.coe_add, hv, hv', own]
  · cases vs with
    | nil =>
      rw [hnil rfl]
      exact hassignable
    | cons v vs =>
      rw [hcons (by simp), List.append_nil]
      rfl

theorem has_unary (hcs : cs ∈ (Ebnf.rule (.level .unary)).denote meaning) :
    [.node (.level .unary) cs] ∈ HasLevel .unary := by
  refine ⟨_, rfl, fun n => ?_⟩
  simp only [Ebnf.rule, Ebnf.oneOf, mem_alt, mem_all_cons, mem_all_nil, Ebnf.mark, mem_kind] at hcs
  rcases hcs with ⟨ops, _, rfl, hop, _, _, rfl, ⟨c, rfl, hc⟩, rfl⟩ | ⟨c, rfl, hc⟩
  · obtain ⟨e, k, ds, he, hv, -⟩ := hc n
    obtain ⟨op, rfl, ho⟩ : ∃ op, ops = [.leaf op] ∧ isUnaryOperator op.kind = true := by
      rcases hop with ⟨op, rfl, hop⟩ | ⟨op, rfl, hop⟩
      · exact ⟨op, rfl, by rw [hop]; rfl⟩
      · exact ⟨op, rfl, by rw [hop]; rfl⟩
    exact ⟨_, _, _, by simpa using .operator ho he, by simpa [own] using hv, rfl⟩
  · obtain ⟨e, k, ds, he, hv, hassignable⟩ := hc n
    exact ⟨_, _, _, by simpa using .noOperator he, by simpa [own] using hv, hassignable⟩

theorem mem_operators {c : Chain} (h : cs ∈ (Ebnf.oneOf (c.operators.map .kind)).denote meaning) :
    ∃ op, cs = [.leaf op] ∧ c.operator op.kind = true := by
  obtain ⟨e, he, hcs⟩ := (mem_oneOf (by cases c <;> simp [Chain.operators])).1 h
  obtain ⟨k, hk, rfl⟩ := List.mem_map.1 he
  obtain ⟨op, rfl, rfl⟩ := mem_kind.1 hcs
  exact ⟨op, rfl, Chain.operator_iff.2 hk⟩

/-- The operands of a level stand for expressions of a level that is no assignment. -/
theorem meaning_operand (c : Chain) : meaning (.level c.operand) = HasLevel c.operand := by
  cases c <;> rfl

/-- Further operands of the level, whatever they are behind. -/
def Operands (c : Chain) : Language ParseTree :=
  {cs | ∀ l n, ∃ e k ds, Derives Anything (.operands c l e) (tokensAll cs) n k ds ∧
    (ds : Multiset Diagnostic) = violationsAll cs ∧ (cs = [] → e = l) ∧
      (cs ≠ [] → e.assignable = false)}

theorem has_chain {c : Chain} (hcs : cs ∈ (Ebnf.rule (.level (.chain c))).denote meaning) :
    [.node (.level (.chain c)) cs] ∈ HasLevel (.chain c) := by
  have hoperands {cs : List ParseTree} : cs ∈ (Ebnf.star (Ebnf.all [Ebnf.oneOf
      (c.operators.map .kind), .nonterminal (.level c.operand)])).denote meaning →
        cs ∈ Operands c := by
    apply mem_of_star
    · exact fun l n => ⟨_, _, _, .noOperand, rfl, fun _ => rfl, fun h => absurd rfl h⟩
    · intro us hus vs hvs l n
      simp only [mem_all_cons, mem_all_nil, Ebnf.denote, meaning_operand] at hus
      obtain ⟨_, _, rfl, hop, _, _, rfl, ⟨t, rfl, ht⟩, rfl⟩ := hus
      obtain ⟨op, rfl, ho⟩ := mem_operators hop
      obtain ⟨r, m, ds, hr, hv, -⟩ := ht n
      obtain ⟨e, k, es, hs, hv', hnil, hcons⟩ := hvs (c.join l op r) m
      refine ⟨e, k, ds ++ es, by simpa using .operand ho hr hs, ?_, nofun, fun _ => ?_⟩
      · simp [← Multiset.coe_add, hv, hv']
      · by_cases hempty : vs = []
        · rw [hnil hempty, assignable_join]
        · exact hcons hempty
  simp only [Ebnf.rule, mem_all_cons, mem_all_nil] at hcs
  obtain ⟨_, _, rfl, hus, vs, _, rfl, hvs, rfl⟩ := hcs
  simp only [Ebnf.denote, meaning_operand] at hus
  obtain ⟨t, rfl, ht⟩ := hus
  refine ⟨_, rfl, fun n => ?_⟩
  obtain ⟨l, m, ds, hl, hv, hassignable⟩ := ht n
  obtain ⟨e, k, es, ho, hv', hnil, hcons⟩ := hoperands hvs l m
  refine ⟨e, k, ds ++ es, by simpa using .chain hl ho, ?_, ?_⟩
  · simp [← Multiset.coe_add, hv, hv', own]
  · cases vs with
    | nil =>
      rw [hnil rfl]
      exact hassignable
    | cons v vs => exact hcons (by simp)

/-- What stands left of the mark is a variable or a property, or it is a violation. -/
theorem assigned {before : Bool → Prop} {e v : Expr} {q : Token} {ts us : List Token}
    {n m k : Nat} {ds es : List Diagnostic} (he : Derives before (.expr (.chain .or) e) ts n m ds)
    (hq : q.kind = .mark .equal) (hv : Derives before (.expr .assignment v) us m k es) :
    ∃ e' k' fs, Derives before (.expr .assignment e') (ts ++ q :: us) n k' fs ∧
      (fs : Multiset Diagnostic) =
        (if e.assignable then 0 else {fault .invalidTarget q}) + (ds + es : Multiset Diagnostic) := by
  cases ha : e.assignable with
  | false =>
    refine ⟨_, _, _, .invalidTarget he ha hq hv, ?_⟩
    rw [← Multiset.coe_add, ← Multiset.coe_add, add_comm]
    rfl
  | true =>
    have hcall := he.call_of_or ha
    cases e with
    | var r =>
      obtain ⟨x, rfl, hx, rfl, rfl, rfl⟩ := hcall.var_inv
      exact ⟨_, _, _, .assignVar hx hq hv, by simp⟩
    | get o x =>
      obtain ⟨vs, dot, rfl, hd, hx, ho⟩ := hcall.get_inv
      exact ⟨_, _, ds ++ es, by simpa using .assignProperty ho hd hx hq hv, by simp⟩
    | _ => cases ha

theorem has_assignment (hcs : cs ∈ (Ebnf.rule (.level .assignment)).denote meaning) :
    [.node (.level .assignment) cs] ∈ Has (.expr .assignment) := by
  simp only [Ebnf.rule, Ebnf.oneOf, mem_alt, mem_all_cons, mem_all_nil, Ebnf.mark, mem_kind] at hcs
  rcases hcs with ⟨_, _, rfl, ⟨c, rfl, hc⟩, _, _, rfl, ⟨q, rfl, hq⟩, _, _, rfl, ⟨d, rfl, hd⟩, rfl⟩ | hcs
  · intro n
    obtain ⟨e, m, ds, he, hv, hassignable⟩ := hc n
    obtain ⟨v, k, es, hvalue, hv'⟩ := hd m
    obtain ⟨e', k', fs, he', hfs⟩ := assigned he hq hvalue
    refine ⟨e', k', fs, by simpa using he', ?_⟩
    rw [hfs, hassignable, hv, hv']
    simp [own]
  · obtain ⟨c, rfl, hc⟩ := hcs
    intro n
    obtain ⟨e, k, ds, he, hv, -⟩ := hc n
    exact ⟨_, _, _, by simpa using .noAssignment he, by simpa [own] using hv⟩

end Expressions

section Lists

variable {cs : List ParseTree}

theorem items_cons (c d : ParseTree) (cs : List ParseTree) : items (c :: d :: cs) = c :: items cs := rfl

theorem excess_single (cause : ParseCause) (count : Nat) (c : ParseTree) :
    excess cause count [c] = ↑(beyond cause count c.tokens) := by
  unfold excess beyond
  by_cases h : maxArity ≤ count
  · simp [items, h, Nat.sub_eq_zero_of_le h]
  · obtain ⟨k, hk⟩ : ∃ k, maxArity - count = k + 1 := ⟨maxArity - count - 1, by omega⟩
    simp [items, h, hk]

theorem excess_more (cause : ParseCause) (count : Nat) (c d : ParseTree) (cs : List ParseTree) :
    excess cause count (c :: d :: cs) =
      ↑(beyond cause count c.tokens) + excess cause (count + 1) cs := by
  unfold excess beyond
  rw [items_cons]
  by_cases h : maxArity ≤ count
  · simp [h, Nat.sub_eq_zero_of_le h, Nat.sub_eq_zero_of_le (Nat.le_succ_of_le h),
      ← Multiset.coe_add]
  · have hk : maxArity - count = (maxArity - (count + 1)) + 1 := by omega
    rw [if_neg h, hk, List.drop_succ_cons]
    simp

theorem has_arguments (hcs : cs ∈ (Ebnf.rule .arguments).denote meaning) :
    [.node .arguments cs] ∈ Has (.arguments 0) := by
  -- The items behind a first one, whatever that is.
  let Behind : Language ParseTree := {cs | ∀ c, [c] ∈ Has (.expr .assignment) → ∀ count n,
    ∃ args k ds, Derives Anything (.arguments count args) (tokensAll (c :: cs)) n k ds ∧
      (ds : Multiset Diagnostic) = excess .tooManyArguments count (c :: cs) + violationsAll (c :: cs)}
  have hbehind {cs : List ParseTree} :
      cs ∈ (Ebnf.star (Ebnf.all [.mark .comma, .expression])).denote meaning → cs ∈ Behind := by
    apply mem_of_star
    · intro c hc count n
      obtain ⟨e, k, ds, he, hv⟩ := hc n
      have he : Derives Anything (.expr .assignment e) c.tokens n k ds := by simpa using he
      refine ⟨_, _, _, by simpa using .argument he, ?_⟩
      rw [← Multiset.coe_add, excess_single, hv]
    · intro vs hvs ws hws c hc count n
      simp only [mem_all_cons, mem_all_nil, Ebnf.mark, mem_kind] at hvs
      obtain ⟨_, _, rfl, ⟨comma, rfl, hcomma⟩, _, _, rfl, ⟨d, rfl, hd⟩, rfl⟩ := hvs
      obtain ⟨e, m, ds, he, hv⟩ := hc n
      have he : Derives Anything (.expr .assignment e) c.tokens n m ds := by simpa using he
      obtain ⟨es, k, ds', ha, hv'⟩ := hws d hd (count + 1) m
      refine ⟨_, _, _, by simpa using .moreArguments he hcomma ha, ?_⟩
      have hmore := excess_more .tooManyArguments count c (.leaf comma) (d :: ws)
      simp only [List.cons_append, List.nil_append, ← Multiset.coe_add, hv, hv', hmore,
        violationsAll_cons, violations_leaf, violationsAll_nil]
      abel
  simp only [Ebnf.rule, Ebnf.listOf, mem_all_cons, mem_all_nil] at hcs
  obtain ⟨_, _, rfl, ⟨c, rfl, hc⟩, vs, _, rfl, hvs, rfl⟩ := hcs
  intro n
  obtain ⟨args, k, ds, ha, hv⟩ := hbehind hvs c hc 0 n
  exact ⟨args, k, ds, by simpa using ha, by simpa [own] using hv⟩

theorem has_parameters (hcs : cs ∈ (Ebnf.rule .parameters).denote meaning) :
    [.node .parameters cs] ∈ Has (.parameters 0) := by
  let Behind : Language ParseTree := {cs | ∀ x : Token, x.kind = .identifier → ∀ count n,
    ∃ ps k ds, Derives Anything (.parameters count ps) (x :: tokensAll cs) n k ds ∧
      (ds : Multiset Diagnostic) =
        excess .tooManyParameters count (.leaf x :: cs) + violationsAll cs}
  have hbehind {cs : List ParseTree} :
      cs ∈ (Ebnf.star (Ebnf.all [.mark .comma, .name])).denote meaning → cs ∈ Behind := by
    apply mem_of_star
    · intro x hx count n
      refine ⟨_, _, _, .parameter hx, ?_⟩
      rw [excess_single, violationsAll_nil, add_zero]
      rfl
    · intro vs hvs ws hws x hx count n
      simp only [mem_all_cons, mem_all_nil, Ebnf.mark, Ebnf.name, mem_kind] at hvs
      obtain ⟨_, _, rfl, ⟨comma, rfl, hcomma⟩, _, _, rfl, ⟨y, rfl, hy⟩, rfl⟩ := hvs
      obtain ⟨ps, k, ds, hp, hv⟩ := hws y hy (count + 1) n
      refine ⟨_, _, _, by simpa using .moreParameters hx hcomma hp, ?_⟩
      have hmore := excess_more .tooManyParameters count (.leaf x) (.leaf comma) (.leaf y :: ws)
      simp only [List.cons_append, List.nil_append, ← Multiset.coe_add, hv, hmore,
        violationsAll_cons, violations_leaf, tokens_leaf]
      abel
  simp only [Ebnf.rule, Ebnf.listOf, mem_all_cons, mem_all_nil, Ebnf.name, mem_kind] at hcs
  obtain ⟨_, _, rfl, ⟨x, rfl, hx⟩, vs, _, rfl, hvs, rfl⟩ := hcs
  intro n
  obtain ⟨ps, k, ds, hp, hv⟩ := hbehind hvs x hx 0 n
  exact ⟨ps, k, ds, by simpa using hp, by simpa [own] using hv⟩

theorem has_optional (hcs : cs ∈ (Ebnf.optional .expression).denote meaning) :
    cs ∈ Has .optional := by
  intro n
  rcases mem_optional.1 hcs with ⟨c, rfl, hc⟩ | rfl
  · obtain ⟨e, k, ds, he, hv⟩ := hc n
    exact ⟨_, _, _, .someExpression he, hv⟩
  · exact ⟨_, _, _, .noExpression, rfl⟩

theorem has_declarations
    (hcs : cs ∈ (Ebnf.star (.nonterminal .declaration)).denote meaning) : cs ∈ Has .declarations := by
  apply mem_of_star _ _ hcs
  · exact fun n => ⟨_, _, _, .noDeclaration, rfl⟩
  · intro us hus vs hvs n
    obtain ⟨s, m, ds, hs, hv⟩ := hus n
    obtain ⟨ss, k, es, hss, hv'⟩ := hvs m
    exact ⟨_, _, _, by simpa using .moreDeclarations hs hss, by simp [← Multiset.coe_add, hv, hv']⟩

theorem has_functions
    (hcs : cs ∈ (Ebnf.star (.nonterminal .function)).denote meaning) : cs ∈ Has .functions := by
  apply mem_of_star _ _ hcs
  · exact fun n => ⟨_, _, _, .noFunction, rfl⟩
  · intro us hus vs hvs n
    obtain ⟨f, m, ds, hf, hv⟩ := hus n
    obtain ⟨fs, k, es, hfs, hv'⟩ := hvs m
    exact ⟨_, _, _, by simpa using .moreFunctions hf hfs, by simp [← Multiset.coe_add, hv, hv']⟩

end Lists

section Statements

variable {cs : List ParseTree}

theorem mem_exprStmt (hcs : cs ∈ (Ebnf.rule .exprStmt).denote meaning) :
    [.node .exprStmt cs] ∈ meaning .exprStmt := by
  simp only [Ebnf.rule, mem_all_cons, mem_all_nil, Ebnf.mark, mem_kind] at hcs
  obtain ⟨us, _, rfl, ⟨c, rfl, hc⟩, _, _, rfl, ⟨s, rfl, hs⟩, rfl⟩ := hcs
  exact ⟨[c], s, rfl, hs, hc⟩

theorem mem_block (hcs : cs ∈ (Ebnf.rule .block).denote meaning) :
    [.node .block cs] ∈ meaning .block := by
  simp only [Ebnf.rule, mem_all_cons, mem_all_nil, Ebnf.mark, mem_kind] at hcs
  obtain ⟨_, _, rfl, ⟨o, rfl, ho⟩, us, _, rfl, hus, _, _, rfl, ⟨c, rfl, hc⟩, rfl⟩ := hcs
  exact ⟨o, us, c, rfl, ho, has_declarations hus, hc⟩

theorem has_initializer (hcs : cs ∈ (Ebnf.oneOf [.mark .semicolon, .nonterminal .varDecl,
    .nonterminal .exprStmt]).denote meaning) : cs ∈ Has .initializer := by
  intro n
  simp only [Ebnf.oneOf, mem_alt, Ebnf.mark, mem_kind] at hcs
  rcases hcs with ⟨s, rfl, hs⟩ | hcs | ⟨us, s, rfl, hs, hus⟩
  · exact ⟨_, _, _, .noInitializer hs, rfl⟩
  · obtain ⟨s, k, ds, hs, hv⟩ := hcs n
    exact ⟨_, _, _, .variableInitializer hs, hv⟩
  · obtain ⟨e, k, ds, he, hv⟩ := hus n
    exact ⟨_, _, _, by simpa using .expressionInitializer he hs, by simpa [own] using hv⟩

theorem has_varDecl (hcs : cs ∈ (Ebnf.rule .varDecl).denote meaning) : cs ∈ Has .varDeclaration := by
  intro n
  simp only [Ebnf.rule, mem_all_cons, mem_all_nil, mem_optional, Ebnf.mark, Ebnf.word, Ebnf.name,
    mem_kind] at hcs
  obtain ⟨_, _, rfl, ⟨w, rfl, hw⟩, _, _, rfl, ⟨x, rfl, hx⟩, us, _, rfl, hus, _, _, rfl,
    ⟨s, rfl, hs⟩, rfl⟩ := hcs
  rcases hus with ⟨_, _, rfl, ⟨q, rfl, hq⟩, _, _, rfl, ⟨c, rfl, hc⟩, rfl⟩ | rfl
  · obtain ⟨e, k, ds, he, hv⟩ := hc n
    have h := Derives.initialized hw hx hq he hs
    exact ⟨_, _, _, by simpa using h, by simpa using hv⟩
  · exact ⟨_, _, _, .bareVariable hw hx hs, rfl⟩

theorem has_forStmt (hcs : cs ∈ (Ebnf.rule .forStmt).denote meaning) :
    cs ∈ meaning .forStmt := by
  intro n
  rw [Ebnf.rule, mem_all_cons] at hcs
  obtain ⟨_, _, rfl, hw, hcs⟩ := hcs
  simp only [mem_all_cons, mem_all_nil, Ebnf.mark, Ebnf.word, mem_kind] at hw hcs
  obtain ⟨w, rfl, hw⟩ := hw
  obtain ⟨_, _, rfl, ⟨o, rfl, ho⟩, us, _, rfl, hi, vs, _, rfl, he, _, _, rfl, ⟨s, rfl, hs⟩,
    ws, _, rfl, hn, _, _, rfl, ⟨c, rfl, hc⟩, xs, _, rfl, hb, rfl⟩ := hcs
  obtain ⟨i, m, ds, hi, hvi⟩ := has_initializer hi n
  obtain ⟨e, j, es, he, hve⟩ := has_optional he m
  obtain ⟨e', l, fs, hn, hvn⟩ := has_optional hn j
  obtain ⟨⟨d, body⟩, k, gs, hb, hvb⟩ := hb l
  have h := Derives.forDo hw ho hi he hs hn hc hb
  exact ⟨⟨d, _⟩, _, _, by simpa using h, by simp [← Multiset.coe_add, hvi, hve, hvn, hvb]⟩

theorem has_ifStmt (hcs : cs ∈ (Ebnf.rule .ifStmt).denote meaning) : cs ∈ meaning .ifStmt := by
  intro n
  simp only [Ebnf.rule, mem_all_cons, mem_all_nil, mem_optional, Ebnf.mark, Ebnf.word,
    mem_kind] at hcs
  obtain ⟨_, _, rfl, ⟨w, rfl, hw⟩, _, _, rfl, ⟨o, rfl, ho⟩, _, _, rfl, ⟨t, rfl, ht⟩, _, _, rfl,
    ⟨c, rfl, hc⟩, vs, _, rfl, hy, ws, _, rfl, hn, rfl⟩ := hcs
  obtain ⟨e, m, ds, he, hv⟩ := ht n
  obtain ⟨⟨d, yes⟩, j, es, hy, hvy⟩ := hy m
  rcases hn with ⟨_, _, rfl, ⟨l, rfl, hl⟩, xs, _, rfl, hn, rfl⟩ | rfl
  · obtain ⟨⟨d', no⟩, k, fs, hn, hvn⟩ := hn j
    have h := Derives.ifElse hw ho he hc hy trivial hl hn
    exact ⟨⟨d', _⟩, _, _, by simpa using h, by simp [← Multiset.coe_add, hv, hvy, hvn]⟩
  · have h := Derives.ifThen hw ho he hc hy
    exact ⟨⟨true, _⟩, _, _, by simpa using h, by simp [← Multiset.coe_add, hv, hvy]⟩

theorem has_whileStmt (hcs : cs ∈ (Ebnf.rule .whileStmt).denote meaning) :
    cs ∈ meaning .whileStmt := by
  intro n
  simp only [Ebnf.rule, mem_all_cons, mem_all_nil, Ebnf.mark, Ebnf.word, mem_kind] at hcs
  obtain ⟨_, _, rfl, ⟨w, rfl, hw⟩, _, _, rfl, ⟨o, rfl, ho⟩, _, _, rfl, ⟨t, rfl, ht⟩, _, _, rfl,
    ⟨c, rfl, hc⟩, vs, _, rfl, hb, rfl⟩ := hcs
  obtain ⟨e, m, ds, he, hv⟩ := ht n
  obtain ⟨⟨d, body⟩, k, es, hb, hvb⟩ := hb m
  have h := Derives.whileDo hw ho he hc hb
  exact ⟨⟨d, _⟩, _, _, by simpa using h, by simp [← Multiset.coe_add, hv, hvb]⟩

theorem has_printStmt (hcs : cs ∈ (Ebnf.rule .printStmt).denote meaning) :
    cs ∈ meaning .printStmt := by
  intro n
  simp only [Ebnf.rule, mem_all_cons, mem_all_nil, Ebnf.mark, Ebnf.word, mem_kind] at hcs
  obtain ⟨_, _, rfl, ⟨w, rfl, hw⟩, _, _, rfl, ⟨c, rfl, hc⟩, _, _, rfl, ⟨s, rfl, hs⟩, rfl⟩ := hcs
  obtain ⟨e, k, ds, he, hv⟩ := hc n
  have h := Derives.print hw he hs
  exact ⟨⟨false, _⟩, _, _, by simpa using h, by simpa using hv⟩

theorem has_returnStmt (hcs : cs ∈ (Ebnf.rule .returnStmt).denote meaning) :
    cs ∈ meaning .returnStmt := by
  intro n
  simp only [Ebnf.rule, mem_all_cons, mem_all_nil, Ebnf.mark, Ebnf.word, mem_kind] at hcs
  obtain ⟨_, _, rfl, ⟨w, rfl, hw⟩, us, _, rfl, he, _, _, rfl, ⟨s, rfl, hs⟩, rfl⟩ := hcs
  obtain ⟨e, k, ds, he, hv⟩ := has_optional he n
  have h := Derives.returns hw he hs
  exact ⟨⟨false, _⟩, _, _, by simpa using h, by simpa using hv⟩

theorem has_statement (hcs : cs ∈ (Ebnf.rule .statement).denote meaning) :
    cs ∈ meaning .statement := by
  simp only [Ebnf.rule, Ebnf.oneOf, mem_alt] at hcs
  rcases hcs with h | h | h | h | h | ⟨o, us, c, rfl, ho, hus, hc⟩ | ⟨us, s, rfl, hs, hus⟩
  · exact h
  · exact h
  · exact h
  · exact h
  · exact h
  · intro n
    obtain ⟨ss, k, ds, hss, hv⟩ := hus n
    have h := Derives.block ho hss hc
    exact ⟨⟨false, _⟩, _, _, by simpa using h, by simpa [own] using hv⟩
  · intro n
    obtain ⟨e, k, ds, he, hv⟩ := hus n
    have h := Derives.expression he hs
    exact ⟨⟨false, _⟩, _, _, by simpa using h, by simpa [own] using hv⟩

theorem has_function (hcs : cs ∈ (Ebnf.rule .function).denote meaning) : cs ∈ Has .function := by
  intro n
  simp only [Ebnf.rule, mem_all_cons, mem_all_nil, mem_optional, Ebnf.mark, Ebnf.name,
    mem_kind] at hcs
  obtain ⟨_, _, rfl, ⟨x, rfl, hx⟩, _, _, rfl, ⟨o, rfl, ho⟩, us, _, rfl, hps, _, _, rfl,
    ⟨c, rfl, hc⟩, _, _, rfl, ⟨b, vs, d, rfl, hb, hss, hd⟩, rfl⟩ := hcs
  rcases hps with hps | rfl
  · obtain ⟨ps, m, ds, hp, hv⟩ := hps n
    obtain ⟨ss, k, es, hss, hv'⟩ := hss m
    have h := Derives.function hx ho (.someParameter hp) hc hb hss hd
    exact ⟨_, _, _, by simpa using h, by simp [← Multiset.coe_add, hv, hv', own]⟩
  · obtain ⟨ss, k, es, hss, hv⟩ := hss n
    have h := Derives.function hx ho .noParameter hc hb hss hd
    exact ⟨_, _, _, by simpa using h, by simpa [own] using hv⟩

theorem has_classDecl (hcs : cs ∈ (Ebnf.rule .classDecl).denote meaning) :
    cs ∈ meaning .classDecl := by
  intro n
  simp only [Ebnf.rule, mem_all_cons, mem_all_nil, mem_optional, Ebnf.mark, Ebnf.word, Ebnf.name,
    mem_kind] at hcs
  obtain ⟨_, _, rfl, ⟨w, rfl, hw⟩, _, _, rfl, ⟨x, rfl, hx⟩, us, _, rfl, hr, _, _, rfl,
    ⟨o, rfl, ho⟩, vs, _, rfl, hfs, _, _, rfl, ⟨c, rfl, hc⟩, rfl⟩ := hcs
  rcases hr with ⟨_, _, rfl, ⟨l, rfl, hl⟩, _, _, rfl, ⟨y, rfl, hy⟩, rfl⟩ | rfl
  · obtain ⟨fs, k, ds, hfs, hv⟩ := has_functions hfs (n + 1)
    have h := Derives.declaredClass hw hx (.someSuperclass hl hy) ho hfs hc
    exact ⟨_, _, _, by simpa using h, by simpa using hv⟩
  · obtain ⟨fs, k, ds, hfs, hv⟩ := has_functions hfs n
    have h := Derives.declaredClass hw hx .noSuperclass ho hfs hc
    exact ⟨_, _, _, by simpa using h, by simpa using hv⟩

theorem has_funDecl (hcs : cs ∈ (Ebnf.rule .funDecl).denote meaning) : cs ∈ meaning .funDecl := by
  intro n
  simp only [Ebnf.rule, mem_all_cons, mem_all_nil, Ebnf.word, mem_kind] at hcs
  obtain ⟨_, _, rfl, ⟨w, rfl, hw⟩, us, _, rfl, hf, rfl⟩ := hcs
  obtain ⟨f, k, ds, hf, hv⟩ := hf n
  exact ⟨_, _, _, by simpa using .declaredFunction hw hf, by simpa using hv⟩

theorem has_declaration (hcs : cs ∈ (Ebnf.rule .declaration).denote meaning) :
    cs ∈ meaning .declaration := by
  simp only [Ebnf.rule, Ebnf.oneOf, mem_alt] at hcs
  rcases hcs with h | h | h | h
  · exact h
  · exact h
  · intro n
    obtain ⟨s, k, ds, hs, hv⟩ := h n
    exact ⟨_, _, _, .declaredVariable hs, hv⟩
  · intro n
    obtain ⟨⟨d, s⟩, k, ds, hs, hv⟩ := h n
    exact ⟨_, _, _, .declaredStatement hs, hv⟩

theorem mem_program (hcs : cs ∈ (Ebnf.rule .program).denote meaning) :
    [.node .program cs] ∈ meaning .program := by
  simp only [Ebnf.rule, mem_all_cons, mem_all_nil, mem_kind] at hcs
  obtain ⟨us, _, rfl, hus, _, _, rfl, ⟨t, rfl, ht⟩, rfl⟩ := hcs
  exact ⟨us, t, rfl, ht, has_declarations hus⟩

theorem mem_input (hcs : cs ∈ (Ebnf.rule .input).denote meaning) :
    [.node .input cs] ∈ meaning .input := by
  simp only [Ebnf.rule, mem_all_cons, mem_all_nil, mem_kind] at hcs
  obtain ⟨_, _, rfl, ⟨c, rfl, hc⟩, _, _, rfl, ⟨t, rfl, ht⟩, rfl⟩ := hcs
  exact ⟨[c], t, rfl, ht, hc⟩

end Statements

/-- No rule leaves what the nonterminals mean. -/
theorem node_mem_meaning (r : Nonterminal) (cs : List ParseTree)
    (hcs : cs ∈ (Ebnf.rule r).denote meaning) : [.node r cs] ∈ meaning r := by
  cases r with
  | program => exact mem_program hcs
  | input => exact mem_input hcs
  | declaration => exact has_node rfl (has_declaration hcs)
  | classDecl => exact has_node rfl (has_classDecl hcs)
  | funDecl => exact has_node rfl (has_funDecl hcs)
  | function => exact has_node rfl (has_function hcs)
  | varDecl => exact has_node rfl (has_varDecl hcs)
  | statement => exact has_node rfl (has_statement hcs)
  | exprStmt => exact mem_exprStmt hcs
  | forStmt => exact has_node rfl (has_forStmt hcs)
  | ifStmt => exact has_node rfl (has_ifStmt hcs)
  | printStmt => exact has_node rfl (has_printStmt hcs)
  | returnStmt => exact has_node rfl (has_returnStmt hcs)
  | whileStmt => exact has_node rfl (has_whileStmt hcs)
  | block => exact mem_block hcs
  | parameters => exact has_parameters hcs
  | arguments => exact has_arguments hcs
  | level l =>
    cases l with
    | assignment => exact ⟨_, rfl, has_assignment hcs⟩
    | chain c => exact has_chain hcs
    | unary => exact has_unary hcs
    | call => exact has_call hcs
    | primary => exact has_primary hcs

/-- What has a parse tree has a derivation with the violations of the parse tree. -/
theorem Parses.mem_meaning {e : Ebnf} {cs : List ParseTree} (h : Parses e cs) :
    cs ∈ e.denote meaning := h.denote node_mem_meaning

end Lox.Grammar
