import Mathlib
import Lox.Proofs.Grammar.Anywhere
import Lox.Proofs.Grammar.ExpressionCompleteness
import Lox.Proofs.Grammar.RelaxedDerivation

/-!
# An expression behind an expression

Two expressions one behind the other, the second with a parenthesis or a minus in front, are
one expression: the parenthesis opens the arguments of a call, and the minus subtracts. To
respect the levels of precedence, the second one is taken apart from the left, into what
extends an expression of the tightest level, of the next one and so on, and the right end of
the first one takes up these parts on its way to the loosest level.
-/

set_option autoImplicit false

namespace Lox.Grammar

variable {before : Bool → Prop} {c : Chain} {e f g : Expr} {ts us : List Token} {n m k : Nat}
  {ds es : List Diagnostic}

section Append

theorem Derives.suffixes_append (h : Derives before (.suffixes f e) ts n m ds)
    (h' : Derives before (.suffixes e g) us m k es) :
    Derives before (.suffixes f g) (ts ++ us) n k (ds ++ es) := by
  generalize hp : Phrase.suffixes f e = p at h
  induction h generalizing f with
  | noSuffix =>
    cases hp
    exact h'
  | emptyCall ho hc _ ih =>
    cases hp
    exact .emptyCall ho hc (ih h' rfl)
  | argumentCall ho ha hc _ _ ih =>
    cases hp
    have h := Derives.argumentCall ho ha hc (ih h' rfl)
    simpa using h
  | property hd hx _ ih =>
    cases hp
    exact .property hd hx (ih h' rfl)
  | _ => cases hp

theorem Derives.operands_append (h : Derives before (.operands c f e) ts n m ds)
    (h' : Derives before (.operands c e g) us m k es) :
    Derives before (.operands c f g) (ts ++ us) n k (ds ++ es) := by
  generalize hp : Phrase.operands c f e = p at h
  induction h generalizing f with
  | noOperand =>
    cases hp
    exact h'
  | operand ho hr _ _ ih =>
    cases hp
    have h := Derives.operand ho hr (ih h' rfl)
    simpa using h
  | _ => cases hp

theorem Derives.call_append (h : Derives before (.expr .call e) ts n m ds)
    (h' : Derives before (.suffixes e g) us m k es) :
    Derives before (.expr .call g) (ts ++ us) n k (ds ++ es) := by
  cases h with
  | call hp hs =>
    have h := Derives.call hp (hs.suffixes_append h')
    simpa using h

namespace Anywhere

theorem operands_append (h : ∀ e, Anywhere (.operands c e) ts)
    (h' : ∀ e, Anywhere (.operands c e) us) (e : Expr) : Anywhere (.operands c e) (ts ++ us) := by
  intro n
  obtain ⟨f, m, hf⟩ := h e n
  obtain ⟨g, k, hg⟩ := h' f m
  exact ⟨g, k, hf.operands_append hg⟩

theorem call_append (h : Anywhere (.expr .call) ts) (h' : ∀ f, Anywhere (.suffixes f) us) :
    Anywhere (.expr .call) (ts ++ us) := by
  intro n
  obtain ⟨e, m, he⟩ := h n
  obtain ⟨g, k, hg⟩ := h' e m
  exact ⟨g, k, he.call_append hg⟩

theorem chain (h : Anywhere (.expr c.operand) ts) (h' : ∀ e, Anywhere (.operands c e) us) :
    Anywhere (.expr (.chain c)) (ts ++ us) := by
  intro n
  obtain ⟨e, m, he⟩ := h n
  obtain ⟨g, k, hg⟩ := h' e m
  exact ⟨g, k, .chain he hg⟩

/-- An operator and its operand. -/
theorem operand {op : Token} (ho : c.operator op.kind = true) (h : Anywhere (.expr c.operand) ts)
    (e : Expr) : Anywhere (.operands c e) (op :: ts) := by
  intro n
  obtain ⟨f, m, hf⟩ := h n
  have h := Derives.operand (l := e) ho hf .noOperand
  exact ⟨_, m, by simpa using h⟩

theorem operator {op : Token} (ho : isUnaryOperator op.kind = true) (h : Anywhere (.expr .unary) ts) :
    Anywhere (.expr .unary) (op :: ts) := by
  intro n
  obtain ⟨e, k, he⟩ := h n
  exact ⟨_, k, .operator ho he⟩

theorem noOperator (h : Anywhere (.expr .call) ts) : Anywhere (.expr .unary) ts := by
  intro n
  obtain ⟨e, k, he⟩ := h n
  exact ⟨e, k, .noOperator he⟩

end Anywhere

end Append

/-- What can stand behind an expression of a level to make it one of the loosest level: what
is left of the level, and what extends the next one. -/
inductive Extends : Level → List Token → Prop
  | suffixes {ts us : List Token} (hs : ∀ f, Anywhere (.suffixes f) ts) (hu : Extends .unary us) :
      Extends .call (ts ++ us)
  | operands {c : Chain} {l : Level} {ts us : List Token} (hl : l = c.operand)
      (ho : ∀ e, Anywhere (.operands c e) ts) (hu : Extends (.chain c) us) : Extends l (ts ++ us)
  | done : Extends (.chain .or) []
  | assigned {q : Token} {us : List Token} (hq : q.kind = .mark .equal)
      (hv : Anywhere (.expr .assignment) us) : Extends (.chain .or) (q :: us)

namespace Extends

theorem call_inv (h : Extends .call us) :
    ∃ ss vs, us = ss ++ vs ∧ (∀ f, Anywhere (.suffixes f) ss) ∧ Extends .unary vs := by
  cases h with
  | suffixes hs hu => exact ⟨_, _, rfl, hs, hu⟩
  | @operands c _ _ _ hl => cases c <;> cases hl

theorem operand_inv (h : Extends c.operand us) :
    ∃ os vs, us = os ++ vs ∧ (∀ e, Anywhere (.operands c e) os) ∧ Extends (.chain c) vs := by
  generalize hl : c.operand = l at h
  cases h with
  | @operands c' _ _ _ hl' ho hu =>
    obtain rfl : c = c' := by
      rw [hl'] at hl
      cases c <;> cases c' <;> first | rfl | cases hl
    exact ⟨_, _, rfl, ho, hu⟩
  | suffixes | done | assigned => cases c <;> cases hl

theorem or_inv (h : Extends (.chain .or) us) : us = [] ∨
    ∃ q vs, us = q :: vs ∧ q.kind = .mark .equal ∧ Anywhere (.expr .assignment) vs := by
  cases h with
  | operands hl => rename_i c _ _ _ _; cases c <;> cases hl
  | done => exact .inl rfl
  | assigned hq hv => exact .inr ⟨_, _, rfl, hq, hv⟩

/-- Nothing has to be added on the tighter levels. -/
theorem tighter (hu : Extends (.chain c) us) : Extends c.operand us :=
  @operands c _ [] us rfl (fun _ _ => ⟨_, _, .noOperand⟩) hu

theorem unary_of_or (hu : Extends (.chain .or) us) : Extends .unary us :=
  have and : Extends (.chain .and) us := hu.tighter
  have equality : Extends (.chain .equality) us := and.tighter
  have comparison : Extends (.chain .comparison) us := equality.tighter
  have term : Extends (.chain .term) us := comparison.tighter
  have factor : Extends (.chain .factor) us := term.tighter
  factor.tighter

end Extends

section Absorbing

variable {l : Level}

/-- At the right end of a phrase there is an expression of the level `l`: whatever extends it
makes the phrase one of the same form and leaves what extends that. -/
def Phrase.Absorbs (l : Level) (us : List Token) : Phrase → List Token → Prop
  | .expr l' _, ts => l' ≠ .assignment → l.rank ≤ l'.rank →
    ∃ vs ws, us = vs ++ ws ∧ Grammar.Anywhere (.expr l') (ts ++ vs) ∧ Extends l' ws
  | .operands c _ _, ts => ts ≠ [] → l.rank ≤ c.operand.rank →
    ∃ vs ws, us = vs ++ ws ∧ (∀ e, Grammar.Anywhere (.operands c e) (ts ++ vs)) ∧
      Extends (.chain c) ws
  | _, _ => True

theorem rank_operand (hl : l = .call ∨ l = .chain .factor)
    (h : l.rank ≤ (Level.chain c).rank) : l = .chain c ∨ l.rank ≤ c.operand.rank := by
  rcases hl with rfl | rfl <;> cases c <;> simp_all [Level.rank, Chain.operand]

theorem Derives.absorbs {p : Phrase} (h : Derives Complete p ts n k ds) (hds : ds = [])
    (hl : l = .call ∨ l = .chain .factor) (hu : Extends l us) : p.Absorbs l us ts := by
  induction h with
  | literal | this | var | super | grouping =>
    intro _ hrank
    rcases hl with rfl | rfl <;> simp [Level.rank] at hrank
  | call hp hs =>
    intro _ hrank
    obtain rfl : l = .call := hl.resolve_right (by rintro rfl; simp [Level.rank] at hrank)
    have h : Anywhere (.expr .call) _ := (Derives.call hp hs).anywhere hds
    exact ⟨[], us, rfl, by simpa using h, hu⟩
  | operator ho _ ih =>
    intro _ hrank
    obtain ⟨vs, ws, hus, hvs, hws⟩ := ih hds (by simp) hrank
    exact ⟨vs, ws, hus, hvs.operator ho, hws⟩
  | noOperator _ ih =>
    intro _ hrank
    obtain rfl : l = .call := hl.resolve_right (by rintro rfl; simp [Level.rank] at hrank)
    obtain ⟨vs, ws, rfl, hvs, hws⟩ := ih hds (by simp) (Nat.le_refl _)
    obtain ⟨ss, ws, rfl, hss, hws⟩ := hws.call_inv
    refine ⟨vs ++ ss, ws, by simp, ?_, hws⟩
    rw [← List.append_assoc]
    exact (hvs.call_append hss).noOperator
  | @chain c _ _ ts os _ _ _ _ _ hfirst ho ihl iho =>
    intro _ hrank
    rcases rank_operand hl hrank with rfl | hrank
    · have h : Anywhere (.expr (.chain c)) _ := (Derives.chain hfirst ho).anywhere hds
      exact ⟨[], us, rfl, by simpa using h, hu⟩
    obtain ⟨hds, hes⟩ := List.append_eq_nil_iff.1 hds
    by_cases hos : os = []
    · obtain ⟨vs, ws, rfl, hvs, hws⟩ := ihl hds (by cases c <;> simp [Chain.operand]) hrank
      obtain ⟨os', ws, rfl, hos', hws⟩ := hws.operand_inv
      refine ⟨vs ++ os', ws, by simp, ?_, hws⟩
      rw [hos, List.append_nil, ← List.append_assoc]
      exact hvs.chain hos'
    · obtain ⟨vs, ws, rfl, hvs, hws⟩ := iho hes hos hrank
      refine ⟨vs, ws, rfl, ?_, hws⟩
      rw [List.append_assoc]
      exact Anywhere.chain (hfirst.anywhere hds) hvs
  | noOperand => exact fun h => absurd rfl h
  | @operand c _ _ _ op ts os _ _ _ _ _ ho hr hs ihr ihs =>
    intro _ hrank
    obtain ⟨hds, hes⟩ := List.append_eq_nil_iff.1 hds
    by_cases hos : os = []
    · obtain ⟨vs, ws, rfl, hvs, hws⟩ := ihr hds (by cases c <;> simp [Chain.operand]) hrank
      obtain ⟨os', ws, rfl, hos', hws⟩ := hws.operand_inv
      refine ⟨vs ++ os', ws, by simp, ?_, hws⟩
      have h := Anywhere.operands_append (Anywhere.operand ho hvs) hos'
      simpa [hos] using h
    · obtain ⟨vs, ws, rfl, hvs, hws⟩ := ihs hes hos hrank
      refine ⟨vs, ws, rfl, ?_, hws⟩
      have h := Anywhere.operands_append (Anywhere.operand ho (hr.anywhere hds)) hvs
      simpa using h
  | noAssignment | assignVar | assignProperty | invalidTarget => exact fun h => absurd rfl h
  | _ => trivial

end Absorbing

section Opening

/-- A token that opens an expression and can also stand behind one, of this level. -/
def Reopens (l : Level) (t : Token) : Prop :=
  (l = .call ∧ t.kind = .mark .leftParen) ∨ (l = .chain .factor ∧ t.kind = .mark .minus)

/-- An expression with a parenthesis in front as the arguments of a call. -/
theorem Derives.suffixes_of_paren {t : Token} (h : Derives Complete (.expr .call e) ts n k ds)
    (hds : ds = []) (hts : ts.head? = some t) (ht : t.kind = .mark .leftParen) (f : Expr) :
    Anywhere (.suffixes f) ts := by
  cases h with
  | call hp hs =>
    obtain ⟨hds, hes⟩ := List.append_eq_nil_iff.1 hds
    cases hp with
    | grouping ho he hc =>
      intro n
      obtain ⟨x, m, hx⟩ := he.anywhere hds n
      have ha : Derives Complete (.arguments 0 [x]) _ n m _ := .argument hx
      rw [beyond_eq_nil (by decide), List.nil_append] at ha
      obtain ⟨g, k, hg⟩ := hs.anywhere hes (.call f _ [x]) m
      have h := Derives.argumentCall ho ha hc hg
      exact ⟨g, k, by simpa using h⟩
    | literal hk =>
      cases hts
      rw [ht] at hk
      cases hk
    | this hk | var hk | super hk =>
      cases hts
      rw [ht] at hk
      cases hk

/-- The tokens of the phrase, and what extends the phrase, extend an expression of the level. -/
def Phrase.Reopened (l : Level) : Phrase → List Token → Prop
  | .expr .assignment _, ts => Extends l ts
  | .expr .primary _, _ => True
  | .expr .call _, ts => ∀ us, Extends .unary us → Extends l (ts ++ us)
  | .expr l' _, ts => ∀ us, Extends l' us → Extends l (ts ++ us)
  | _, _ => True

theorem Reopens.not_primary {l : Level} {t : Token} (h : Reopens l t)
    (ht : startsPrimary t.kind = true) : l = .call ∧ t.kind = .mark .leftParen := by
  refine h.resolve_right ?_
  rintro ⟨-, hk⟩
  rw [hk] at ht
  cases ht

theorem Derives.reopened {p : Phrase} {l : Level} {t : Token} (h : Derives Complete p ts n k ds)
    (hds : ds = []) (hts : ts.head? = some t) (ht : Reopens l t) : p.Reopened l ts := by
  induction h with
  | literal | this | var | super | grouping => trivial
  | call hp hs =>
    obtain ⟨u, vs, rfl, hu⟩ := hp.starts rfl
    obtain rfl : u = t := Option.some.inj hts
    obtain ⟨rfl, hk⟩ := ht.not_primary hu
    intro ws hws
    exact .suffixes ((Derives.call hp hs).suffixes_of_paren hds hts hk) hws
  | @operator op _ ts _ _ _ ho he =>
    obtain rfl : op = t := Option.some.inj hts
    obtain ⟨rfl, hk⟩ | ⟨rfl, hk⟩ := ht
    · rw [hk] at ho
      cases ho
    intro ws hws
    -- The operand and the factors behind it are subtracted, and the terms follow.
    obtain ⟨fs, ws, rfl, hfs, hws⟩ := hws.operand_inv (c := .factor)
    obtain ⟨os, ws, rfl, hos, hws⟩ := hws.operand_inv (c := .term)
    have hfactor : Anywhere (.expr (.chain .factor)) (ts ++ fs) :=
      Anywhere.chain (c := .factor) (he.anywhere hds) hfs
    have hterm (e : Expr) : Anywhere (.operands .term e) (op :: (ts ++ fs)) :=
      Anywhere.operand (c := .term) (by rw [hk]; rfl) hfactor e
    have h := Extends.operands (c := .term) rfl (Anywhere.operands_append hterm hos) hws
    simpa [Chain.operand] using h
  | noOperator _ ih => exact ih hds hts
  | @chain c _ _ _ os _ _ _ _ _ hfirst ho ih =>
    obtain ⟨hds, hes⟩ := List.append_eq_nil_iff.1 hds
    obtain ⟨u, vs, rfl, -⟩ := hfirst.starts (s := startsExpression) (by cases c <;> rfl)
    have hfirst : ∀ us, Extends c.operand us → Extends l (u :: vs ++ us) := by
      cases c <;> exact ih hds hts
    intro ws hws
    rw [List.append_assoc]
    exact hfirst _ (.operands rfl (ho.anywhere hes) hws)
  | noAssignment _ ih =>
    have h := ih hds hts [] .done
    rwa [List.append_nil] at h
  | assignVar hx =>
    obtain rfl := Option.some.inj hts
    obtain ⟨-, hk⟩ := ht.not_primary (by rw [hx]; rfl)
    rw [hx] at hk
    cases hk
  | @assignProperty o v dot x q ts us _ _ _ _ _ ho hd hx hq hv =>
    obtain ⟨hds, hes⟩ := List.append_eq_nil_iff.1 hds
    have hget := ho.call_append (.property hd hx .noSuffix)
    obtain ⟨u, vs, rfl, hu⟩ := ho.starts rfl
    obtain rfl : u = t := Option.some.inj hts
    obtain ⟨rfl, hk⟩ := ht.not_primary hu
    have hs := hget.suffixes_of_paren (by simp [hds]) rfl hk
    have h := Extends.suffixes hs (Extends.assigned hq (hv.anywhere hes)).unary_of_or
    rw [List.append_assoc] at h
    exact h
  | invalidTarget => simp at hds
  | _ => trivial

end Opening

/-- Without violations but for one mark of an assignment, behind what cannot be assigned to. -/
def Mild (us : List Token) (ds : List Diagnostic) : Prop :=
  ds = [] ∨ ∃ q ∈ us, q.kind = .mark .equal ∧ ds = [fault .invalidTarget q]

theorem Derives.extended {l : Level} (h : Derives Complete (.expr .assignment e) ts n k ds)
    (hds : ds = []) (hl : l = .call ∨ l = .chain .factor) (hu : Extends l us) (j : Nat) :
    ∃ g k ds, Derives Complete (.expr .assignment g) (ts ++ us) j k ds ∧ Mild us ds := by
  generalize hp : Phrase.expr .assignment e = p at h
  induction h generalizing e j with
  | noAssignment he =>
    cases hp
    have hrank : l.rank ≤ (Level.chain .or).rank := by rcases hl with rfl | rfl <;> simp [Level.rank]
    obtain ⟨vs, ws, rfl, hvs, hws⟩ := he.absorbs hds hl hu (by simp) hrank
    obtain ⟨g, m, hg⟩ := hvs j
    obtain rfl | ⟨q, ws, rfl, hq, hv⟩ := hws.or_inv
    · exact ⟨g, m, [], by simpa using Derives.noAssignment hg, .inl rfl⟩
    · obtain ⟨v, k, hv⟩ := hv m
      obtain ⟨e, k, fs, he, hfs⟩ := assigned hg hq hv
      refine ⟨e, k, fs, by simpa using he, ?_⟩
      split at hfs
      · exact .inl (by simpa using hfs)
      · exact .inr ⟨q, by simp, hq, by simpa using hfs⟩
  | assignVar hx hq _ ih =>
    cases hp
    obtain ⟨v, k, ds, hv, hmild⟩ := ih hds (j + 1) rfl
    exact ⟨_, _, ds, .assignVar hx hq hv, hmild⟩
  | assignProperty ho hd hx hq _ _ ih =>
    cases hp
    obtain ⟨hds, hes⟩ := List.append_eq_nil_iff.1 hds
    obtain ⟨o, m, ho⟩ := ho.anywhere hds j
    obtain ⟨v, k, ds, hv, hmild⟩ := ih hes m rfl
    exact ⟨_, _, ds, by simpa using Derives.assignProperty ho hd hx hq hv, hmild⟩
  | invalidTarget => simp at hds
  | _ => cases hp

/-- Two expressions are one if a parenthesis or a minus is between them. -/
theorem Derives.juxtaposed {t : Token} (he : Derives Complete (.expr .assignment e) ts n m [])
    (hf : Derives Complete (.expr .assignment f) (t :: us) m k [])
    (ht : t.kind = .mark .leftParen ∨ t.kind = .mark .minus) (j : Nat) :
    ∃ g k ds, Derives Complete (.expr .assignment g) (ts ++ t :: us) j k ds ∧ Mild (t :: us) ds := by
  rcases ht with ht | ht
  · exact he.extended rfl (.inl rfl) (hf.reopened rfl rfl (.inl ⟨rfl, ht⟩)) j
  · exact he.extended rfl (.inr rfl) (hf.reopened rfl rfl (.inr ⟨rfl, ht⟩)) j

end Lox.Grammar
