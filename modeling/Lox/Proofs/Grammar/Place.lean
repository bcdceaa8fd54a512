import Mathlib
import Lox.Proofs.Grammar.Layer

/-!
# Where semicolons stand

Main statement: a semicolon of a program ends a statement, behind what stands in layers one
inside the other, or is one of the two between the parentheses of a `for`.
-/

set_option autoImplicit false

namespace Lox.Grammar

variable {ts us l r before after : List Token} {s : Token} {n k : Nat} {ds : List Diagnostic}
  {a b c : Form}

section Inside

/-- Neither the semicolon nor a word that begins a statement. -/
def inside (k : Kind) : Bool := k != .mark .semicolon && !startsStatement k

theorem ne_semicolon_of_inside {k : Kind} (h : inside k = true) : k ≠ .mark .semicolon := by
  rintro rfl
  cases h

theorem not_starts_of_inside {k : Kind} (h : inside k = true) : startsStatement k = false := by
  simp [inside] at h
  exact h.2

theorem inside_of_literal {k : Kind} {v : Literal} (h : literal? k = some v) : inside k = true := by
  unfold literal? at h
  split at h <;> first | rfl | cases h

theorem inside_of_unary {k : Kind} (h : isUnaryOperator k = true) : inside k = true := by
  simp only [isUnaryOperator, Bool.or_eq_true, beq_iff_eq] at h
  rcases h with rfl | rfl <;> rfl

theorem inside_of_operator {c : Chain} {k : Kind} (h : c.operator k = true) : inside k = true := by
  cases k with
  | mark m => cases c <;> cases m <;> first | rfl | cases h
  | word w => cases c <;> cases w <;> first | rfl | cases h
  | _ => rfl

/-- What stands in a statement without braces: expressions and parts of them, parameters and a
superclass. -/
def Phrase.inline : Phrase → Bool
  | .expr _ _ | .operands _ _ _ | .suffixes _ _ | .arguments _ _ | .optional _ => true
  | .superclass _ | .parameters _ _ | .someParameters _ => true
  | _ => false

theorem Derives.inside {before : Bool → Prop} {p : Phrase} (h : Derives before p ts n k ds)
    (hp : p.inline = true) : ∀ t ∈ ts, inside t.kind = true := by
  induction h with
  | literal ht => simpa using inside_of_literal ht
  | this ht | var ht | parameter ht => simp [ht]; rfl
  | super ht hd hx => simp [ht, hd, hx]; decide
  | grouping ho _ hc ih => simpa [ho, hc, or_imp, forall_and] using ⟨rfl, ih rfl, rfl⟩
  | call _ _ ihl ihr | chain _ _ ihl ihr =>
    exact List.forall_mem_append.2 ⟨ihl rfl, ihr rfl⟩
  | noSuffix | noOperand | noExpression | noSuperclass | noParameter => nofun
  | emptyCall ho hc _ ih | property ho hc _ ih => simpa [ho, hc] using ⟨rfl, rfl, ih rfl⟩
  | argumentCall ho _ hc _ iha ihs =>
    simpa [ho, hc, or_imp, forall_and] using ⟨rfl, iha rfl, rfl, ihs rfl⟩
  | argument _ ih | noOperator _ ih | noAssignment _ ih | someExpression _ ih | someParameter _ ih =>
    exact ih rfl
  | moreArguments _ hc _ ihe iha =>
    simpa [hc, or_imp, forall_and] using ⟨ihe rfl, rfl, iha rfl⟩
  | operator ho _ ih => simpa using ⟨inside_of_unary ho, ih rfl⟩
  | operand ho _ _ ihr ihs =>
    simpa [or_imp, forall_and] using ⟨inside_of_operator ho, ihr rfl, ihs rfl⟩
  | assignVar hx hq _ ih | moreParameters hx hq _ ih => simpa [hx, hq] using ⟨rfl, rfl, ih rfl⟩
  | assignProperty _ hd hx hq _ iho ihv =>
    simpa [hd, hx, hq, or_imp, forall_and] using ⟨iho rfl, rfl, rfl, rfl, ihv rfl⟩
  | invalidTarget _ _ hq _ ihe ihv =>
    simpa [hq, or_imp, forall_and] using ⟨ihe rfl, rfl, ihv rfl⟩
  | someSuperclass hl hx => simp [hl, hx]; decide
  | _ => cases hp

/-- The tokens are none of those that end a statement. -/
def Unbroken (ts : List Token) : Prop := ∀ t ∈ ts, t.kind ≠ .mark .semicolon

theorem Derives.unbroken {before : Bool → Prop} {p : Phrase} (h : Derives before p ts n k ds)
    (hp : p.inline = true) : Unbroken ts :=
  fun t ht => ne_semicolon_of_inside (h.inside hp t ht)

theorem Unbroken.append (h : Unbroken ts) (h' : Unbroken us) : Unbroken (ts ++ us) :=
  List.forall_mem_append.2 ⟨h, h'⟩

theorem Unbroken.cons {t : Token} {k : Kind} (ht : t.kind = k) (hk : k ≠ .mark .semicolon)
    (h : Unbroken ts) : Unbroken (t :: ts) :=
  List.forall_mem_cons.2 ⟨ht ▸ hk, h⟩

theorem unbroken_nil : Unbroken [] := nofun

end Inside

section Cutting

/-- A token of two lists one behind the other is in the first or in the second. -/
theorem cut (h : l ++ r = before ++ s :: after) :
    (∃ x, l = before ++ s :: x ∧ after = x ++ r) ∨ ∃ x, before = l ++ x ∧ r = x ++ s :: after := by
  rcases List.append_eq_append_iff.1 h with ⟨x, hx, hr⟩ | ⟨x, rfl, hx⟩
  · exact .inr ⟨x, hx, hr⟩
  · cases x with
    | nil => exact .inr ⟨[], by simp, hx.symm⟩
    | cons t x =>
      obtain ⟨rfl, rfl⟩ := List.cons.inj hx
      exact .inl ⟨x, rfl, rfl⟩

theorem cut_left (hs : s.kind = .mark .semicolon) (hl : Unbroken l)
    (h : l ++ r = before ++ s :: after) : ∃ x, before = l ++ x ∧ r = x ++ s :: after :=
  (cut h).resolve_left fun ⟨_, hx, _⟩ => hl s (by simp [hx]) hs

theorem cut_right (hs : s.kind = .mark .semicolon) (hr : Unbroken r)
    (h : l ++ r = before ++ s :: after) : ∃ x, l = before ++ s :: x ∧ after = x ++ r :=
  (cut h).resolve_right fun ⟨_, _, hx⟩ => hr s (by simp [hx]) hs

/-- The semicolon is the last one of the tokens. -/
theorem cut_last {s' : Token} (hs : s.kind = .mark .semicolon) (hl : Unbroken l)
    (h : l ++ [s'] = before ++ s :: after) : before = l ∧ after = [] := by
  obtain ⟨x, rfl, hx⟩ := cut_left hs hl h
  cases x with
  | nil => exact ⟨List.append_nil l, (List.cons.inj hx).2.symm⟩
  | cons t x => simp at hx

end Cutting

section Placed

/-- What stands between the parentheses of a `for`. -/
inductive Clauses : List Token → Prop
  | mk {s : Token} {ts us vs : List Token} (hi : Anywhere .initializer ts) (he : Anywhere .optional us)
      (hs : s.kind = .mark .semicolon) (hn : Anywhere .optional vs) : Clauses (ts ++ us ++ s :: vs)

/-- The semicolon is one of those between the parentheses of a `for`. -/
def InClauses (a : Form) (before : List Token) (s : Token) (after : List Token) : Prop :=
  ∃ d l r w o xs ys c body, Nested Layer a (.statement d) l r ∧ w.kind = .word .for ∧
    o.kind = .mark .leftParen ∧ Clauses (xs ++ s :: ys) ∧ c.kind = .mark .rightParen ∧
    Anywhere (.statement d) body ∧ before = l ++ w :: o :: xs ∧ after = ys ++ c :: body ++ r

/-- What is between the tokens ends a statement. -/
def EndsStatement (a : Form) (before after : List Token) : Prop :=
  ∃ b l ts r, Nested Layer a b l r ∧ Unended b ts ∧ before = l ++ ts ∧ after = r

def Placed (a : Form) (before : List Token) (s : Token) (after : List Token) : Prop :=
  EndsStatement a before after ∨ InClauses a before s after

theorem Unended.here (h : Unended a ts) : Placed a ts s [] :=
  .inl ⟨a, [], ts, [], .here, h, rfl, rfl⟩

theorem Placed.within (h : Layer a b l r) (hp : Placed b before s after) :
    Placed a (l ++ before) s (after ++ r) := by
  rcases hp with ⟨c, l', ts, r', hn, hu, rfl, rfl⟩ | ⟨d, l', r', w, o, xs, ys, c, body, hn, hp⟩
  · exact .inl ⟨c, _, ts, _, .inside h hn, hu, by simp, rfl⟩
  · obtain ⟨hw, ho, hxs, hc, hb, rfl, rfl⟩ := hp
    exact .inr ⟨d, _, _, w, o, xs, ys, c, body, .inside h hn, hw, ho, hxs, hc, hb, by simp, by simp⟩

theorem Anywhere.append (h : Anywhere .declarations ts) (h' : Anywhere .declarations us) :
    Anywhere .declarations (ts ++ us) := by
  intro n
  obtain ⟨ss, m, hs⟩ := h n
  obtain ⟨vs, k, hv⟩ := h' m
  exact ⟨_, k, hs.append hv⟩

theorem Anywhere.functions_append (h : Anywhere .functions ts) (h' : Anywhere .functions us) :
    Anywhere .functions (ts ++ us) := by
  intro n
  obtain ⟨fs, m, hf⟩ := h n
  obtain ⟨gs, k, hg⟩ := h' m
  exact ⟨_, k, hf.functions_append hg⟩

theorem anywhere_noDeclaration : Anywhere .declarations [] := fun _ => ⟨_, _, .noDeclaration⟩

theorem anywhere_noFunction : Anywhere .functions [] := fun _ => ⟨_, _, .noFunction⟩

/-- Declarations in front of a list of them. -/
theorem Nested.behind {enclosed : Bool} (h : Nested Layer (.declarations enclosed) b l r)
    (hb : b ≠ .declarations enclosed) (hts : Anywhere .declarations ts) :
    Nested Layer (.declarations enclosed) b (ts ++ l) r := by
  cases h with
  | here => exact absurd rfl hb
  | inside h hn =>
    cases h with
    | item hl hr =>
      rw [← List.append_assoc]
      exact .inside (.item (hts.append hl) hr) hn
    | branch h => cases h

theorem Unended.ne {enclosed : Bool} (h : Unended a ts) : a ≠ .declarations enclosed := by
  cases h <;> nofun

theorem Placed.behind {enclosed : Bool} (hp : Placed (.declarations enclosed) before s after)
    (hts : Anywhere .declarations ts) : Placed (.declarations enclosed) (ts ++ before) s after := by
  rcases hp with ⟨c, l, us, r, hn, hu, rfl, rfl⟩ | ⟨d, l, r, w, o, xs, ys, c, body, hn, hp⟩
  · exact .inl ⟨c, _, us, _, hn.behind hu.ne hts, hu, by simp, rfl⟩
  · obtain ⟨hw, ho, hxs, hc, hb, rfl, rfl⟩ := hp
    exact .inr ⟨d, _, _, w, o, xs, ys, c, body, hn.behind nofun hts, hw, ho, hxs, hc, hb, by simp,
      by simp⟩

end Placed

section Places

/-- Between these tokens the semicolon has its place in a phrase of this form. -/
def Phrase.Places (s : Token) : Phrase → List Token → List Token → Prop
  | .varDeclaration _, before, after => Unended .declaration before ∧ after = []
  | .initializer _, _, _ => True
  | .statement d _, before, after => Placed (.statement d) before s after
  | .declaration _, before, after => Placed .declaration before s after
  | .declarations _, before, after => ∀ enclosed, Placed (.declarations enclosed) before s after
  | .function _, before, after => ∃ head d xs ys, Signature head ∧ d.kind = .mark .rightBrace ∧
    Placed (.declarations true) xs s ys ∧ before = head ++ xs ∧ after = ys ++ [d]
  | .functions _, before, after => ∃ us vs head d xs ys, Grammar.Anywhere .functions us ∧
    Grammar.Anywhere .functions vs ∧ Signature head ∧ d.kind = .mark .rightBrace ∧
    Placed (.declarations true) xs s ys ∧ before = us ++ head ++ xs ∧ after = ys ++ d :: vs
  | _, _, _ => False

theorem Derives.places {p : Phrase} (h : Derives Complete p ts n k ds) (hds : ds = [])
    (hs : s.kind = .mark .semicolon) (hts : ts = before ++ s :: after) (hp : p.inline = false) :
    p.Places s before after := by
  induction h generalizing before after with
  | expression he =>
    obtain ⟨rfl, rfl⟩ := cut_last hs (he.unbroken rfl) hts
    exact (Unended.expression (he.anywhere hds)).here
  | print hw he =>
    obtain ⟨rfl, rfl⟩ := cut_last hs ((he.unbroken rfl).cons hw nofun) hts
    exact (Unended.print hw (he.anywhere hds)).here
  | returns hw he =>
    obtain ⟨rfl, rfl⟩ := cut_last hs ((he.unbroken rfl).cons hw nofun) hts
    exact (Unended.returns hw (he.anywhere hds)).here
  | @block o c _ ts _ _ _ ho _ hc ih =>
    obtain ⟨x, hx, rfl⟩ := cut_right hs (unbroken_nil.cons hc nofun) hts
    obtain ⟨y, rfl, rfl⟩ := cut_left (l := [o]) hs (unbroken_nil.cons ho nofun) hx
    exact (ih hds rfl rfl true).within (.block ho hc)
  | @ifThen w o c _ _ _ ts us _ _ _ _ _ hw ho he hc hy _ ih =>
    obtain ⟨hds, hes⟩ := List.append_eq_nil_iff.1 hds
    have hhead : Unbroken (w :: o :: ts ++ [c]) :=
      (((he.unbroken rfl).cons ho nofun).cons hw nofun).append (unbroken_nil.cons hc nofun)
    obtain ⟨x, rfl, rfl⟩ := cut_left (r := us) hs hhead (by simpa using hts)
    have h := (ih hes rfl rfl).within (.branch (.ifThen hw ho (he.anywhere hds) hc))
    simpa [Phrase.Places] using h
  | @ifElse w o c l _ _ _ d d' ts us vs _ _ _ _ _ _ _ hw ho he hc hy hb hl hn _ ihy ihn =>
    obtain ⟨hds, hfs⟩ := List.append_eq_nil_iff.1 hds
    obtain ⟨hds, hes⟩ := List.append_eq_nil_iff.1 hds
    obtain rfl : d = false := hb
    have hhead : Unbroken (w :: o :: ts ++ [c]) :=
      (((he.unbroken rfl).cons ho nofun).cons hw nofun).append (unbroken_nil.cons hc nofun)
    obtain ⟨x, rfl, hx⟩ := cut_left (r := us ++ l :: vs) hs hhead (by simpa using hts)
    rcases cut hx with ⟨y, rfl, rfl⟩ | ⟨y, rfl, hy'⟩
    · exact (ihy hes rfl rfl).within
        (.branch (.ifElse hw ho (he.anywhere hds) hc hl (hn.anywhere hfs)))
    · obtain ⟨z, rfl, rfl⟩ := cut_left (l := [l]) hs (unbroken_nil.cons hl nofun) hy'
      have h := (ihn hfs rfl rfl).within
        (.branch (.elseBranch hw ho (he.anywhere hds) hc (hy.anywhere hes) hl))
      simpa [Phrase.Places] using h
  | @whileDo w o c _ _ _ ts us _ _ _ _ _ hw ho he hc hb _ ih =>
    obtain ⟨hds, hes⟩ := List.append_eq_nil_iff.1 hds
    have hhead : Unbroken (w :: o :: ts ++ [c]) :=
      (((he.unbroken rfl).cons ho nofun).cons hw nofun).append (unbroken_nil.cons hc nofun)
    obtain ⟨x, rfl, rfl⟩ := cut_left (r := us) hs hhead (by simpa using hts)
    have h := (ih hes rfl rfl).within (.branch (.whileDo hw ho (he.anywhere hds) hc))
    simpa [Phrase.Places] using h
  | @forDo w o s' c _ _ _ _ d ts us vs ws _ _ _ _ _ _ _ _ _ hw ho hi he hs' hn hc hb _ _ _ ih =>
    obtain ⟨hds, hgs⟩ := List.append_eq_nil_iff.1 hds
    obtain ⟨hds, hfs⟩ := List.append_eq_nil_iff.1 hds
    obtain ⟨hds, hes⟩ := List.append_eq_nil_iff.1 hds
    have hclauses := Clauses.mk (hi.anywhere hds) (he.anywhere hes) hs' (hn.anywhere hfs)
    obtain ⟨x, rfl, hx⟩ := cut_left (l := [w, o]) (r := ts ++ us ++ s' :: vs ++ c :: ws) hs
      ((unbroken_nil.cons ho nofun).cons hw nofun) (by simpa using hts)
    rcases cut hx with ⟨y, hy, rfl⟩ | ⟨y, rfl, hy⟩
    · exact .inr ⟨d, [], [], w, o, x, y, c, ws, .here, hw, ho, hy ▸ hclauses, hc, hb.anywhere hgs,
        rfl, by simp⟩
    · obtain ⟨z, rfl, rfl⟩ := cut_left (l := [c]) hs (unbroken_nil.cons hc nofun) hy
      have h := (ih hgs rfl rfl).within (.branch
        (.forDo hw ho (hi.anywhere hds) (he.anywhere hes) hs' (hn.anywhere hfs) hc))
      simpa [Phrase.Places] using h
  | noInitializer | variableInitializer | expressionInitializer => trivial
  | @bareVariable w x _ _ hw hx =>
    obtain ⟨rfl, rfl⟩ := cut_last (l := [w, x]) hs ((unbroken_nil.cons hx nofun).cons hw nofun) hts
    exact ⟨.bareVariable hw hx, rfl⟩
  | @initialized w x q _ _ ts _ _ _ hw hx hq he =>
    obtain ⟨rfl, rfl⟩ := cut_last (l := w :: x :: q :: ts) hs
      ((((he.unbroken rfl).cons hq nofun).cons hx nofun).cons hw nofun) hts
    exact ⟨.initialized hw hx hq (he.anywhere hds), rfl⟩
  | declaredStatement _ ih =>
    have h := (ih hds hts rfl).within (.branch .statement)
    simpa [Phrase.Places] using h
  | declaredVariable _ ih =>
    obtain ⟨hu, rfl⟩ := ih hds hts rfl
    exact hu.here
  | @declaredFunction w _ _ _ _ _ hw _ ih =>
    obtain ⟨x, rfl, hx⟩ := cut_left (l := [w]) hs (unbroken_nil.cons hw nofun) hts
    obtain ⟨head, d, xs, ys, hhead, hd, h, rfl, rfl⟩ := ih hds hx rfl
    have h := h.within (.function hw hhead hd)
    simpa [Phrase.Places] using h
  | @declaredClass w x o c _ _ ts us _ _ _ _ _ hw hx hr ho _ hc _ ih =>
    obtain ⟨hds, hes⟩ := List.append_eq_nil_iff.1 hds
    have hhead : Unbroken (w :: x :: ts ++ [o]) :=
      (((hr.unbroken rfl).cons hx nofun).cons hw nofun).append (unbroken_nil.cons ho nofun)
    obtain ⟨y, rfl, hy⟩ := cut_left (r := us ++ [c]) hs hhead (by simpa using hts)
    obtain ⟨z, rfl, rfl⟩ := cut_right hs (unbroken_nil.cons hc nofun) hy
    obtain ⟨us, vs, head, d, xs, ys, hus, hvs, hhead, hd, h, rfl, rfl⟩ := ih hes rfl rfl
    have h := h.within (.method hw hx (hr.anywhere hds) ho hus hhead hd hvs hc)
    simpa [Phrase.Places] using h
  | noDeclaration | noFunction => simp at hts
  | @moreDeclarations _ _ ts us _ _ _ _ _ hd hmore ihs ihss =>
    obtain ⟨hds, hes⟩ := List.append_eq_nil_iff.1 hds
    intro enclosed
    rcases cut hts with ⟨x, rfl, rfl⟩ | ⟨x, rfl, rfl⟩
    · exact (ihs hds rfl rfl).within (.item anywhere_noDeclaration (hmore.anywhere hes))
    · refine (ihss hes rfl rfl enclosed).behind fun n => ?_
      obtain ⟨s, m, hd⟩ := hd.anywhere hds n
      exact ⟨[s], m, by simpa using hd.moreDeclarations .noDeclaration⟩
  | @function x o c b d _ _ ts us _ _ _ _ _ hx ho hparams hc hb _ hd _ ih =>
    obtain ⟨hds, hes⟩ := List.append_eq_nil_iff.1 hds
    have hhead : Unbroken (x :: o :: ts ++ [c, b]) :=
      (((hparams.unbroken rfl).cons ho nofun).cons hx nofun).append
        ((unbroken_nil.cons hb nofun).cons hc nofun)
    obtain ⟨y, rfl, hy⟩ := cut_left (r := us ++ [d]) hs hhead (by simpa using hts)
    obtain ⟨z, rfl, rfl⟩ := cut_right hs (unbroken_nil.cons hd nofun) hy
    exact ⟨_, d, y, z, .mk hx ho (hparams.anywhere hds) hc hb, hd, ih hes rfl rfl true, rfl, rfl⟩
  | @moreFunctions _ _ ts us _ _ _ _ _ hf hmore ihf ihfs =>
    obtain ⟨hds, hes⟩ := List.append_eq_nil_iff.1 hds
    rcases cut hts with ⟨x, rfl, rfl⟩ | ⟨x, rfl, rfl⟩
    · obtain ⟨head, d, xs, ys, hhead, hd, h, rfl, rfl⟩ := ihf hds rfl rfl
      exact ⟨[], us, head, d, xs, ys, anywhere_noFunction, hmore.anywhere hes, hhead, hd, h, rfl,
        by simp⟩
    · obtain ⟨us, vs, head, d, xs, ys, hus, hvs, hhead, hd, h, rfl, rfl⟩ := ihfs hes rfl rfl
      refine ⟨ts ++ us, vs, head, d, xs, ys, .functions_append (fun n => ?_) hus, hvs, hhead, hd, h,
        by simp, rfl⟩
      obtain ⟨f, m, hf⟩ := hf.anywhere hds n
      exact ⟨[f], m, by simpa using hf.moreFunctions .noFunction⟩
  | _ => cases hp

end Places

section Nests

theorem Nested.single {L : Form → Form → List Token → List Token → Prop} (h : L a b l r) :
    Nested L a b l r := by
  have h := Nested.inside h .here
  rwa [List.append_nil, List.nil_append] at h

theorem Nested.snoc {L : Form → Form → List Token → List Token → Prop} {l' r' : List Token}
    (h : Nested L a b l r) (h' : L b c l' r') : Nested L a c (l ++ l') (r' ++ r) := by
  induction h with
  | here => simpa using Nested.single h'
  | inside h _ ih =>
    have h := Nested.inside h (ih h')
    simpa using h

/-- Behind branches nothing stands, or an `else`. -/
theorem Branch.tail (h : Branch a b l r) : r = [] ∨ ∃ t us, r = t :: us ∧ t.kind = .word .else := by
  cases h with
  | ifElse _ _ _ _ hl => exact .inr ⟨_, _, rfl, hl⟩
  | statement | ifThen | elseBranch | whileDo | forDo => exact .inl rfl

theorem Nested.tail (h : Nested Branch a b l r) :
    r = [] ∨ ∃ t us, r = t :: us ∧ t.kind = .word .else := by
  induction h with
  | here => exact .inl rfl
  | inside h _ ih =>
    rcases ih with rfl | ⟨t, us, rfl, ht⟩
    · exact h.tail
    · exact .inr ⟨t, _, rfl, ht⟩

/-- Behind declarations is what closes the nearest layer around them. -/
theorem Nested.closes {enclosed : Bool} (h : Nested Layer a (.declarations enclosed) l r) :
    (a = .declarations enclosed ∧ l = [] ∧ r = []) ∨
      ∃ t us, r = t :: us ∧ t.kind = .mark .rightBrace := by
  generalize hb : Form.declarations enclosed = b at h
  induction h with
  | here => exact .inl ⟨rfl, rfl, rfl⟩
  | inside h _ ih =>
    rcases ih hb with ⟨rfl, rfl, rfl⟩ | ⟨t, us, rfl, ht⟩
    · subst hb
      cases h with
      | branch h => cases h
      | block _ hc | function _ _ hc | method _ _ _ _ _ _ hc => exact .inr ⟨_, _, rfl, hc⟩
    · exact .inr ⟨t, _, rfl, ht⟩

/-- A declaration is one of the nearest list of declarations around it. -/
theorem Nested.nearest (h : Nested Layer a .declaration l r) :
    (a = .declaration ∧ l = [] ∧ r = []) ∨ ∃ enclosed l' r' ls rs,
      Nested Layer a (.declarations enclosed) l' r' ∧ Anywhere .declarations ls ∧
        Anywhere .declarations rs ∧ l = l' ++ ls ∧ r = rs ++ r' := by
  generalize hb : Form.declaration = b at h
  induction h with
  | here => exact .inl ⟨rfl, rfl, rfl⟩
  | inside h _ ih =>
    rcases ih hb with ⟨rfl, rfl, rfl⟩ | ⟨enclosed, l', r', ls, rs, hn, hl, hr, rfl, rfl⟩
    · subst hb
      cases h with
      | branch h => cases h
      | item hl hr => exact .inr ⟨_, [], [], _, _, .here, hl, hr, by simp, by simp⟩
    · exact .inr ⟨enclosed, _, _, ls, rs, .inside h hn, hl, hr, by simp, by simp⟩

/-- From the nearest declaration inwards there are only branches and loops. -/
theorem Nested.split (h : Nested Layer a b l r) (hb : ∀ enclosed, b ≠ .declarations enclosed) :
    Nested Branch a b l r ∨ ∃ front heads tails back, Nested Layer a .declaration front back ∧
      Nested Branch .declaration b heads tails ∧ l = front ++ heads ∧ r = tails ++ back := by
  induction h with
  | here => exact .inl .here
  | @inside a b c l r l' r' h hn ih =>
    rcases ih hb with hbranch | ⟨front, heads, tails, back, hfront, hheads, rfl, rfl⟩
    · have hlist (enclosed : Bool) (h : Nested Branch (.declarations enclosed) c l' r') : False := by
        cases h with
        | here => exact hb enclosed rfl
        | inside h => cases h
      cases h with
      | branch h => exact .inl (.inside h hbranch)
      | item hl hr =>
        exact .inr ⟨l, l', r', r, .single (.item hl hr), hbranch, rfl, rfl⟩
      | block | function | method => exact (hlist true hbranch).elim
    · exact .inr ⟨_, heads, tails, _, .inside h hfront, hheads, by simp, by simp⟩

/-- The place of a statement without its semicolon in a program: the declaration that it belongs
to stands between `front` and `back`, and in it the statement between `heads` and `tails`. -/
structure Place (before after : List Token) where
  front : List Token
  heads : List Token
  tokens : List Token
  tails : List Token
  back : List Token
  form : Form
  declared : Nested Layer (.declarations false) .declaration front back
  branched : Nested Branch .declaration form heads tails
  unended : Unended form tokens
  before_eq : before = front ++ heads ++ tokens
  after_eq : after = tails ++ back

/-- Each semicolon of a program is in the clauses of a `for` or has its place. -/
theorem Derives.exists_place {ss : List Stmt} (h : Derives Complete (.declarations ss) ts n k [])
    (hs : s.kind = .mark .semicolon) (hts : ts = before ++ s :: after) :
    InClauses (.declarations false) before s after ∨ Nonempty (Place before after) := by
  rcases h.places rfl hs hts rfl false with ⟨b, l, us, r, hn, hu, rfl, rfl⟩ | h
  · rcases hn.split fun _ => hu.ne with h | ⟨front, heads, tails, back, hf, hh, rfl, rfl⟩
    · cases h with
      | here => exact absurd rfl hu.ne
      | inside h => cases h
    · exact .inr ⟨⟨front, heads, us, tails, back, b, hf, hh, hu, rfl, rfl⟩⟩
  · exact .inl h

end Nests

end Lox.Grammar
