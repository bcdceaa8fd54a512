import Lox.Proofs.Grammar.Anywhere
import Lox.Proofs.Grammar.ExpressionCompleteness

/-!
# What a statement stands in

A layer is what a rule of the grammar has on the left and on the right of one statement, of one
declaration or of the declarations in a body. Layers one inside the other lead from the
program to each place where a statement can stand. The innermost of them, up to the nearest
list of declarations, are branches and loops.
-/

set_option autoImplicit false

namespace Lox.Grammar

variable {ts us l r l' r' : List Token} {n m k : Nat} {ds es : List Diagnostic}

/-- The forms of phrases that a statement stands in: declarations, to the end of a body if they
are enclosed and to the end of the input if not, a declaration or a statement. -/
inductive Form where
  | declarations (enclosed : Bool)
  | declaration
  | statement (dangling : Bool)

namespace Form

/-- The tokens derive a phrase of the form. -/
def Spans : Form → List Token → Nat → Nat → List Diagnostic → Prop
  | .declarations _, ts, n, k, ds => ∃ ss, Derives Complete (.declarations ss) ts n k ds
  | .declaration, ts, n, k, ds => ∃ s, Derives Complete (.declaration s) ts n k ds
  | .statement d, ts, n, k, ds => ∃ s, Derives Complete (.statement d s) ts n k ds

/-- The first token is one with which a phrase of the form can begin. -/
def Begins : Form → List Token → Prop
  | .declarations _, _ => True
  | .declaration, ts => ∃ t us, ts = t :: us ∧ startsDeclaration t.kind = true
  | .statement _, ts => ∃ t us, ts = t :: us ∧ (startsExpression t.kind || opensStatement t.kind) = true

end Form

/-- The layers of branches and loops, and that of a statement as a declaration. -/
inductive Branch : Form → Form → List Token → List Token → Prop
  | statement {d : Bool} : Branch .declaration (.statement d) [] []
  | ifThen {w o c : Token} {ts : List Token} {d : Bool} (hw : w.kind = .word .if)
      (ho : o.kind = .mark .leftParen) (he : Anywhere (.expr .assignment) ts)
      (hc : c.kind = .mark .rightParen) :
      Branch (.statement true) (.statement d) (w :: o :: ts ++ [c]) []
  | ifElse {w o c l : Token} {ts vs : List Token} {d : Bool} (hw : w.kind = .word .if)
      (ho : o.kind = .mark .leftParen) (he : Anywhere (.expr .assignment) ts)
      (hc : c.kind = .mark .rightParen) (hl : l.kind = .word .else)
      (hn : Anywhere (.statement d) vs) :
      Branch (.statement d) (.statement false) (w :: o :: ts ++ [c]) (l :: vs)
  | elseBranch {w o c l : Token} {ts us : List Token} {d : Bool} (hw : w.kind = .word .if)
      (ho : o.kind = .mark .leftParen) (he : Anywhere (.expr .assignment) ts)
      (hc : c.kind = .mark .rightParen) (hy : Anywhere (.statement false) us)
      (hl : l.kind = .word .else) :
      Branch (.statement d) (.statement d) (w :: o :: ts ++ c :: us ++ [l]) []
  | whileDo {w o c : Token} {ts : List Token} {d : Bool} (hw : w.kind = .word .while)
      (ho : o.kind = .mark .leftParen) (he : Anywhere (.expr .assignment) ts)
      (hc : c.kind = .mark .rightParen) :
      Branch (.statement d) (.statement d) (w :: o :: ts ++ [c]) []
  | forDo {w o s c : Token} {ts us vs : List Token} {d : Bool} (hw : w.kind = .word .for)
      (ho : o.kind = .mark .leftParen) (hi : Anywhere .initializer ts) (he : Anywhere .optional us)
      (hs : s.kind = .mark .semicolon) (hn : Anywhere .optional vs)
      (hc : c.kind = .mark .rightParen) :
      Branch (.statement d) (.statement d) (w :: o :: ts ++ us ++ s :: vs ++ [c]) []

/-- The name of a function, its parameters and the brace that opens its body. -/
inductive Signature : List Token → Prop
  | mk {x o c b : Token} {ts : List Token} (hx : x.kind = .identifier)
      (ho : o.kind = .mark .leftParen) (hp : Anywhere .someParameters ts)
      (hc : c.kind = .mark .rightParen) (hb : b.kind = .mark .leftBrace) :
      Signature (x :: o :: ts ++ [c, b])

/-- `Layer a b l r`: with a phrase of the form `b` between them, the tokens `l` and `r` make one
of the form `a`. -/
inductive Layer : Form → Form → List Token → List Token → Prop
  | branch {a b : Form} {l r : List Token} (h : Branch a b l r) : Layer a b l r
  | item {enclosed : Bool} {ls rs : List Token} (hl : Anywhere .declarations ls)
      (hr : Anywhere .declarations rs) : Layer (.declarations enclosed) .declaration ls rs
  | block {o c : Token} (ho : o.kind = .mark .leftBrace) (hc : c.kind = .mark .rightBrace) :
      Layer (.statement false) (.declarations true) [o] [c]
  | function {w d : Token} {head : List Token} (hw : w.kind = .word .fun) (hs : Signature head)
      (hd : d.kind = .mark .rightBrace) : Layer .declaration (.declarations true) (w :: head) [d]
  | method {w x o c d : Token} {ts us vs head : List Token} (hw : w.kind = .word .class)
      (hx : x.kind = .identifier) (hr : Anywhere .superclass ts) (ho : o.kind = .mark .leftBrace)
      (hf : Anywhere .functions us) (hs : Signature head) (hd : d.kind = .mark .rightBrace)
      (hg : Anywhere .functions vs) (hc : c.kind = .mark .rightBrace) :
      Layer .declaration (.declarations true) (w :: x :: ts ++ o :: us ++ head) (d :: vs ++ [c])

/-- Layers of a kind, one inside the other. -/
inductive Nested (L : Form → Form → List Token → List Token → Prop) :
    Form → Form → List Token → List Token → Prop
  | here {a : Form} : Nested L a a [] []
  | inside {a b c : Form} {l r l' r' : List Token} (h : L a b l r) (hn : Nested L b c l' r') :
      Nested L a c (l ++ l') (r' ++ r)

/-- The tokens of a statement without the semicolon that ends it. -/
inductive Unended : Form → List Token → Prop
  | expression {ts : List Token} (he : Anywhere (.expr .assignment) ts) :
      Unended (.statement false) ts
  | print {w : Token} {ts : List Token} (hw : w.kind = .word .print)
      (he : Anywhere (.expr .assignment) ts) : Unended (.statement false) (w :: ts)
  | returns {w : Token} {ts : List Token} (hw : w.kind = .word .return)
      (he : Anywhere .optional ts) : Unended (.statement false) (w :: ts)
  | bareVariable {w x : Token} (hw : w.kind = .word .var) (hx : x.kind = .identifier) :
      Unended .declaration [w, x]
  | initialized {w x q : Token} {ts : List Token} (hw : w.kind = .word .var)
      (hx : x.kind = .identifier) (hq : q.kind = .mark .equal)
      (he : Anywhere (.expr .assignment) ts) : Unended .declaration (w :: x :: q :: ts)

theorem Anywhere.starts {α : Type} {phrase : α → Phrase} {s : Kind → Bool}
    (h : Anywhere phrase ts) (hs : ∀ a, (phrase a).starts? = some s) :
    ∃ t us, ts = t :: us ∧ s t.kind = true := by
  obtain ⟨a, k, ha⟩ := h 0
  exact ha.starts (hs a)

section Begins

variable {a b : Form}

theorem Branch.begins (h : Branch a b l r) (hts : b.Begins ts) : a.Begins (l ++ ts) := by
  cases h with
  | statement =>
    obtain ⟨t, us, rfl, ht⟩ := hts
    exact ⟨t, us, rfl, by simp [startsDeclaration, ht]⟩
  | ifThen hw | ifElse hw | elseBranch hw | whileDo hw | forDo hw =>
    exact ⟨_, _, rfl, by rw [hw]; rfl⟩

theorem Layer.begins (h : Layer a b l r) (hts : b.Begins ts) : a.Begins (l ++ ts) := by
  cases h with
  | branch h => exact h.begins hts
  | item => trivial
  | block ho => exact ⟨_, _, rfl, by rw [ho]; rfl⟩
  | function hw => exact ⟨_, _, rfl, by rw [hw]; rfl⟩
  | method hw => exact ⟨_, _, rfl, by rw [hw]; rfl⟩

theorem Unended.begins (h : Unended a ts) (us : List Token) : a.Begins (ts ++ us) := by
  cases h with
  | expression he =>
    obtain ⟨t, vs, rfl, ht⟩ := he.starts fun _ => rfl
    exact ⟨t, _, rfl, by simp [ht]⟩
  | print hw | returns hw | bareVariable hw | initialized hw => exact ⟨_, _, rfl, by rw [hw]; rfl⟩

end Begins

section Filling

variable {a b c : Form}

/-- Between the tokens of a layer, what derives with violations makes a phrase with just these. -/
theorem Branch.fill (h : Branch a b l r) (n : Nat) : ∃ m, ∀ ts k ds, b.Spans ts m k ds →
    ∃ j, a.Spans (l ++ ts ++ r) n j ds := by
  cases h with
  | statement =>
    refine ⟨n, fun ts k ds ⟨s, hs⟩ => ?_⟩
    exact ⟨k, s, by simpa using hs.declaredStatement⟩
  | ifThen hw ho he hc =>
    obtain ⟨e, m, he⟩ := he n
    refine ⟨m, fun ts k ds ⟨yes, hy⟩ => ?_⟩
    exact ⟨k, _, by simpa using Derives.ifThen hw ho he hc hy⟩
  | ifElse hw ho he hc hl hn =>
    obtain ⟨e, m, he⟩ := he n
    refine ⟨m, fun ts k ds ⟨yes, hy⟩ => ?_⟩
    obtain ⟨no, j, hn⟩ := hn k
    exact ⟨j, _, by simpa using Derives.ifElse hw ho he hc hy rfl hl hn⟩
  | elseBranch hw ho he hc hy hl =>
    obtain ⟨e, i, he⟩ := he n
    obtain ⟨yes, m, hy⟩ := hy i
    refine ⟨m, fun ts k ds ⟨no, hn⟩ => ?_⟩
    exact ⟨k, _, by simpa using Derives.ifElse hw ho he hc hy rfl hl hn⟩
  | whileDo hw ho he hc =>
    obtain ⟨e, m, he⟩ := he n
    refine ⟨m, fun ts k ds ⟨body, hb⟩ => ?_⟩
    exact ⟨k, _, by simpa using Derives.whileDo hw ho he hc hb⟩
  | forDo hw ho hi he hs hn hc =>
    obtain ⟨i, j, hi⟩ := hi n
    obtain ⟨condition, j, he⟩ := he j
    obtain ⟨increment, m, hn⟩ := hn j
    refine ⟨m, fun ts k ds ⟨body, hb⟩ => ?_⟩
    exact ⟨k, _, by simpa using Derives.forDo hw ho hi he hs hn hc hb⟩

theorem Signature.fill {head : List Token} {d : Token} (h : Signature head)
    (hd : d.kind = .mark .rightBrace) (n : Nat) : ∃ m, ∀ ts ss k ds,
      Derives Complete (.declarations ss) ts m k ds →
        ∃ f, Derives Complete (.function f) (head ++ ts ++ [d]) n k ds := by
  cases h with
  | mk hx ho hp hc hb =>
    obtain ⟨ps, m, hp⟩ := hp n
    refine ⟨m, fun ts ss k ds hs => ?_⟩
    exact ⟨_, by simpa using Derives.function hx ho hp hc hb hs hd⟩

theorem Derives.functions_append {before : Bool → Prop} {fs gs : List Function}
    (h : Derives before (.functions fs) ts n m ds) (h' : Derives before (.functions gs) us m k es) :
    Derives before (.functions (fs ++ gs)) (ts ++ us) n k (ds ++ es) := by
  generalize hp : Phrase.functions fs = p at h
  induction h generalizing fs with
  | noFunction =>
    cases hp
    exact h'
  | moreFunctions hf _ _ ih =>
    cases hp
    have h := Derives.moreFunctions hf (ih h' rfl)
    simpa using h
  | _ => cases hp

theorem Layer.fill (h : Layer a b l r) (n : Nat) : ∃ m, ∀ ts k ds, b.Spans ts m k ds →
    ∃ j, a.Spans (l ++ ts ++ r) n j ds := by
  cases h with
  | branch h => exact h.fill n
  | item hl hr =>
    obtain ⟨ss, m, hl⟩ := hl n
    refine ⟨m, fun ts k ds ⟨s, hs⟩ => ?_⟩
    obtain ⟨us, j, hr⟩ := hr k
    exact ⟨j, _, by simpa using hl.append (hs.moreDeclarations hr)⟩
  | block ho hc =>
    refine ⟨n, fun ts k ds ⟨ss, hs⟩ => ?_⟩
    exact ⟨k, _, by simpa using Derives.block ho hs hc⟩
  | function hw hs hd =>
    obtain ⟨m, hfill⟩ := hs.fill hd n
    refine ⟨m, fun ts k ds ⟨ss, hss⟩ => ?_⟩
    obtain ⟨f, hf⟩ := hfill ts ss k ds hss
    exact ⟨k, _, by simpa using hf.declaredFunction hw⟩
  | method hw hx hr ho hf hs hd hg hc =>
    obtain ⟨parent, i, hr⟩ := hr n
    obtain ⟨fs, i, hf⟩ := hf i
    obtain ⟨m, hfill⟩ := hs.fill hd i
    refine ⟨m, fun ts k ds ⟨ss, hss⟩ => ?_⟩
    obtain ⟨f, hfun⟩ := hfill ts ss k ds hss
    obtain ⟨gs, j, hg⟩ := hg k
    have hmethods := hf.functions_append (hfun.moreFunctions hg)
    exact ⟨j, _, by simpa using Derives.declaredClass hw hx hr ho hmethods hc⟩

theorem Nested.fill {L : Form → Form → List Token → List Token → Prop}
    (hL : ∀ {a b l r}, L a b l r → ∀ n, ∃ m, ∀ ts k ds, b.Spans ts m k ds →
      ∃ j, a.Spans (l ++ ts ++ r) n j ds)
    (h : Nested L a b l r) (n : Nat) : ∃ m, ∀ ts k ds, b.Spans ts m k ds →
      ∃ j, a.Spans (l ++ ts ++ r) n j ds := by
  induction h generalizing n with
  | here => exact ⟨n, fun ts k ds h => ⟨k, by simpa using h⟩⟩
  | inside h _ ih =>
    obtain ⟨i, houter⟩ := hL h n
    obtain ⟨m, hinner⟩ := ih i
    refine ⟨m, fun ts k ds hts => ?_⟩
    obtain ⟨j, hj⟩ := hinner ts k ds hts
    obtain ⟨j, hj⟩ := houter _ j ds hj
    exact ⟨j, by simpa using hj⟩

end Filling

end Lox.Grammar
