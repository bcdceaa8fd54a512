import Mathlib
import Lox.Proofs.Grammar.Alongside
import Lox.Proofs.Grammar.Layer

/-!
# Reading into a layer

Each layer has its step: behind the tokens on its left it reads what stands in the layer and
goes on, and how it goes on does not depend on what was read.
-/

set_option autoImplicit false

namespace Lox.Grammar

variable {α β : Type} {l r ts us rest : List Token} {n m k j : Nat} {ds : List Diagnostic}

/-- A step whose beginning consumes tokens goes on from where its beginning does. -/
theorem Consumes.through {p q : Step α} (hp : Consumes p ts rest n k ds q) (f : α → Step β) :
    Consumes (p >>= f) ts rest n k ds (q >>= f) := by
  intro finish reports
  rw [bind_apply, bind_apply, hp]

theorem Consumes.mapped {p q : Step α} (hp : Consumes p ts rest n k ds q) (f : α → β) :
    Consumes (f <$> p) ts rest n k ds (f <$> q) := by
  rw [map_eq_pure_bind, map_eq_pure_bind]
  exact hp.through _

/-- Declarations up to the end of a body, or to the end of the input. -/
def items : Bool → Nat → Step (List Stmt)
  | false => topLevel
  | true => declarations

namespace Form

/-- What the form stands for. -/
abbrev Result : Form → Type
  | .declarations _ => List Stmt
  | .declaration => Stmt
  | .statement _ => Stmt

/-- The step that reads the form from at most `j` tokens. -/
def step : (a : Form) → Nat → Step a.Result
  | .declarations enclosed, j => items enclosed j
  | .declaration, j => declaring j (Grammar.statement (j - 1)) (Grammar.declarations (j - 1))
  | .statement _, j => Grammar.statement j

end Form

/-- On the tokens `l` the step for the form `a` opens the one for the form `b`, with a bound
`i` instead of `j`, and then goes on with `u`. -/
structure Opening (a b : Form) (l : List Token) (n j m i : Nat) (u : b.Result → Step a.Result) :
    Prop where
  bound : ∀ N, l.length + N ≤ j → N ≤ i
  steady : ∀ N, l.length + N ≤ j → ∀ x y, Steady N (u x) (u y)
  consumes : ∀ rest, (l ++ rest).length ≤ j → b.Begins rest →
    Consumes (a.step j) l rest n m [] (b.step i >>= u)

namespace Opening

variable {a b : Form}

/-- With no token at all there is nothing to open. -/
theorem none (hl : l ≠ []) : Opening a b l n 0 n 0 fun _ => fail .noExpression where
  bound _ h := absurd (List.eq_nil_of_length_eq_zero (by omega)) hl
  steady _ h := absurd (List.eq_nil_of_length_eq_zero (by omega)) hl
  consumes _ h := by
    rw [List.length_append] at h
    exact absurd (List.eq_nil_of_length_eq_zero (by omega)) hl

/-- Behind a token at least, the bound is one less. -/
theorem ofStep {u : b.Result → Step a.Result} (hl : l ≠ []) (hu : ∀ x y, Steady j (u x) (u y))
    (hc : ∀ rest, (l ++ rest).length ≤ j + 1 → Consumes (a.step (j + 1)) l rest n m [] (b.step j >>= u)) :
    Opening a b l n (j + 1) m j u := by
  have hpos := List.length_pos_iff.2 hl
  exact ⟨fun N h => by omega, fun N h x y => (hu x y).mono (by omega), fun rest h _ => hc rest h⟩

end Opening

section Branches

variable {w o c e s : Token} {vs : List Token} {d : Bool} {x : Expr}

/-- The condition of a branch, up to its first statement. -/
theorem condition_consumes (hw : w.kind = .word .if) (ho : o.kind = .mark .leftParen)
    (he : Derives Complete (.expr .assignment x) ts n m []) (hc : c.kind = .mark .rightParen)
    (hj : (w :: o :: ts ++ c :: rest).length ≤ j + 1) :
    Consumes (statement (j + 1)) (w :: o :: ts ++ [c]) rest n m [] (do
      let yes ← statement j
      let no ← (do if ← accept (.word .else) then some <$> statement j else pure none)
      return .if x yes no) := by
  have he : Consumes (expression (j + 1)) ts (c :: rest) n m [] (pure x) :=
    he.reads.expression_run (.inl rfl) hc (by simp at hj ⊢; omega)
  rw [statement, statementWith]
  refine .accepting_no (avoids_cons.2 (by rw [hw]; rfl)) (.accepting_yes hw ?_)
  rw [ifStatement_eq]
  exact .of_eq ((Consumes.expect ho).bind (he.followedBy [c] rfl
    ((Consumes.expect hc).bind (.refl _ _ _)))) (by simp) rfl

/-- A branch up to its second statement. -/
theorem else_consumes {yes : Stmt} (hw : w.kind = .word .if) (ho : o.kind = .mark .leftParen)
    (he : Derives Complete (.expr .assignment x) ts n k []) (hc : c.kind = .mark .rightParen)
    (hy : Derives Complete (.statement false yes) us k m []) (hl : e.kind = .word .else)
    (hj : (w :: o :: ts ++ c :: us ++ e :: rest).length ≤ j + 1) :
    Consumes (statement (j + 1)) (w :: o :: ts ++ c :: us ++ [e]) rest n m [] (do
      return .if x yes (some (← statement j))) := by
  have hfirst : Consumes (statement (j + 1)) (w :: o :: ts ++ [c]) (us ++ e :: rest) n k [] _ :=
    condition_consumes hw ho he hc (by simpa using hj)
  have hy : Consumes (statement j) us (e :: rest) k m [] (pure yes) :=
    hy.reads j _ (by simp at hj ⊢; omega) nofun
  have helse : Consumes (do if ← accept (.word .else) then some <$> statement j else pure none)
      [e] rest m m [] (some <$> statement j) := .accepting_yes hl (.refl _ _ _)
  have hsecond : Consumes (do
      let yes ← statement j
      let no ← (do if ← accept (.word .else) then some <$> statement j else pure none)
      return Stmt.if x yes no) (us ++ [e]) rest k m [] (do
        let no ← some <$> statement j
        return Stmt.if x yes no) :=
    hy.followedBy [e] rfl (helse.through _)
  rw [map_eq_pure_bind, bind_assoc] at hsecond
  simp only [pure_bind] at hsecond
  exact .of_eq (hfirst.trans (us ++ [e]) (by simp) hsecond) (by simp) rfl

theorem while_consumes (hw : w.kind = .word .while) (ho : o.kind = .mark .leftParen)
    (he : Derives Complete (.expr .assignment x) ts n m []) (hc : c.kind = .mark .rightParen)
    (hj : (w :: o :: ts ++ c :: rest).length ≤ j + 1) :
    Consumes (statement (j + 1)) (w :: o :: ts ++ [c]) rest n m [] (do
      return .while x (← statement j)) := by
  have he : Consumes (expression (j + 1)) ts (c :: rest) n m [] (pure x) :=
    he.reads.expression_run (.inl rfl) hc (by simp at hj ⊢; omega)
  rw [statement, statementWith]
  have hne (k : Kind) (hk : (Kind.word .while == k) = false) :
      Avoids (· == k) (w :: o :: ts ++ [c] ++ rest) := avoids_cons.2 (by rw [hw]; exact hk)
  refine .accepting_no (hne _ rfl) (.accepting_no (hne _ rfl) (.accepting_no (hne _ rfl) ?_))
  refine (Consumes.acceptIf_no (hne _ rfl)).bind (.accepting_yes hw ?_)
  exact .of_eq ((Consumes.expect ho).bind (he.followedBy [c] rfl
    ((Consumes.expect hc).bind (.refl _ _ _)))) (by simp) rfl

theorem for_consumes {i : Option Stmt} {condition increment : Option Expr} {l : Nat}
    (hw : w.kind = .word .for) (ho : o.kind = .mark .leftParen)
    (hi : Derives Complete (.initializer i) ts n k [])
    (he : Derives Complete (.optional condition) us k l []) (hs : s.kind = .mark .semicolon)
    (hn : Derives Complete (.optional increment) vs l m []) (hc : c.kind = .mark .rightParen)
    (hj : (w :: o :: ts ++ us ++ s :: vs ++ c :: rest).length ≤ j + 1) :
    Consumes (statement (j + 1)) (w :: o :: ts ++ us ++ s :: vs ++ [c]) rest n m [] (do
      return forLoop i condition increment (← statement j)) := by
  have hi : Consumes (forInitializer (expression (j + 1))) ts (us ++ s :: (vs ++ c :: rest)) n k []
      (pure i) := hi.reads (j + 1) _ (by simp at hj ⊢; omega)
  have he : Consumes (unlessNext (.mark .semicolon) (expression (j + 1))) us
      (s :: (vs ++ c :: rest)) k l [] (pure condition) := by
    rw [← hs]
    exact he.reads (j + 1) s _ (by simp at hj ⊢; omega) (.inl hs)
  have hn : Consumes (unlessNext (.mark .rightParen) (expression (j + 1))) vs (c :: rest) l m []
      (pure increment) := by
    rw [← hc]
    exact hn.reads (j + 1) c _ (by simp at hj ⊢; omega) (.inr hc)
  rw [statement, statementWith]
  refine .accepting_yes hw ?_
  exact .of_eq ((Consumes.expect ho).bind (hi.followedBy (us ++ (s :: vs ++ [c])) (by simp)
    (he.followedBy (s :: vs ++ [c]) (by simp) ((Consumes.expect hs).bind
      (hn.followedBy [c] rfl ((Consumes.expect hc).bind (.refl _ _ _)))))))
    (by simp) rfl

theorem block_consumes (ho : o.kind = .mark .leftBrace) :
    Consumes (statement (j + 1)) [o] rest n n [] (do
      let ss ← declarations j
      let _ ← expect .closeBlock
      return .block ss) := by
  have hbody : (do return Stmt.block (← closedBy (declarations j)) : Step Stmt) = (do
      let ss ← declarations j
      let _ ← expect .closeBlock
      return .block ss) := by simp [closedBy]
  rw [statement, statementWith]
  have hne (k : Kind) (hk : (Kind.mark .leftBrace == k) = false) : Avoids (· == k) ([o] ++ rest) :=
    avoids_cons.2 (by rw [ho]; exact hk)
  refine .accepting_no (hne _ rfl) (.accepting_no (hne _ rfl) (.accepting_no (hne _ rfl) ?_))
  refine (Consumes.acceptIf_no (hne _ rfl)).bind ?_
  refine .accepting_no (hne _ rfl) (.accepting_yes ho ?_)
  rw [hbody]
  exact .refl _ _ _

end Branches

section Routines

variable {w x d : Token} {head : List Token}

/-- A function up to its body, and what is done with it behind the body. -/
theorem Signature.consumes (h : Signature head) (n : Nat) : ∃ m x ps, ∀ r k j rest
    (u : Function → Step α), head.length ≤ k + 1 →
      Consumes (routine r (declarations j) k >>= u) head rest n m [] (do
        let ss ← declarations j
        let _ ← expect .closeBlock
        u (.mk x ps ss)) := by
  cases h with
  | @mk x o c b ts hx ho hp hc hb =>
    obtain ⟨ps, m, hp⟩ := hp n
    refine ⟨m, x, ps, fun r k j rest u hk => ?_⟩
    have hp := hp.reads k c (b :: rest) (by simp at hk ⊢; omega) hc
    have hroutine : Consumes (routine r (declarations j) k) (x :: o :: ts ++ [c, b]) rest n m []
        (do return .mk x ps (← closedBy (declarations j))) := by
      rw [routine_eq]
      exact .of_eq ((Consumes.expect hx).bind ((Consumes.expect ho).bind
        (hp.followedBy [c, b] rfl ((Consumes.expect hc).bind
          ((Consumes.expect hb).bind (.refl _ _ _)))))) (by simp) rfl
    have h := hroutine.through u
    simp only [closedBy, bind_assoc, pure_bind] at h
    exact h

theorem Signature.starts (h : Signature head) :
    ∃ x us, head = x :: us ∧ x.kind = .identifier := by
  cases h with
  | mk hx => exact ⟨_, _, rfl, hx⟩

theorem Derives.functions_consumes {fs : List Function}
    (h : Derives Complete (.functions fs) us n m ds) (hds : ds = []) :
    fs.length ≤ us.length ∧ ∀ j k rest, (us ++ rest).length ≤ j → us.length ≤ k →
      Consumes (methods (declarations j) k) us rest n m []
        ((fs ++ ·) <$> methods (declarations j) (k - fs.length)) := by
  generalize hp : Phrase.functions fs = p at h
  induction h generalizing fs with
  | noFunction =>
    cases hp
    refine ⟨Nat.le_refl _, fun j k rest _ _ => ?_⟩
    simpa using Consumes.refl _ _ _
  | @moreFunctions f fs ts us n i m _ _ hf _ _ ih =>
    cases hp
    obtain ⟨hds, hes⟩ := List.append_eq_nil_iff.1 hds
    obtain ⟨hlen, ih⟩ := ih hes rfl
    obtain ⟨t, vs, rfl, ht⟩ := hf.starts rfl
    refine ⟨by simp; omega, fun j k rest hj hk => ?_⟩
    obtain ⟨k, rfl⟩ : ∃ k', k = k' + 1 := ⟨k - 1, by simp at hk; omega⟩
    have hf : Consumes (routine .method (declarations j) k) (t :: vs) (us ++ rest) n i [] (pure f) :=
      hds ▸ hf.reads .method j k _ (by simpa using hj) (by simp at hk ⊢; omega)
    have hfs := (ih j k rest (by simp at hj ⊢; omega) (by simp at hk; omega)).mapped (f :: ·)
    have hk' : k + 1 - (f :: fs).length = k - fs.length := by simp
    refine .endsBlock_no (by rw [eq_of_beq ht]; decide) ?_
    rw [hk']
    have hmap : ((f :: fs ++ ·) <$> methods (declarations j) (k - fs.length) : Step (List Function)) =
        (f :: ·) <$> (fs ++ ·) <$> methods (declarations j) (k - fs.length) := by simp
    rw [map_eq_pure_bind] at hfs
    rw [hmap]
    exact .of_eq (hf.bind hfs) rfl rfl
  | _ => cases hp

/-- A class up to the body of a method, and what is done with it behind the body. -/
theorem method_consumes {o : Token} (hw : w.kind = .word .class) (hx : x.kind = .identifier)
    (hr : Anywhere .superclass ts) (ho : o.kind = .mark .leftBrace) (hf : Anywhere .functions us)
    (hs : Signature head) (n : Nat) : ∃ m y ps parent fs, fs.length ≤ us.length ∧ ∀ j rest,
      (w :: x :: ts ++ o :: us ++ head ++ rest).length ≤ j + 1 →
        Consumes (declaring (j + 1) (statement j) (declarations j)) (w :: x :: ts ++ o :: us ++ head)
          rest n m [] (do
            let ss ← declarations j
            let _ ← expect .closeBlock
            let gs ← methods (declarations j) (j - fs.length)
            let _ ← expect .closeClass
            return .class x parent (fs ++ .mk y ps ss :: gs)) := by
  obtain ⟨parent, i, hr⟩ := hr n
  obtain ⟨fs, k, hf⟩ := hf i
  obtain ⟨m, y, ps, hs'⟩ := hs.consumes (α := List Function) k
  obtain ⟨z, zs, rfl, hz⟩ := hs.starts
  obtain ⟨hlen, hf⟩ := hf.functions_consumes rfl
  refine ⟨m, y, ps, parent, fs, hlen, fun j rest hj => ?_⟩
  have hr : Consumes superclass ts (o :: us ++ (z :: zs ++ rest)) n i [] (pure parent) :=
    hr.reads _ (avoids_cons.2 (by rw [ho]; rfl))
  obtain ⟨k', hk'⟩ : ∃ k', j + 1 - fs.length = k' + 1 := ⟨j - fs.length, by simp at hj; omega⟩
  have hmethods := hf j (j + 1) (z :: zs ++ rest) (by simp at hj ⊢; omega) (by simp at hj; omega)
  have hmethod : Consumes (methods (declarations j) (k' + 1)) (z :: zs) rest k m [] (do
      let ss ← declarations j
      let _ ← expect .closeBlock
      let gs ← methods (declarations j) k'
      return .mk y ps ss :: gs) :=
    .endsBlock_no (by rw [hz]; decide) (hs' .method k' j rest _ (by simp at hj ⊢; omega))
  rw [hk'] at hmethods
  have hbody := (hmethods.trans (z :: zs) rfl (hmethod.mapped (fs ++ ·))).through fun ms => (do
    let _ ← expect .closeClass
    return Stmt.class x parent ms)
  have hclass : Consumes (classDeclaration (declarations j) (j + 1)) (x :: ts ++ o :: us ++ (z :: zs))
      rest n m [] _ :=
    .of_eq ((Consumes.expect hx).bind (hr.followedBy (o :: us ++ (z :: zs)) (by simp)
      ((Consumes.expect ho).bind hbody))) (by simp) rfl
  have hk'' : k' = j - fs.length := by omega
  simp only [map_eq_pure_bind, bind_assoc, pure_bind, hk''] at hclass
  exact .accepting_yes hw hclass

end Routines

section Layers

variable {a b : Form}

theorem Branch.opening (h : Branch a b l r) (n j : Nat) : ∃ m i u, Opening a b l n j m i u := by
  cases h with
  | @statement d =>
    refine ⟨n, j, pure, fun N h => by simpa using h, fun N _ x y => .pure N x y, ?_⟩
    rintro rest hj ⟨t, us, rfl, ht⟩
    obtain ⟨j, rfl⟩ : ∃ j', j = j' + 1 := ⟨j - 1, by simp at hj; omega⟩
    have hne (k : Kind) (hk : (startsExpression k || opensStatement k) = false) :
        Avoids (· == k) ([] ++ t :: us) := by
      refine avoids_cons.2 (beq_eq_false_iff_ne.2 ?_)
      rintro rfl
      rw [hk] at ht
      cases ht
    rw [bind_pure]
    exact .accepting_no (hne _ rfl) (.accepting_no (hne _ rfl) (.accepting_no (hne _ rfl) (.refl _ _ _)))
  | ifThen hw ho he hc =>
    obtain ⟨x, m, he⟩ := he n
    cases j with
    | zero => exact ⟨_, _, _, .none (by simp)⟩
    | succ j =>
      refine ⟨m, j, _, .ofStep (by simp) ?_ fun rest hj => condition_consumes hw ho he hc (by simpa using hj)⟩
      exact fun yes yes' => (Steady.elseBranch j).bind fun _ _ => .pure _ _ _
  | ifElse hw ho he hc =>
    obtain ⟨x, m, he⟩ := he n
    cases j with
    | zero => exact ⟨_, _, _, .none (by simp)⟩
    | succ j =>
      refine ⟨m, j, _, .ofStep (by simp) ?_ fun rest hj => condition_consumes hw ho he hc (by simpa using hj)⟩
      exact fun yes yes' => (Steady.elseBranch j).bind fun _ _ => .pure _ _ _
  | elseBranch hw ho he hc hy hl =>
    obtain ⟨x, k, he⟩ := he n
    obtain ⟨yes, m, hy⟩ := hy k
    cases j with
    | zero => exact ⟨_, _, _, .none (by simp)⟩
    | succ j =>
      exact ⟨m, j, _, .ofStep (by simp) (fun _ _ => .pure _ _ _) fun rest hj =>
        else_consumes hw ho he hc hy hl (by simpa using hj)⟩
  | whileDo hw ho he hc =>
    obtain ⟨x, m, he⟩ := he n
    cases j with
    | zero => exact ⟨_, _, _, .none (by simp)⟩
    | succ j =>
      exact ⟨m, j, _, .ofStep (by simp) (fun _ _ => .pure _ _ _) fun rest hj =>
        while_consumes hw ho he hc (by simpa using hj)⟩
  | forDo hw ho hi he hs hn hc =>
    obtain ⟨i, k, hi⟩ := hi n
    obtain ⟨condition, l, he⟩ := he k
    obtain ⟨increment, m, hn⟩ := hn l
    cases j with
    | zero => exact ⟨_, _, _, .none (by simp)⟩
    | succ j =>
      exact ⟨m, j, _, .ofStep (by simp) (fun _ _ => .pure _ _ _) fun rest hj =>
        for_consumes hw ho hi he hs hn hc (by simpa using hj)⟩

theorem Layer.opening (h : Layer a b l r) (hb : b ≠ .declaration) (n j : Nat) :
    ∃ m i u, Opening a b l n j m i u := by
  cases h with
  | branch h => exact h.opening n j
  | item => exact absurd rfl hb
  | block ho =>
    cases j with
    | zero => exact ⟨_, _, _, .none (by simp)⟩
    | succ j =>
      refine ⟨n, j, _, .ofStep (by simp) ?_ fun rest _ => block_consumes ho⟩
      exact fun ss ss' => (Steady.expect j _).bind fun _ _ => .pure _ _ _
  | @function w d head hw hs hd =>
    obtain ⟨m, x, ps, hs⟩ := hs.consumes (α := Stmt) n
    cases j with
    | zero => exact ⟨_, _, _, .none (by simp)⟩
    | succ j =>
      refine ⟨m, j, fun ss => (do
        let _ ← expect .closeBlock
        return .function (.mk x ps ss)), .ofStep (by simp) ?_ fun rest hj => ?_⟩
      · exact fun ss ss' => (Steady.expect j _).bind fun _ _ => .pure _ _ _
      · have hs := hs .function (j + 1) j rest (fun f => pure (.function f)) (by simp at hj; omega)
        rw [← map_eq_pure_bind] at hs
        exact .accepting_no (avoids_cons.2 (by rw [hw]; rfl)) (.accepting_yes hw hs)
  | @method w x o c d ts us vs head hw hx hr ho hf hs hd hg hc =>
    obtain ⟨m, y, ps, parent, fs, hlen, hmethod⟩ := method_consumes hw hx hr ho hf hs n
    cases j with
    | zero => exact ⟨_, _, _, .none (by simp)⟩
    | succ j =>
      refine ⟨m, j, _, ?_, ?_, fun rest hj _ => hmethod j rest (by simpa using hj)⟩
      · intro N hN
        simp at hN
        omega
      · intro N hN ss ss'
        simp at hN
        refine (Steady.expect N _).bind fun _ _ => ?_
        refine ((Steady.methods (by omega)).mono (by omega)).bind fun _ _ => ?_
        exact (Steady.expect N _).bind fun _ _ => .pure _ _ _

end Layers

end Lox.Grammar
