import Mathlib.Data.List.Zip
import Lox.Proofs.Scoping.Formed

/-!
# Trees alike

Expressions are alike if they differ in lines, brackets and references only. Bare of all
three they are the same. How references may differ is a parameter: that they name the same
is enough for the shape, and what depths they have is left to the machine.
-/

set_option autoImplicit false

namespace Lox

/-- The same token on whichever line. -/
structure Token.Like (t t' : Token) : Prop where
  kind : t'.kind = t.kind
  lexeme : t'.lexeme = t.lexeme

theorem Token.Like.refl (t : Token) : t.Like t := ⟨rfl, rfl⟩

theorem Token.Like.symm {t t' : Token} (h : t.Like t') : t'.Like t :=
  ⟨h.kind.symm, h.lexeme.symm⟩

namespace Expr

/-- The same expression but for lines, for brackets, of which at most `k` more stand one
inside the other in either, and for references, which are related by `R`. -/
inductive Like (R : Reference → Reference → Prop) : Nat → Expr → Expr → Prop
  | literal {k : Nat} (v : Literal) : Like R k (.literal v) (.literal v)
  | grouping {k : Nat} {e e' : Expr} (h : Like R k e e') : Like R k (.grouping e) (.grouping e')
  | unary {k : Nat} {op op' : Token} {e e' : Expr} (ho : op.Like op') (h : Like R k e e') :
      Like R k (.unary op e) (.unary op' e')
  | binary {k : Nat} {l l' r r' : Expr} {op op' : Token} (hl : Like R k l l') (ho : op.Like op')
      (hr : Like R k r r') : Like R k (.binary l op r) (.binary l' op' r')
  | logical {k : Nat} {l l' r r' : Expr} {op op' : Token} (hl : Like R k l l') (ho : op.Like op')
      (hr : Like R k r r') : Like R k (.logical l op r) (.logical l' op' r')
  | var {k : Nat} {r r' : Reference} (h : R r r') : Like R k (.var r) (.var r')
  | assign {k : Nat} {r r' : Reference} {e e' : Expr} (hr : R r r') (h : Like R k e e') :
      Like R k (.assign r e) (.assign r' e')
  | call {k : Nat} {f f' : Expr} {c c' : Token} {es es' : List Expr} (hf : Like R k f f')
      (hc : c.Like c') (hl : es.length = es'.length)
      (hes : ∀ p ∈ es.zip es', Like R k p.1 p.2) : Like R k (.call f c es) (.call f' c' es')
  | get {k : Nat} {e e' : Expr} {x x' : Token} (h : Like R k e e') (hx : x.Like x') :
      Like R k (.get e x) (.get e' x')
  | set {k : Nat} {e e' v v' : Expr} {x x' : Token} (h : Like R k e e') (hx : x.Like x')
      (hv : Like R k v v') : Like R k (.set e x v) (.set e' x' v')
  | this {k : Nat} {r r' : Reference} (h : R r r') : Like R k (.this r) (.this r')
  | super {k : Nat} {r r' : Reference} {x x' : Token} (h : R r r') (hx : x.Like x') :
      Like R k (.super r x) (.super r' x')
  | opened {k : Nat} {e e' : Expr} (h : Like R k e e') : Like R (k + 1) (.grouping e) e'
  | closed {k : Nat} {e e' : Expr} (h : Like R k e e') : Like R (k + 1) e (.grouping e')

namespace Like

variable {R S : Reference → Reference → Prop} {k : Nat}

mutual

theorem refl (hR : ∀ r, R r r) : (e : Expr) → e.Like R 0 e
  | .literal v => .literal v
  | .grouping e => .grouping (refl hR e)
  | .unary op e => .unary (.refl op) (refl hR e)
  | .binary l op r => .binary (refl hR l) (.refl op) (refl hR r)
  | .logical l op r => .logical (refl hR l) (.refl op) (refl hR r)
  | .var r => .var (hR r)
  | .assign r e => .assign (hR r) (refl hR e)
  | .call f c es => .call (refl hR f) (.refl c) rfl (reflAll hR es)
  | .get e x => .get (refl hR e) (.refl x)
  | .set e x v => .set (refl hR e) (.refl x) (refl hR v)
  | .this r => .this (hR r)
  | .super r x => .super (hR r) (.refl x)

theorem reflAll (hR : ∀ r, R r r) : (es : List Expr) → ∀ p ∈ es.zip es, p.1.Like R 0 p.2
  | [] => by simp
  | e :: es => by
    rw [List.zip_cons_cons, List.forall_mem_cons]
    exact ⟨refl hR e, reflAll hR es⟩

end

theorem mono {k' : Nat} {e e' : Expr} (h : e.Like R k e') (hk : k ≤ k') : e.Like R k' e' := by
  induction h generalizing k' with
  | literal v => exact .literal v
  | grouping _ ih => exact .grouping (ih hk)
  | unary ho _ ih => exact .unary ho (ih hk)
  | binary _ ho _ ihl ihr => exact .binary (ihl hk) ho (ihr hk)
  | logical _ ho _ ihl ihr => exact .logical (ihl hk) ho (ihr hk)
  | var hr => exact .var hr
  | assign hr _ ih => exact .assign hr (ih hk)
  | call _ hc hl _ ihf ihes => exact .call (ihf hk) hc hl fun p hp => ihes p hp hk
  | get _ hx ih => exact .get (ih hk) hx
  | set _ hx _ ihe ihv => exact .set (ihe hk) hx (ihv hk)
  | this hr => exact .this hr
  | super hr hx => exact .super hr hx
  | opened _ ih =>
    obtain ⟨j, rfl⟩ : ∃ j, k' = j + 1 := ⟨k' - 1, by omega⟩
    exact .opened (ih (by omega))
  | closed _ ih =>
    obtain ⟨j, rfl⟩ : ∃ j, k' = j + 1 := ⟨k' - 1, by omega⟩
    exact .closed (ih (by omega))

theorem symm {e e' : Expr} (hRS : ∀ r r', R r r' → S r' r) (h : e.Like R k e') : e'.Like S k e := by
  induction h with
  | literal v => exact .literal v
  | grouping _ ih => exact .grouping ih
  | unary ho _ ih => exact .unary ho.symm ih
  | binary _ ho _ ihl ihr => exact .binary ihl ho.symm ihr
  | logical _ ho _ ihl ihr => exact .logical ihl ho.symm ihr
  | var hr => exact .var (hRS _ _ hr)
  | assign hr _ ih => exact .assign (hRS _ _ hr) ih
  | call _ hc hl _ ihf ihes =>
    apply Like.call ihf hc.symm hl.symm
    intro p hp
    rw [← List.zip_swap] at hp
    obtain ⟨q, hq, rfl⟩ := List.mem_map.1 hp
    exact ihes q hq
  | get _ hx ih => exact .get ih hx.symm
  | set _ hx _ ihe ihv => exact .set ihe hx.symm ihv
  | this hr => exact .this (hRS _ _ hr)
  | super hr hx => exact .super (hRS _ _ hr) hx.symm
  | opened _ ih => exact .closed ih
  | closed _ ih => exact .opened ih

end Like

theorem mem_allReferences {e : Expr} {es : List Expr} {r : Reference} (he : e ∈ es)
    (hr : r ∈ e.references) : r ∈ allReferences es := by
  induction es with
  | nil => cases he
  | cons f es ih =>
    rw [allReferences, List.mem_append]
    rcases List.mem_cons.1 he with rfl | he
    · exact .inl hr
    · exact .inr (ih he)

/-- Only the references that occur need to be related. -/
theorem Like.imp {R S : Reference → Reference → Prop} {k : Nat} {e e' : Expr} (h : e.Like R k e')
    (hRS : ∀ r ∈ e.references, ∀ r' ∈ e'.references, R r r' → S r r') : e.Like S k e' := by
  induction h with
  | literal v => exact .literal v
  | grouping _ ih => exact .grouping (ih hRS)
  | unary ho _ ih => exact .unary ho (ih hRS)
  | binary _ ho _ ihl ihr | logical _ ho _ ihl ihr =>
    simp only [references, List.mem_append] at hRS
    have hl := ihl fun r hr r' hr' => hRS r (.inl hr) r' (.inl hr')
    have hr := ihr fun r hr r' hr' => hRS r (.inr hr) r' (.inr hr')
    constructor <;> assumption
  | var hr => exact .var (hRS _ (List.mem_singleton_self _) _ (List.mem_singleton_self _) hr)
  | assign hr _ ih =>
    simp only [references, List.mem_append] at hRS
    apply Like.assign
    · exact hRS _ (.inr (List.mem_singleton_self _)) _ (.inr (List.mem_singleton_self _)) hr
    · exact ih fun r hr r' hr' => hRS r (.inl hr) r' (.inl hr')
  | call _ hc hl _ ihf ihes =>
    simp only [references, List.mem_append] at hRS
    apply Like.call (ihf fun r hr r' hr' => hRS r (.inl hr) r' (.inl hr')) hc hl
    intro p hp
    have hmem := List.of_mem_zip hp
    exact ihes p hp fun r hr r' hr' =>
      hRS r (.inr (mem_allReferences hmem.1 hr)) r' (.inr (mem_allReferences hmem.2 hr'))
  | get _ hx ih => exact .get (ih hRS) hx
  | set _ hx _ ihe ihv =>
    simp only [references, List.mem_append] at hRS
    exact .set (ihe fun r hr r' hr' => hRS r (.inr hr) r' (.inr hr')) hx
      (ihv fun r hr r' hr' => hRS r (.inl hr) r' (.inl hr'))
  | this hr => exact .this (hRS _ (List.mem_singleton_self _) _ (List.mem_singleton_self _) hr)
  | super hr hx =>
    exact .super (hRS _ (List.mem_singleton_self _) _ (List.mem_singleton_self _) hr) hx
  | opened _ ih => exact .opened (ih hRS)
  | closed _ ih => exact .closed (ih hRS)

end Expr

/-- A token without its line. -/
def Token.bare (t : Token) : Token := { t with line := 0 }

theorem Token.Like.bare {t t' : Token} (h : t.Like t') : t'.bare = t.bare := by
  rw [Token.bare, Token.bare, h.kind, h.lexeme]

/-- A reference without line and identity. -/
def Reference.bare (r : Reference) : Reference := ⟨0, r.name.bare⟩

namespace Expr

mutual

/-- An expression without brackets, lines and identities. -/
def bare : Expr → Expr
  | literal v => literal v
  | grouping e => bare e
  | unary op e => unary op.bare (bare e)
  | binary l op r => binary (bare l) op.bare (bare r)
  | logical l op r => logical (bare l) op.bare (bare r)
  | var r => var r.bare
  | assign r e => assign r.bare (bare e)
  | call f c es => call (bare f) c.bare (allBare es)
  | get e x => get (bare e) x.bare
  | set e x v => set (bare e) x.bare (bare v)
  | this r => this r.bare
  | super r x => super r.bare x.bare

def allBare : List Expr → List Expr
  | [] => []
  | e :: es => bare e :: allBare es

end

theorem allBare_eq {es es' : List Expr} (hl : es.length = es'.length)
    (h : ∀ p ∈ es.zip es', p.2.bare = p.1.bare) : allBare es' = allBare es := by
  induction es generalizing es' with
  | nil => rw [List.eq_nil_of_length_eq_zero hl.symm]
  | cons e es ih =>
    cases es' with
    | nil => cases hl
    | cons e' es' =>
      rw [List.zip_cons_cons, List.forall_mem_cons] at h
      rw [allBare, allBare, h.1, ih (Nat.succ.inj hl) h.2]

/-- Bare expressions that are alike are the same. -/
theorem Like.bare {R : Reference → Reference → Prop} {k : Nat} {e e' : Expr} (h : e.Like R k e')
    (hR : ∀ r r', R r r' → r.name.Like r'.name) : e'.bare = e.bare := by
  have href {r r' : Reference} (h : R r r') : r'.bare = r.bare := by
    rw [Reference.bare, Reference.bare, (hR _ _ h).bare]
  induction h with
  | literal v => rfl
  | grouping _ ih => exact ih
  | unary ho _ ih => rw [Expr.bare, Expr.bare, ho.bare, ih]
  | binary _ ho _ ihl ihr => rw [Expr.bare, Expr.bare, ho.bare, ihl, ihr]
  | logical _ ho _ ihl ihr => rw [Expr.bare, Expr.bare, ho.bare, ihl, ihr]
  | var hr => rw [Expr.bare, Expr.bare, href hr]
  | assign hr _ ih => rw [Expr.bare, Expr.bare, href hr, ih]
  | call _ hc hl _ ihf ihes => rw [Expr.bare, Expr.bare, hc.bare, ihf, allBare_eq hl ihes]
  | get _ hx ih => rw [Expr.bare, Expr.bare, hx.bare, ih]
  | set _ hx _ ihe ihv => rw [Expr.bare, Expr.bare, hx.bare, ihe, ihv]
  | this hr => rw [Expr.bare, Expr.bare, href hr]
  | super hr hx => rw [Expr.bare, Expr.bare, href hr, hx.bare]
  | opened _ ih => exact ih
  | closed _ ih => exact ih

end Expr

end Lox
