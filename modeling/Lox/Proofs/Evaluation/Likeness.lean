import Lox.Proofs.Evaluation.Constant
import Lox.Proofs.Tree.Likeness

/-!
# Expressions alike end alike

Where references have the same depth, alike expressions end with the same value on the same
machine, or with the same message. The bound on the depth of the computation is the one
thing that brackets matter to, and a higher bound never changes how a computation ends.
-/

set_option autoImplicit false

namespace Lox

namespace Run

variable {α β : Type}

/-- How a computation ends, with the message of a fault in place of the fault: not at all
if the bound is too small. -/
def ending : EStateM.Result Stop Machine α → Option (Except String α × Machine)
  | .ok a m => some (.ok a, m)
  | .error (.fault d) m => some (.error d.message, m)
  | .error .exhausted _ => none

/-- Where depths are `d`, the second computation ends as the first one, if that ends. -/
def Below (d : Depths) (p q : Run α) : Prop :=
  ∀ m, m.depths = d → ∀ o, ending (p m) = some o → ending (q m) = some o

namespace Below

variable {d : Depths} {p q : Run α}

theorem refl (d : Depths) (p : Run α) : Below d p p := fun _ _ _ h => h

theorem exhausted (q : Run α) : Below d (throw .exhausted) q := fun _ _ _ h => by cases h

theorem of_eq (h : ∀ m, m.depths = d → ending (q m) = ending (p m)) : Below d p q :=
  fun m hm _ ho => (h m hm).trans ho

theorem bind {f g : α → Run β} (h : Below d p q) (hp : Keeps p) (hf : ∀ a, Below d (f a) (g a)) :
    Below d (p >>= f) (q >>= g) := by
  intro m hm o ho
  have hpq := h m hm
  have hk := (hp m).unchanged.depths
  change ending (EStateM.bind p f m) = some o at ho
  show ending (EStateM.bind q g m) = some o
  unfold EStateM.bind at ho ⊢
  generalize p m = r at *
  generalize q m = r' at *
  cases r with
  | ok a m₁ =>
    have hr := hpq _ rfl
    cases r' with
    | ok a' m₁' =>
      cases hr
      exact hf a m₁ (hk.trans hm) o ho
    | error s m₁' => cases s <;> cases hr
  | error s m₁ =>
    cases s with
    | fault e =>
      have hr := hpq _ rfl
      cases r' with
      | ok a' m₁' => cases hr
      | error s m₁' =>
        cases s with
        | fault e' =>
          simp only [ending, Option.some.injEq, Prod.mk.injEq, Except.error.injEq] at hr ho ⊢
          rw [← ho, hr.1, hr.2]
        | exhausted => cases hr
    | exhausted => cases ho

theorem get_bind {f g : Machine → Run β} (h : ∀ m, m.depths = d → Below d (f m) (g m)) :
    Below d (get >>= f) (get >>= g) :=
  fun m hm => h m hm m hm

theorem fail (t t' : Token) (cause : RuntimeCause) :
    Below d (Run.fail t cause : Run α) (Run.fail t' cause) :=
  .of_eq fun _ _ => rfl

theorem blaming (t t' : Token) (r : Except RuntimeCause α) :
    Below d (Run.blaming t r) (Run.blaming t' r) := by
  cases r with
  | ok a => exact .refl d _
  | error cause => exact .fail t t' cause

theorem getAt (scope distance : Nat) {x x' : Token} (hx : x'.lexeme = x.lexeme) :
    Below d (Run.getAt scope distance x) (Run.getAt scope distance x') := by
  intro m _ o ho
  unfold Run.getAt at ho ⊢
  rw [hx]
  split at ho
  · exact ho
  · exact ho

end Below

/-- References to the same name with the same depth. -/
structure Alike (d : Depths) (r r' : Reference) : Prop where
  name : r.name.Like r'.name
  depth : d.get? r'.id = d.get? r.id

namespace Below

variable {d : Depths} {r r' : Reference}

theorem read (scope : Nat) (h : Alike d r r') : Below d (Run.read scope r) (Run.read scope r') := by
  rintro m rfl o ho
  unfold Run.read at ho ⊢
  rw [h.depth, h.name.lexeme]
  split at ho
  · exact getAt _ _ h.name.lexeme m rfl o ho
  · generalize m.scopes.get? Machine.global r.name.lexeme = v at ho
    cases v with
    | some v => exact ho
    | none =>
      unfold Run.found at ho ⊢
      rw [h.name.lexeme]
      exact ho

theorem write (scope : Nat) (h : Alike d r r') (v : Value) :
    Below d (Run.write scope r v) (Run.write scope r' v) := by
  rintro m rfl o ho
  have ht : m.target? scope r' = m.target? scope r := by
    unfold Machine.target?
    rw [h.depth, h.name.lexeme]
  unfold Run.write at ho ⊢
  rw [ht, h.name.lexeme]
  split at ho
  · exact ho
  · exact ho

theorem property (id : Nat) (c : Class) {x x' : Token} (hx : x.Like x') :
    Below d (Run.property id c x) (Run.property id c x') := by
  unfold Run.property
  apply get_bind
  intro m _
  rw [hx.lexeme]
  split
  · exact .refl d _
  · split
    · exact .refl d _
    · exact .fail _ _ _

theorem callHost (f : HostFunction) (args : List Value) (c c' : Token) :
    Below d (Run.callHost f args c) (Run.callHost f args c') := by
  intro m _ o ho
  obtain ⟨name, arity, code⟩ := f
  cases code with
  | clock => exact ho
  | given i =>
    simp only [Run.callHost] at ho ⊢
    split at ho
    · exact ho
    · exact ho

end Below

end Run

namespace Evaluation

open Run

variable {d : Depths}

theorem below_arguments {eval eval' : Expr → Run Value} (hk : ∀ e, Keeps (eval e)) :
    {es es' : List Expr} → es.length = es'.length →
    (∀ p ∈ es.zip es', Below d (eval p.1) (eval' p.2)) →
    Below d (arguments eval es) (arguments eval' es') := by
  intro es
  induction es with
  | nil =>
    intro es' hl _
    rw [List.eq_nil_of_length_eq_zero hl.symm]
    exact .refl d _
  | cons e es ih =>
    intro es' hl h
    cases es' with
    | nil => cases hl
    | cons e' es' =>
      rw [List.zip_cons_cons, List.forall_mem_cons] at h
      apply Below.bind h.1 (hk e)
      intro v
      exact .bind (ih (Nat.succ.inj hl) h.2) (keeps_arguments hk es) fun _ => .refl d _

section Calls

variable {exec exec' : Nat → Stmt → Run Flow} (hk : ∀ scope s, Keeps (exec scope s))
  (h : ∀ scope s, Below d (exec scope s) (exec' scope s))

include hk h

theorem below_sequence (scope : Nat) (ss : List Stmt) :
    Below d (sequence (exec scope) ss) (sequence (exec' scope) ss) := by
  induction ss with
  | nil => exact .refl d _
  | cons s ss ih =>
    apply Below.bind (h scope s) (hk scope s)
    intro flow
    cases flow with
    | normal => exact ih
    | returned v => exact .refl d _

theorem below_enter (f : Closure) (args : List Value) :
    Below d (enter exec f args) (enter exec' f args) := by
  apply Below.bind (.refl d _) (.newScope _)
  intro scope
  apply Below.bind (.refl d _) (keeps_defineAll _ _ _)
  intro _
  exact .bind (below_sequence hk h _ _) (keeps_sequence (hk scope) _) fun flow => .refl d _

theorem below_construct (c : Class) (args : List Value) :
    Below d (construct exec c args) (construct exec' c args) := by
  unfold construct
  apply Below.bind (.refl d _) (.newInstance _)
  intro self
  split
  · apply Below.bind (.refl d _) (.bindMethod _ _)
    intro init
    exact .bind (below_enter hk h _ _) (keeps_enter hk _ _) fun _ => .refl d _
  · exact .refl d _

theorem below_invoke (f : Value) (args : List Value) (c c' : Token) :
    Below d (invoke exec f args c) (invoke exec' f args c') := by
  unfold invoke
  split
  · exact below_enter hk h _ _
  · exact .callHost _ _ _ _
  · exact below_construct hk h _ _
  · exact .fail _ _ _

end Calls

theorem below_checkArity (f : Value) (args : List Value) (c c' : Token) :
    Below d (checkArity f args c) (checkArity f args c') := by
  unfold checkArity
  split
  · exact .fail _ _ _
  · split
    · exact .refl d _
    · exact .fail _ _ _

theorem below_superMethod (scope : Nat) {r r' : Reference} {x x' : Token} (hr : Alike d r r')
    (hx : x.Like x') : Below d (superMethod scope r x) (superMethod scope r' x') := by
  apply Below.get_bind
  intro m hm
  rw [hm, hr.depth]
  split
  · apply Below.bind (.getAt _ _ hr.name.lexeme) (.getAt _ _ _)
    intro c
    split
    · have hthis : (Token.ofName "this" r'.name.line).lexeme = (Token.ofName "this" r.name.line).lexeme :=
        rfl
      apply Below.bind (.getAt _ _ hthis) (.getAt _ _ _)
      intro self
      split
      · rw [hx.lexeme]
        split
        · exact .refl d _
        · exact .fail _ _ _
      · exact .fail _ _ _
    · exact .fail _ _ _
  · exact .fail _ _ _

/-- What a higher bound, and alike expressions, do not change in a computation bounded by
`n`. -/
structure Rising (d : Depths) (n : Nat) : Prop where
  evaluate {k : Nat} {e e' : Expr} (h : e.Like (Alike d) k e') {n' : Nat} (hn : n + k ≤ n')
    (scope : Nat) : Below d (evaluate n scope e) (evaluate n' scope e')
  execute {n' : Nat} (hn : n ≤ n') (scope : Nat) (s : Stmt) :
    Below d (execute n scope s) (execute n' scope s)
  loop {n' : Nat} (hn : n ≤ n') (scope : Nat) (condition : Expr) (body : Stmt) :
    Below d (loop n scope condition body) (loop n' scope condition body)

namespace Rising

variable {n : Nat}

theorem same (h : Rising d n) {n' : Nat} (hn : n ≤ n') (scope : Nat) (e : Expr) :
    Below d (Evaluation.evaluate n scope e) (Evaluation.evaluate n' scope e) :=
  h.evaluate (.refl (fun r => ⟨.refl r.name, rfl⟩) e) hn scope

theorem evaluate_succ (h : Rising d n) {k : Nat} {e e' : Expr} (he : e.Like (Alike d) k e')
    {n' : Nat} (hn : n + 1 + k ≤ n') (scope : Nat) :
    Below d (Evaluation.evaluate (n + 1) scope e) (Evaluation.evaluate n' scope e') := by
  have keeps := (keeping n).evaluate scope
  obtain ⟨j, rfl⟩ : ∃ j, n' = j + 1 := ⟨n' - 1, by omega⟩
  induction he generalizing j with
  | closed _ ih =>
    -- Only the second bound goes down here: this is where the derivation of `he` counts.
    obtain ⟨i, rfl⟩ : ∃ i, j = i + 1 := ⟨j - 1, by omega⟩
    exact ih i (by omega)
  | opened he => exact h.evaluate he (by omega) scope
  | literal v => exact .refl d _
  | grouping he => exact h.evaluate he (by omega) scope
  | unary ho he =>
    simp only [Evaluation.evaluate, ho.kind]
    exact .bind (h.evaluate he (by omega) scope) (keeps _) fun _ => .blaming _ _ _
  | binary hl ho hr =>
    simp only [Evaluation.evaluate, ho.kind]
    apply Below.bind (h.evaluate hl (by omega) scope) (keeps _)
    intro a
    exact .bind (h.evaluate hr (by omega) scope) (keeps _) fun _ => .blaming _ _ _
  | logical hl ho hr =>
    simp only [Evaluation.evaluate, ho.kind]
    apply Below.bind (h.evaluate hl (by omega) scope) (keeps _)
    intro a
    split
    · exact .refl d _
    · exact h.evaluate hr (by omega) scope
  | var hr => exact .read scope hr
  | assign hr he =>
    apply Below.bind (h.evaluate he (by omega) scope) (keeps _)
    intro v
    exact .bind (.write scope hr v) (.write _ _ _) fun _ => .refl d _
  | call hf hc hl hes =>
    apply Below.bind (h.evaluate hf (by omega) scope) (keeps _)
    intro f
    apply Below.bind (below_arguments keeps hl fun p hp => h.evaluate (hes p hp) (by omega) scope)
      (keeps_arguments keeps _)
    intro vs
    apply Below.bind (below_checkArity _ _ _ _) (keeps_checkArity _ _ _)
    intro _
    exact below_invoke (keeping n).execute (h.execute (by omega)) _ _ _ _
  | get he hx =>
    apply Below.bind (h.evaluate he (by omega) scope) (keeps _)
    intro v
    split
    · exact .property _ _ hx
    · exact .fail _ _ _
  | set he hx hv =>
    apply Below.bind (h.evaluate he (by omega) scope) (keeps _)
    intro u
    split
    · apply Below.bind (h.evaluate hv (by omega) scope) (keeps _)
      intro v
      rw [hx.lexeme]
      exact .refl d _
    · exact .fail _ _ _
  | this hr => exact .read scope hr
  | super hr hx => exact below_superMethod scope hr hx

theorem execute_succ (h : Rising d n) {n' : Nat} (hn : n + 1 ≤ n') (scope : Nat) (s : Stmt) :
    Below d (Evaluation.execute (n + 1) scope s) (Evaluation.execute n' scope s) := by
  obtain ⟨j, rfl⟩ : ∃ j, n' = j + 1 := ⟨n' - 1, by omega⟩
  have hj : n ≤ j := by omega
  have same := h.same hj scope
  have keeps := (keeping n).evaluate scope
  unfold Evaluation.execute
  cases s with
  | expression e => exact .bind (same e) (keeps e) fun _ => .refl d _
  | print e => exact .bind (same e) (keeps e) fun _ => .refl d _
  | var x e =>
    cases e with
    | none => exact .refl d _
    | some e => exact .bind (same e) (keeps e) fun _ => .refl d _
  | block ss =>
    apply Below.bind (.refl d _) (.newScope _)
    exact fun inner => below_sequence (keeping n).execute (h.execute hj) inner ss
  | «if» e yes no =>
    apply Below.bind (same e) (keeps e)
    intro v
    split
    · exact h.execute hj scope yes
    · cases no with
      | none => exact .refl d _
      | some no => exact h.execute hj scope no
  | «while» e body => exact h.loop hj scope e body
  | function f => exact .refl d _
  | «return» t e =>
    cases e with
    | none => exact .refl d _
    | some e => exact .bind (same e) (keeps e) fun _ => .refl d _
  | «class» x r ms => exact .refl d _

theorem loop_succ (h : Rising d n) {n' : Nat} (hn : n + 1 ≤ n') (scope : Nat) (condition : Expr)
    (body : Stmt) : Below d (Evaluation.loop (n + 1) scope condition body)
      (Evaluation.loop n' scope condition body) := by
  obtain ⟨j, rfl⟩ : ∃ j, n' = j + 1 := ⟨n' - 1, by omega⟩
  have hj : n ≤ j := by omega
  unfold Evaluation.loop
  apply Below.bind (h.same hj scope condition) ((keeping n).evaluate _ _)
  intro v
  split
  · apply Below.bind (h.execute hj scope body) ((keeping n).execute _ _)
    intro flow
    cases flow with
    | normal => exact h.loop hj scope condition body
    | returned v => exact .refl d _
  · exact .refl d _

end Rising

theorem rising (d : Depths) (n : Nat) : Rising d n := by
  induction n with
  | zero => constructor <;> intros <;> exact .exhausted _
  | succ n ih => exact ⟨ih.evaluate_succ, ih.execute_succ, ih.loop_succ⟩

/-- Alike expressions end alike, if they end at all. -/
theorem ends_alike {m : Machine} {k : Nat} {e e' : Expr} (h : e.Like (Alike m.depths) k e')
    (scope : Nat) (o : Except String Value × Machine) :
    (∃ b, ending (evaluate b scope e m) = some o) ↔ ∃ b, ending (evaluate b scope e' m) = some o := by
  constructor
  · rintro ⟨b, hb⟩
    exact ⟨b + k, (rising m.depths b).evaluate h (Nat.le_refl _) scope m rfl o hb⟩
  · rintro ⟨b, hb⟩
    have h' : e'.Like (Alike m.depths) k e := h.symm fun _ _ hr => ⟨hr.name.symm, hr.depth.symm⟩
    exact ⟨b + k, (rising m.depths b).evaluate h' (Nat.le_refl _) scope m rfl o hb⟩

end Evaluation

end Lox
