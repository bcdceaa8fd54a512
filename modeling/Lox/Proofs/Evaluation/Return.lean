import Lox.Proofs.Evaluation.Order

/-!
# How a `return` leaves a function

A `return` that is executed ends all statements around it, up to the call, and nothing is
started after it. The other way round a statement leaves the function only because a
`return` in it was executed.
-/

set_option autoImplicit false

namespace Lox.Evaluation

open Run

namespace Task

def isExpression : Task → Bool
  | .evaluate .. => true
  | .execute .. | .loop .. => false

end Task

/-- What is visited from a task on, without the bodies of calls. -/
inductive Within : Task → Machine → Task → Machine → Prop
  | self {t : Task} {m : Machine} : Within t m t m
  | step {t t₁ t₂ : Task} {m m₁ m₂ : Machine} (h : Spawns t m t₁ m₁)
      (hc : t.isExpression = true → t₁.isExpression = true) (hs : Within t₁ m₁ t₂ m₂) :
      Within t m t₂ m₂

/-- A statement, or a loop, ends with a flow. -/
inductive Flows : Task → Machine → Flow → Machine → Prop
  | execute {n scope : Nat} {s : Stmt} {m m' : Machine} {flow : Flow}
      (h : execute n scope s m = .ok flow m') : Flows (.execute n scope s) m flow m'
  | loop {n scope : Nat} {e : Expr} {s : Stmt} {m m' : Machine} {flow : Flow}
      (h : loop n scope e s m = .ok flow m') : Flows (.loop n scope e s) m flow m'

/-- The value of a `return`. -/
def returnValue (n scope : Nat) : Option Expr → Run Value
  | some e => evaluate n scope e
  | none => return .nil

theorem execute_return (n scope : Nat) (keyword : Token) (e : Option Expr) :
    execute (n + 1) scope (.return keyword e) =
      (do return .returned (← returnValue n scope e)) := by
  cases e <;> rfl

section Sequences

variable {exec : Stmt → Run Flow} {n scope : Nat} {before after : List Stmt} {s : Stmt}
  {m m₁ m₂ : Machine} {v : Value}

/-- What stands behind a statement that leaves the function is not executed. -/
theorem sequence_returned (hb : sequence exec before m = .ok .normal m₁)
    (hs : exec s m₁ = .ok (.returned v) m₂) :
    sequence exec (before ++ s :: after) m = .ok (.returned v) m₂ := by
  induction before generalizing m with
  | nil =>
    cases hb
    exact Run.bind_ok hs
  | cons s' before ih =>
    obtain ⟨m', hs', hb⟩ := normal_of_sequence hb
    exact (Run.bind_ok hs').trans (ih hb)

theorem startedStmts_returned (after : List Stmt) (hb : sequence (execute n scope) before m = .ok .normal m₁)
    (hs : execute n scope s m₁ = .ok (.returned v) m₂) :
    ∃ started, startedStmts n scope (before ++ s :: after) m =
      started ++ [(.execute n scope s, m₁)] := by
  induction before generalizing m with
  | nil =>
    cases hb
    refine ⟨[], ?_⟩
    rw [List.nil_append, startedStmts, hs]
    rfl
  | cons s' before ih =>
    obtain ⟨m', hs', hb⟩ := normal_of_sequence hb
    obtain ⟨started, h⟩ := ih hb
    refine ⟨(.execute n scope s', m) :: started, ?_⟩
    rw [List.cons_append, startedStmts, hs']
    exact congrArg ((.execute n scope s', m) :: ·) h

theorem returned_of_sequence {ss : List Stmt} (h : sequence exec ss m = .ok (.returned v) m₂) :
    ∃ before s after m₁, ss = before ++ s :: after ∧ sequence exec before m = .ok .normal m₁ ∧
      exec s m₁ = .ok (.returned v) m₂ := by
  induction ss generalizing m with
  | nil => cases h
  | cons s ss ih =>
    obtain ⟨flow, m', hs, h⟩ := ok_of_bind h
    cases flow with
    | normal =>
      obtain ⟨before, s', after, m₁, rfl, hb, hs'⟩ := ih h
      exact ⟨s :: before, s', after, m₁, rfl, (Run.bind_ok hs).trans hb, hs'⟩
    | returned w =>
      cases h
      exact ⟨[], s, ss, m, rfl, rfl, hs⟩

end Sequences

section Flows

variable {t t' : Task} {m m' m₁ : Machine} {v : Value}

/-- A statement that leaves the function is the last that is started by the one around it, which
leaves the function with the same value. -/
theorem Flows.around (hsp : Spawns t m t' m₁) (ht : t.isExpression = false)
    (h : Flows t' m₁ (.returned v) m') :
    Flows t m (.returned v) m' ∧ ∃ started, t.starts m = started ++ [(t', m₁)] := by
  cases h with
  | @execute n scope s m₁ m' flow h =>
    cases hsp with
    | body => cases ht
    | inner hn hb =>
      obtain ⟨started, hl⟩ := startedStmts_returned _ hb h
      refine ⟨.execute ((Run.bind_ok hn).trans (sequence_returned hb h)), started, ?_⟩
      rw [Task.starts, hn]
      exact hl
    | @yes _ _ _ _ e yes no w he hw =>
      refine ⟨.execute ?_, [(.evaluate n scope e, m)], ?_⟩
      · refine (Run.bind_ok he).trans ?_
        simp only [hw, if_true]
        exact h
      · simp only [Task.starts, he, behind, hw, if_true]
        rfl
    | @no _ _ _ _ e yes no w he hw =>
      refine ⟨.execute ?_, [(.evaluate n scope e, m)], ?_⟩
      · refine (Run.bind_ok he).trans ?_
        simp only [hw]
        exact h
      · simp only [Task.starts, he, behind, hw]
        rfl
    | @loopBody _ _ _ _ e body w he hw =>
      refine ⟨.loop ?_, [(.evaluate n scope e, m)], ?_⟩
      · refine (Run.bind_ok he).trans ?_
        simp only [hw, if_true]
        exact Run.bind_ok h
      · simp only [Task.starts, he, behind, hw, if_true, h]
        rfl
  | @loop n scope e body m₁ m' flow h =>
    cases hsp with
    | «while» => exact ⟨.execute h, [], rfl⟩
    | @again _ _ _ m₁ _ _ _ w he hw hb =>
      refine ⟨.loop ?_, [(.evaluate n scope e, m), (.execute n scope body, m₁)], ?_⟩
      · refine (Run.bind_ok he).trans ?_
        simp only [hw, if_true]
        exact (Run.bind_ok hb).trans h
      · simp only [Task.starts, he, behind, hw, if_true, hb]
        rfl

theorem Within.statement {t'' : Task} {m'' : Machine} (h : Within t'' m'' t' m')
    (hsp : Spawns t m t'' m'') (ht : t.isExpression = false) : Within t m t' m' := by
  refine .step hsp (fun he => ?_) h
  rw [ht] at he
  cases he

theorem Within.isExpression (h : Within t m t' m') (ht : t.isExpression = true) :
    t'.isExpression = true := by
  induction h with
  | self => exact ht
  | step _ hc _ ih => exact ih (hc ht)

/-- A `return` leaves all that it is executed within, and is the end of the log. -/
theorem Within.returned {k scope : Nat} {keyword : Token} {e : Option Expr}
    (h : Within t m (.execute (k + 1) scope (.return keyword e)) m₁)
    (hv : returnValue k scope e m₁ = .ok v m') :
    Flows t m (.returned v) m' ∧
      Task.log (.execute (k + 1) scope (.return keyword e)) m₁ <:+ t.log m := by
  generalize ht' : Task.execute (k + 1) scope (.return keyword e) = t' at h
  induction h with
  | self =>
    subst ht'
    refine ⟨.execute ?_, List.suffix_refl _⟩
    rw [execute_return]
    exact Run.bind_ok hv
  | @step t t₁ t₂ m m₁ m₂ hsp hc hs ih =>
    obtain ⟨hflows, hlog⟩ := ih hv ht'
    have ht : t.isExpression = false := by
      rw [Bool.eq_false_iff]
      intro ht
      have hreturn := hs.isExpression (hc ht)
      rw [← ht'] at hreturn
      cases hreturn
    obtain ⟨h, started, hl⟩ := hflows.around hsp ht
    exact ⟨h, hlog.trans (Task.log_suffix hl)⟩

/-- A statement that leaves the function is a `return`, or starts another one that does. -/
theorem Flows.returned_cases (h : Flows t m (.returned v) m') :
    (∃ k scope keyword e, t = .execute (k + 1) scope (.return keyword e) ∧
      returnValue k scope e m = .ok v m') ∨
    ∃ t₁ m₁, Spawns t m t₁ m₁ ∧ t.isExpression = false ∧ Flows t₁ m₁ (.returned v) m' := by
  cases h with
  | @execute n scope s _ _ _ h =>
    cases n with
    | zero => cases h
    | succ n =>
      cases s with
      | expression e =>
        obtain ⟨_, _, _, h⟩ := ok_of_bind h
        cases h
      | print e =>
        obtain ⟨_, _, _, h⟩ := ok_of_bind h
        obtain ⟨_, _, _, h⟩ := ok_of_bind h
        cases h
      | var x e =>
        cases e with
        | none =>
          obtain ⟨_, _, _, h⟩ := ok_of_bind h
          cases h
        | some e =>
          obtain ⟨_, _, _, h⟩ := ok_of_bind h
          obtain ⟨_, _, _, h⟩ := ok_of_bind h
          cases h
      | block ss =>
        obtain ⟨inner, m₁, hn, h⟩ := ok_of_bind h
        obtain ⟨before, s, after, m₂, rfl, hb, hs⟩ := returned_of_sequence h
        exact .inr ⟨_, _, .inner hn hb, rfl, .execute hs⟩
      | «if» e yes no =>
        obtain ⟨w, m₁, he, h⟩ := ok_of_bind h
        cases hw : w.truthy with
        | true =>
          simp only [hw, if_true] at h
          exact .inr ⟨_, _, .yes he hw, rfl, .execute h⟩
        | false =>
          simp only [hw] at h
          cases no with
          | none => cases h
          | some no => exact .inr ⟨_, _, .no he hw, rfl, .execute h⟩
      | «while» e body => exact .inr ⟨_, _, .while, rfl, .loop h⟩
      | function f =>
        obtain ⟨_, _, _, h⟩ := ok_of_bind h
        obtain ⟨_, _, _, h⟩ := ok_of_bind h
        cases h
      | «return» keyword e =>
        rw [execute_return] at h
        obtain ⟨w, m₁, hv, h⟩ := ok_of_bind h
        cases h
        exact .inl ⟨n, scope, keyword, e, rfl, hv⟩
      | «class» x r ms =>
        obtain ⟨_, _, _, h⟩ := ok_of_bind h
        cases h
  | @loop n scope e s _ _ _ h =>
    cases n with
    | zero => cases h
    | succ n =>
      obtain ⟨w, m₁, he, h⟩ := ok_of_bind h
      cases hw : w.truthy with
      | false =>
        simp only [hw] at h
        cases h
      | true =>
        simp only [hw, if_true] at h
        obtain ⟨flow, m₂, hb, h⟩ := ok_of_bind h
        cases flow with
        | normal => exact .inr ⟨_, _, .again he hw hb, rfl, .loop h⟩
        | returned u =>
          cases h
          exact .inr ⟨_, _, .loopBody he hw, rfl, .execute hb⟩

/-- A statement leaves the function because of a `return` in it. -/
theorem Flows.within {t : Task} {m m' : Machine} {v : Value} (h : Flows t m (.returned v) m') :
    ∃ k scope keyword e m₁, Within t m (.execute (k + 1) scope (.return keyword e)) m₁ ∧
      returnValue k scope e m₁ = .ok v m' := by
  obtain ⟨k, scope, keyword, e, rfl, hv⟩ | ⟨t₁, m₁, hsp, ht, hflows⟩ := h.returned_cases
  · exact ⟨k, scope, keyword, e, m, .self, hv⟩
  · obtain ⟨k, scope, keyword, e, m₂, hw, hv⟩ := hflows.within
    exact ⟨k, scope, keyword, e, m₂, hw.statement hsp ht, hv⟩
termination_by t.rank
decreasing_by exact Task.rank_lt_of_spawns hsp

end Flows

/-- A call of a function, no initializer, comes to run the body of `f` in scope `inner`. -/
inductive Enters (n scope : Nat) (callee : Expr) (paren : Token) (es : List Expr) (m : Machine)
    (f : Closure) (inner : Nat) (m' : Machine) : Prop
  | intro {id : Nat} {vs : List Value} {m₁ m₂ m₃ : Machine}
      (hf : evaluate n scope callee m = .ok (.function id f) m₁)
      (hvs : arguments (evaluate n scope) es m₁ = .ok vs m₂)
      (ha : checkArity (.function id f) vs paren m₂ = .ok () m₃)
      (ho : opened f vs m₃ = .ok inner m') (hi : f.isInitializer = false)

/-- Task `t` is started in the course of a body, calls in it left out. -/
def InBody (n inner : Nat) (body : List Stmt) (m : Machine) (t : Task) (m' : Machine) : Prop :=
  ∃ x ∈ startedStmts n inner body m, Within x.1 x.2 t m'

section Calls

variable {n scope : Nat} {callee : Expr} {paren : Token} {es : List Expr} {m : Machine}
  {f : Closure} {inner : Nat} {m₁ m₂ m₃ : Machine} {v : Value}

theorem Enters.evaluate_eq (h : Enters n scope callee paren es m f inner m₁) :
    evaluate (n + 1) scope (.call callee paren es) m = (do
      match ← sequence (execute n inner) f.declaration.body with
      | .normal => return .nil
      | .returned v => return v : Run Value) m₁ := by
  obtain ⟨hf, hvs, ha, ho, hi⟩ := h
  refine (Run.bind_ok hf).trans ((Run.bind_ok hvs).trans ((Run.bind_ok ha).trans ?_))
  rw [invoke, enter_eq]
  refine (Run.bind_ok ho).trans ?_
  simp only [hi]
  rfl

theorem Enters.exists_starts (h : Enters n scope callee paren es m f inner m₁) :
    ∃ started, Task.starts (.evaluate (n + 1) scope (.call callee paren es)) m =
      started ++ startedStmts n inner f.declaration.body m₁ := by
  cases h with
  | @intro id vs m₂ m₃ m₄ hf hvs ha ho =>
    refine ⟨(.evaluate n scope callee, m) :: startedExprs n scope es m₂, ?_⟩
    simp only [Task.starts, hf, hvs, ha, ho, behind, startedBody, List.cons_append]

/-- A `return` in the body of a call ends the call. -/
theorem Enters.returned {k i : Nat} {keyword : Token} {e : Option Expr}
    (h : Enters n scope callee paren es m f inner m₁)
    (hr : InBody n inner f.declaration.body m₁ (.execute (k + 1) i (.return keyword e)) m₂)
    (hv : returnValue k i e m₂ = .ok v m₃) :
    evaluate (n + 1) scope (.call callee paren es) m = .ok v m₃ ∧
      Task.log (.execute (k + 1) i (.return keyword e)) m₂ <:+
        Task.log (.evaluate (n + 1) scope (.call callee paren es)) m := by
  obtain ⟨x, hx, hw⟩ := hr
  obtain ⟨before, s, after, m', hbody, hb, rfl⟩ := mem_startedStmts.1 hx
  obtain ⟨hflows, hlog⟩ := hw.returned hv
  cases hflows with
  | execute hs =>
    constructor
    · rw [h.evaluate_eq, hbody]
      exact Run.bind_ok (sequence_returned hb hs)
    · obtain ⟨started, hstarts⟩ := h.exists_starts
      obtain ⟨started', hstarts'⟩ := startedStmts_returned after hb hs
      rw [hbody, hstarts', ← List.append_assoc] at hstarts
      exact hlog.trans (Task.log_suffix hstarts)

/-- A call in which no `return` is executed yields `nil`. -/
theorem Enters.normal (h : Enters n scope callee paren es m f inner m₁)
    (hv : evaluate (n + 1) scope (.call callee paren es) m = .ok v m₂)
    (hn : ∀ k i keyword e m', ¬ InBody n inner f.declaration.body m₁
      (.execute (k + 1) i (.return keyword e)) m') : v = .nil := by
  rw [h.evaluate_eq] at hv
  obtain ⟨flow, m', hbody, hv⟩ := ok_of_bind hv
  cases flow with
  | normal =>
    cases hv
    rfl
  | returned w =>
    obtain ⟨before, s, after, m'', hss, hb, hs⟩ := returned_of_sequence hbody
    obtain ⟨k, i, keyword, e, m₃, hw, -⟩ := (Flows.execute hs).within
    exact absurd ⟨_, mem_startedStmts.2 ⟨before, s, after, m'', hss, hb, rfl⟩, hw⟩
      (hn k i keyword e m₃)

end Calls

end Lox.Evaluation
