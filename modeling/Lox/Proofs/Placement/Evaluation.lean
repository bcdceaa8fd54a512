import Lox.Proofs.Placement.Order

/-!
# Evaluation on sane machines

Whatever is evaluated or executed stands in a program, in scopes that follow what encloses
it there, also the body of a closure that was made long before. The machine stays sane, and
the values are valid. The induction is on the bound: what a task spawns is ready once the
tasks before it have ended.
-/

set_option autoImplicit false

namespace Lox.Placement

open Scoping Evaluation

variable {S : Setting} {m m' : Machine} {t t' : Task} {n : Nat}

def boundOf : Task → Nat
  | .evaluate n .. | .execute n .. | .loop n .. => n

/-- What a task runs stands in a program. A variable may also be that of a superclass clause. -/
def Placed (S : Setting) (m : Machine) : Task → Prop
  | .evaluate _ _ (.var _) => True
  | .evaluate _ i e => Stands S m i (.expr e)
  | .execute _ i s => Stands S m i (.stmt s)
  | .loop _ i e s => Stands S m i (.stmt (.while e s))

theorem placed_evaluate {i : Nat} {e : Expr} (h : Stands S m i (.expr e)) :
    Placed S m (.evaluate n i e) := by
  cases e with
  | var => trivial
  | _ => exact h

/-- A task that is reached on a sane machine and stands in a program. -/
structure Ready (S : Setting) (t : Task) (m : Machine) : Prop where
  sane : Sane S m
  reached : S.reached t m
  placed : Placed S m t

/-- What the tasks of a bound make of machines on which they are ready. -/
structure Preserves (S : Setting) (n : Nat) : Prop where
  evaluate {i : Nat} {e : Expr} {m : Machine} (h : Ready S (.evaluate n i e) m) :
    Ends S m (Valid S) (evaluate n i e m)
  execute {i : Nat} {s : Stmt} {m : Machine} (h : Ready S (.execute n i s) m) :
    Ends S m (ValidFlow S) (execute n i s m)
  loop {i : Nat} {e : Expr} {s : Stmt} {m : Machine} (h : Ready S (.loop n i e s) m) :
    Ends S m (ValidFlow S) (loop n i e s m)

theorem ready_expr {i : Nat} {e : Expr} {node : Node} (hr : S.reached (.evaluate n i e) m')
    (hst : Stands S m i node) (hk : ([], .expr e) ∈ node.children) (hg : m.Grows m')
    (hs : Sane S m') : Ready S (.evaluate n i e) m' :=
  ⟨hs, hr, placed_evaluate (hst.part hk hg)⟩

theorem ready_stmt {i : Nat} {s : Stmt} {node : Node} (hr : S.reached (.execute n i s) m')
    (hst : Stands S m i node) (hk : ([], .stmt s) ∈ node.children) (hg : m.Grows m')
    (hs : Sane S m') : Ready S (.execute n i s) m' :=
  ⟨hs, hr, hst.part hk hg⟩

namespace Preserves

variable (hn : Preserves S n)

include hn

/-- Expressions that are reached one after another in one scope. -/
theorem arguments {i : Nat} {es : List Expr} (hs : Sane S m)
    (hst : ∀ e ∈ es, Stands S m i (.expr e))
    (hr : ∀ before e after vs m', es = before ++ e :: after →
      Evaluation.arguments (Evaluation.evaluate n i) before m = .ok vs m' →
        S.reached (.evaluate n i e) m') :
    Ends S m (fun m' vs => ∀ v ∈ vs, Valid S m' v)
      (Evaluation.arguments (Evaluation.evaluate n i) es m) := by
  refine (Orderly.arguments hs fun e m' hx hg hs' => hn.evaluate ?_).ends
  obtain ⟨before, e, after, vs, m', rfl, hvs, ⟨⟩⟩ := mem_startedExprs.1 hx
  have he := hst e (List.mem_append_right _ List.mem_cons_self)
  exact ⟨hs', hr before e after vs m' rfl hvs, placed_evaluate (he.later hg)⟩

/-- Statements that are reached one after another in one scope. -/
theorem sequence {i : Nat} {ss : List Stmt} (hs : Sane S m)
    (hst : ∀ s ∈ ss, Stands S m i (.stmt s))
    (hr : ∀ before s after m', ss = before ++ s :: after →
      Evaluation.sequence (Evaluation.execute n i) before m = .ok .normal m' →
        S.reached (.execute n i s) m') :
    Ends S m (ValidFlow S) (Evaluation.sequence (Evaluation.execute n i) ss m) := by
  refine (Orderly.sequence hs fun s m' hx hg hs' => hn.execute ?_).ends
  obtain ⟨before, s, after, m', rfl, hbefore, ⟨⟩⟩ := mem_startedStmts.1 hx
  have hplace := hst s (List.mem_append_right _ List.mem_cons_self)
  exact ⟨hs', hr before s after m' rfl hbefore, hplace.later hg⟩

end Preserves

/-- The scope of a block is inside the one at hand. -/
theorem Stands.block {i inner : Nat} {ss : List Stmt} (h : Stands S m i (.stmt (.block ss)))
    (hg : m.Grows m') (hi : Ordinary m' inner i) : ∀ s ∈ ss, Stands S m' inner (.stmt s) := by
  obtain ⟨program, hp, p, ho, hc⟩ := h
  intro s hs
  have hin : ([.block], .stmt s) ∈ (Node.stmt (.block ss)).children := List.mem_map.2 ⟨s, hs, rfl⟩
  exact ⟨program, hp, .block :: p, ho.child hin, .inner rfl hi (hc.grow (.refl S) hg)⟩

/-- The machine after the expression that a task evaluates first. -/
theorem Ready.first {k i : Nat} {e : Expr} {v : Value} {node : Node} {m₁ : Machine}
    (h : Ready S t m) (hn : Preserves S k) (hsp : Spawns t m (.evaluate k i e) m)
    (hst : Stands S m i node) (hk : ([], .expr e) ∈ node.children)
    (he : Evaluation.evaluate k i e m = .ok v m₁) : m.Grows m₁ ∧ Sane S m₁ ∧ Valid S m₁ v :=
  (hn.evaluate (ready_expr (S.spawned h.reached hsp) hst hk (.refl m) h.sane)).of_ok he

/-- The machine after some of the arguments of a call. -/
theorem Ready.arguments {i : Nat} {f : Expr} {paren : Token} {es before after : List Expr}
    {v : Value} {vs : List Value} {m₁ m₂ : Machine}
    (h : Ready S (.evaluate (n + 1) i (.call f paren es)) m) (hn : Preserves S n)
    (hf : Evaluation.evaluate n i f m = .ok v m₁) (hes : es = before ++ after)
    (hvs : Evaluation.arguments (Evaluation.evaluate n i) before m₁ = .ok vs m₂) :
    m.Grows m₁ ∧ m₁.Grows m₂ ∧ Sane S m₂ ∧ Valid S m₂ v ∧ ∀ w ∈ vs, Valid S m₂ w := by
  have hst : Stands S m i (.expr (.call f paren es)) := h.placed
  obtain ⟨hg₁, hs₁, hv⟩ := h.first hn .callee hst (by simp [Node.children]) hf
  have hbefore : Ends S m₁ (fun m' ws => ∀ w ∈ ws, Valid S m' w)
      (Evaluation.arguments (Evaluation.evaluate n i) before m₁) := by
    apply hn.arguments hs₁
    · intro e he
      exact hst.part (by simp [Node.children, hes, he]) hg₁
    · rintro before' e' after' vs' m' rfl hvs'
      apply S.spawned h.reached
      rw [hes, List.append_assoc]
      exact .argument hf hvs'
  obtain ⟨hg₂, hs₂, hvalid⟩ := hbefore.of_ok hvs
  exact ⟨hg₁, hg₂, hs₂, hv.later hg₂, hvalid⟩

/-- A statement in the body of a call, when those before it have run. -/
theorem Ready.inBody {i inner : Nat} {f : Expr} {paren : Token} {es : List Expr} {v : Value}
    {vs : List Value} {before after : List Stmt} {s : Stmt} {m₁ m₂ m₃ m₄ m₅ : Machine}
    (h : Ready S (.evaluate (n + 1) i (.call f paren es)) m) (hn : Preserves S n)
    (hf : Evaluation.evaluate n i f m = .ok v m₁)
    (hvs : Evaluation.arguments (Evaluation.evaluate n i) es m₁ = .ok vs m₂)
    (ha : checkArity v vs paren m₂ = .ok () m₃) (ho : Opens v vs m₃ inner (before ++ s :: after) m₄)
    (hb : Evaluation.sequence (Evaluation.execute n inner) before m₄ = .ok .normal m₅) :
    m₄.Grows m₅ ∧ Sane S m₅ ∧ Stands S m₅ inner (.stmt s) := by
  -- the statements before have run in the scope of the call, where all of the body stands
  obtain ⟨-, -, hs₂, hv, hvalid⟩ := h.arguments hn hf (List.append_nil es).symm hvs
  obtain ⟨hg₃, hs₃, -⟩ := (Ends.checkArity hs₂ v vs paren).of_ok ha
  obtain ⟨hg₄, hs₄, hbody⟩ :=
    stands_of_opens ho hs₃ (hv.later hg₃) fun w hw => (hvalid w hw).later hg₃
  have hbefore : Ends S m₄ (ValidFlow S)
      (Evaluation.sequence (Evaluation.execute n inner) before m₄) := by
    apply hn.sequence hs₄ fun s' hs' => hbody s' (List.mem_append_left _ hs')
    rintro before' s' after' m' rfl hb'
    apply S.spawned h.reached
    rw [List.append_assoc] at ho
    exact .body hf hvs ha ho hb'
  obtain ⟨hg₅, hs₅, -⟩ := hbefore.of_ok hb
  exact ⟨hg₅, hs₅, (hbody s (List.mem_append_right _ List.mem_cons_self)).later hg₅⟩

/-- A statement in a block, when those before it have run. -/
theorem Ready.inBlock {i inner : Nat} {before after : List Stmt} {s : Stmt} {m₁ m₂ : Machine}
    (h : Ready S (.execute (n + 1) i (.block (before ++ s :: after))) m) (hn : Preserves S n)
    (hnew : Run.newScope i m = .ok inner m₁)
    (hb : Evaluation.sequence (Evaluation.execute n inner) before m₁ = .ok .normal m₂) :
    m₁.Grows m₂ ∧ Ordinary m₁ inner i ∧ Sane S m₂ ∧ Stands S m₂ inner (.stmt s) := by
  have hst : Stands S m i (.stmt (.block (before ++ s :: after))) := h.placed
  obtain ⟨hg₁, hs₁, hi⟩ := (Ends.newScope h.sane (hst.lt_next h.sane.global)).of_ok hnew
  have hbody := hst.block hg₁ hi
  have hbefore : Ends S m₁ (ValidFlow S)
      (Evaluation.sequence (Evaluation.execute n inner) before m₁) := by
    apply hn.sequence hs₁ fun s' hs' => hbody s' (List.mem_append_left _ hs')
    rintro before' s' after' m' rfl hb'
    apply S.spawned h.reached
    rw [List.append_assoc]
    exact .inner hnew hb'
  obtain ⟨hg₂, hs₂, -⟩ := hbefore.of_ok hb
  exact ⟨hg₂, hi, hs₂, (hbody s (List.mem_append_right _ List.mem_cons_self)).later hg₂⟩

/-- What a task spawns is ready, as long as the tasks before it preserve what they should. -/
theorem Ready.spawned (h : Ready S t m) (hn : ∀ n, boundOf t = n + 1 → Preserves S n)
    (hsp : Spawns t m t' m') : Ready S t' m' := by
  have hr := S.spawned h.reached hsp
  have hs := h.sane
  have hg := Machine.Grows.refl m
  have hst := h.placed
  cases hsp with
  | grouping | operand | left | decider | assigned | callee | object | target | expression
  | printed | initial | condition | returned | loopCondition =>
    exact ready_expr hr hst (by simp [Node.children]) hg hs
  | superclass => exact ⟨hs, hr, trivial⟩
  | «while» => exact ⟨hs, hr, hst⟩
  | right hl =>
    obtain ⟨hg₁, hs₁, -⟩ := h.first (hn _ rfl) .left hst (by simp [Node.children]) hl
    exact ready_expr hr hst (by simp [Node.children]) hg₁ hs₁
  | undecided hl ha =>
    obtain ⟨hg₁, hs₁, -⟩ := h.first (hn _ rfl) .decider hst (by simp [Node.children]) hl
    exact ready_expr hr hst (by simp [Node.children]) hg₁ hs₁
  | field he =>
    obtain ⟨hg₁, hs₁, -⟩ := h.first (hn _ rfl) .target hst (by simp [Node.children]) he
    exact ready_expr hr hst (by simp [Node.children]) hg₁ hs₁
  | yes he hv | no he hv =>
    obtain ⟨hg₁, hs₁, -⟩ := h.first (hn _ rfl) .condition hst (by simp [Node.children]) he
    exact ready_stmt hr hst (by simp [Node.children]) hg₁ hs₁
  | loopBody he hv =>
    obtain ⟨hg₁, hs₁, -⟩ := h.first (hn _ rfl) .loopCondition hst (by simp [Node.children]) he
    exact ready_stmt hr hst (by simp [Node.children]) hg₁ hs₁
  | again he hv hb =>
    obtain ⟨hg₁, hs₁, -⟩ := h.first (hn _ rfl) .loopCondition hst (by simp [Node.children]) he
    have hbody := ready_stmt (S.spawned h.reached (.loopBody he hv)) hst (by simp [Node.children])
      hg₁ hs₁
    obtain ⟨hg₂, hs₂, -⟩ := ((hn _ rfl).execute hbody).of_ok hb
    exact ⟨hs₂, hr, hst.later (hg₁.trans hg₂)⟩
  | argument hf hvs =>
    obtain ⟨hg₁, hg₂, hs₂, -⟩ := h.arguments (hn _ rfl) hf rfl hvs
    exact ready_expr hr hst (by simp [Node.children]) (hg₁.trans hg₂) hs₂
  | body hf hvs ha ho hb =>
    obtain ⟨-, hs', hst'⟩ := h.inBody (hn _ rfl) hf hvs ha ho hb
    exact ⟨hs', hr, hst'⟩
  | inner hnew hb =>
    obtain ⟨-, -, hs', hst'⟩ := h.inBlock (hn _ rfl) hnew hb
    exact ⟨hs', hr, hst'⟩

section Step

variable (hn : Preserves S n)

include hn

/-- The body that a call runs. -/
theorem Preserves.body {i inner : Nat} {f : Expr} {paren : Token} {es : List Expr} {v : Value}
    {vs : List Value} {body : List Stmt} {m₁ m₂ m₃ m₄ : Machine}
    (h : Ready S (.evaluate (n + 1) i (.call f paren es)) m)
    (hf : Evaluation.evaluate n i f m = .ok v m₁)
    (hvs : Evaluation.arguments (Evaluation.evaluate n i) es m₁ = .ok vs m₂)
    (ha : checkArity v vs paren m₂ = .ok () m₃) (ho : Opens v vs m₃ inner body m₄) :
    Ends S m₄ (ValidFlow S) (Evaluation.sequence (Evaluation.execute n inner) body m₄) := by
  obtain ⟨-, -, hs₂, hv, hvalid⟩ := h.arguments hn hf (List.append_nil es).symm hvs
  obtain ⟨hg₃, hs₃, -⟩ := (Ends.checkArity hs₂ v vs paren).of_ok ha
  obtain ⟨-, hs₄, -⟩ := stands_of_opens ho hs₃ (hv.later hg₃) fun w hw => (hvalid w hw).later hg₃
  refine (Orderly.sequence hs₄ fun s m' hx _ _ => hn.execute ?_).ends
  obtain ⟨before, s, after, m', rfl, hb, ⟨⟩⟩ := mem_startedStmts.1 hx
  exact h.spawned (fun k hk => Nat.succ.inj hk ▸ hn) (.body hf hvs ha ho hb)

theorem Preserves.evaluateSucc {i : Nat} {e : Expr} (h : Ready S (.evaluate (n + 1) i e) m) :
    Orderly S m (Valid S) (Task.starts (.evaluate (n + 1) i e) m)
      (Evaluation.evaluate (n + 1) i e m) := by
  have hs := h.sane
  have hnext {t'} {m'} (hsp : Spawns (.evaluate (n + 1) i e) m t' m') : Ready S t' m' :=
    h.spawned (fun k hk => Nat.succ.inj hk ▸ hn) hsp
  cases e with
  | literal v => exact (Ends.pure hs (.plain (by cases v <;> rfl))).orderly
  | var r => exact (Ends.read hs i r).orderly
  | this r => exact (Ends.read hs i r).orderly
  | super r method => exact (Ends.superMethod hs i r method).orderly
  | grouping => exact .task (hn.evaluate (hnext .grouping)) rfl
  | unary op e =>
    apply Orderly.thenEnds (.task (hn.evaluate (hnext .operand)) rfl)
    intro v m₁ _ _ hs₁ _
    exact .blaming hs₁ fun _ => Simulation.unary_plain
  | binary l op r =>
    apply Orderly.bind (.task (hn.evaluate (hnext .left)) rfl)
    intro a m₁ ha _ hs₁ _
    apply Orderly.bind (.task (hn.evaluate (hnext (.right ha))) rfl)
    intro b m₂ _ _ hs₂ _
    exact (Ends.blaming hs₂ fun _ => Simulation.binary_plain).orderly
  | logical l op r =>
    apply Orderly.bind (.task (hn.evaluate (hnext .decider)) rfl)
    intro a m₁ ha _ hs₁ hv
    split
    · exact (Ends.pure hs₁ hv).orderly
    · rename_i hd
      exact .task (hn.evaluate (hnext (.undecided ha (Bool.eq_false_of_not_eq_true hd)))) rfl
  | assign r e =>
    obtain ⟨program, hp, p, ho, -⟩ : Stands S m i (.expr (.assign r e)) := h.placed
    have hname : Free r.name.lexeme := (S.formed_of_occurs hp ho).1
    apply Orderly.thenEnds (.task (hn.evaluate (hnext .assigned)) rfl)
    intro v m₁ _ _ hs₁ hv
    apply Ends.bind (.write hs₁ (free_notMem hname) hv)
    intro _ m₂ _ hg₂ hs₂ _
    exact .pure hs₂ (hv.later hg₂)
  | call f paren es =>
    apply Orderly.bind (.task (hn.evaluate (hnext .callee)) rfl)
    intro v m₁ hf _ hs₁ hv
    have hlater {t'} {m'} (hx : (t', m') ∈ startedExprs n i es m₁ ++
        behind (Evaluation.arguments (Evaluation.evaluate n i) es m₁) fun vs m₂ =>
          behind (checkArity v vs paren m₂) fun _ m₃ => startedBody n v vs m₃) : Ready S t' m' :=
      hnext (mem_starts.1 (List.mem_cons_of_mem _ (mem_behind.2 ⟨v, m₁, hf, hx⟩)))
    apply Orderly.bind (.arguments hs₁ fun e m' hx _ _ =>
      hn.evaluate (hlater (List.mem_append_left _ hx)))
    intro vs m₂ hvs hg₂ hs₂ hvalid
    apply Orderly.after (.checkArity hs₂ v vs paren)
    intro _ m₃ ha hg₃ hs₃ _
    apply Orderly.invoke hs₃ (fun w hw => (hvalid w hw).later hg₃) ((hv.later hg₂).later hg₃)
    intro inner s m' hx
    apply hn.execute (hlater (List.mem_append_right _ ?_))
    exact mem_behind.2 ⟨vs, m₂, hvs, mem_behind.2 ⟨(), m₃, ha, hx⟩⟩
  | get e name =>
    apply Orderly.thenEnds (.task (hn.evaluate (hnext .object)) rfl)
    intro v m₁ _ _ hs₁ hv
    cases v with
    | «instance» id c => exact .property hs₁ hv name
    | _ => exact .fail hs₁ _ _
  | set e name value =>
    apply Orderly.bind (.task (hn.evaluate (hnext .target)) rfl)
    intro o m₁ ho _ hs₁ _
    cases o with
    | «instance» id c =>
      apply Orderly.thenEnds (.task (hn.evaluate (hnext (.field ho))) rfl)
      intro v m₂ _ _ hs₂ hv
      apply Ends.bind (.setField hs₂ hv)
      intro _ m₃ _ hg₃ hs₃ _
      exact .pure hs₃ (hv.later hg₃)
    | _ => exact (Ends.fail hs₁ _ _).orderly

theorem Preserves.executeSucc {i : Nat} {s : Stmt} (h : Ready S (.execute (n + 1) i s) m) :
    Orderly S m (ValidFlow S) (Task.starts (.execute (n + 1) i s) m)
      (Evaluation.execute (n + 1) i s m) := by
  have hs := h.sane
  have hnext {t'} {m'} (hsp : Spawns (.execute (n + 1) i s) m t' m') : Ready S t' m' :=
    h.spawned (fun k hk => Nat.succ.inj hk ▸ hn) hsp
  have hst : Stands S m i (.stmt s) := h.placed
  obtain ⟨program, hp, p, ho, hc⟩ := hst
  have hformed := S.formed_of_occurs hp ho
  cases s with
  | expression e =>
    apply Orderly.thenEnds (.task (hn.evaluate (hnext .expression)) rfl)
    intro v m₁ _ _ hs₁ _
    exact .pure hs₁ trivial
  | print e =>
    apply Orderly.thenEnds (.task (hn.evaluate (hnext .printed)) rfl)
    intro v m₁ _ _ hs₁ _
    apply Ends.bind (.printLine hs₁ v.text)
    intro _ m₂ _ _ hs₂ _
    exact .pure hs₂ trivial
  | var x e =>
    have hdefine {v : Value} {m₁ : Machine} (hs₁ : Sane S m₁) (hv : Valid S m₁ v) :
        Ends S m₁ (ValidFlow S) ((do Run.define i x.lexeme v; return .normal : Run Flow) m₁) := by
      apply Ends.bind (.define hs₁ (.inl (free_notMem hformed.1)) hv)
      intro _ m₂ _ _ hs₂ _
      exact .pure hs₂ trivial
    cases e with
    | none => exact (hdefine hs (.plain rfl)).orderly
    | some e =>
      apply Orderly.thenEnds (.task (hn.evaluate (hnext .initial)) rfl)
      intro v m₁ _ _ hs₁ hv
      exact hdefine hs₁ hv
  | block ss =>
    rw [Task.starts]
    apply Orderly.after (.newScope hs (hc.lt_next hs.global))
    intro inner m₁ hnew _ hs₁ _
    refine .sequence hs₁ fun s m' hx _ _ => hn.execute (hnext (mem_starts.1 ?_))
    rw [Task.starts]
    exact mem_behind.2 ⟨inner, m₁, hnew, hx⟩
  | «if» e yes no =>
    apply Orderly.bind (.task (hn.evaluate (hnext .condition)) rfl)
    intro v m₁ hv _ hs₁ _
    split
    · rename_i ht
      exact .task (hn.execute (hnext (.yes hv ht))) rfl
    · rename_i ht
      cases no with
      | none => exact (Ends.pure hs₁ trivial).orderly
      | some s => exact .task (hn.execute (hnext (.no hv (Bool.eq_false_of_not_eq_true ht)))) rfl
  | «while» e body => exact .task (hn.loop (hnext .while)) rfl
  | function f =>
    have hname : Free f.name.lexeme := by
      cases f with
      | mk => exact hformed.1
    apply Ends.orderly
    apply Ends.bind (.newFunction hs (.function hp ho hc rfl))
    intro v m₁ _ _ hs₁ hv
    apply Ends.bind (.define hs₁ (.inl (free_notMem hname)) hv)
    intro _ m₂ _ _ hs₂ _
    exact .pure hs₂ trivial
  | «return» t e =>
    cases e with
    | none => exact (Ends.pure hs (.plain rfl)).orderly
    | some e =>
      apply Orderly.thenEnds (.task (hn.evaluate (hnext .returned)) rfl)
      intro v m₁ _ _ hs₁ hv
      exact .pure hs₁ hv
  | «class» x r ms =>
    have hends : Ends S m (ValidFlow S) (Evaluation.execute (n + 1) i (.class x r ms) m) := by
      apply Ends.bind (.declareClass hs h.reached h.placed)
      intro _ m₁ _ _ hs₁ _
      exact .pure hs₁ trivial
    cases r with
    | none => exact hends.orderly
    | some r =>
      refine ⟨hends, fun x hx => ?_⟩
      obtain rfl := List.mem_singleton.1 hx
      have hleft : Task.left (.evaluate (n + 1) i (.var r)) m = m := Run.left_read i r m
      exact ⟨.refl m, hleft.symm ▸ hends.grows_left⟩

theorem Preserves.loopSucc {i : Nat} {e : Expr} {s : Stmt} (h : Ready S (.loop (n + 1) i e s) m) :
    Orderly S m (ValidFlow S) (Task.starts (.loop (n + 1) i e s) m)
      (Evaluation.loop (n + 1) i e s m) := by
  have hnext {t'} {m'} (hsp : Spawns (.loop (n + 1) i e s) m t' m') : Ready S t' m' :=
    h.spawned (fun k hk => Nat.succ.inj hk ▸ hn) hsp
  apply Orderly.bind (.task (hn.evaluate (hnext .loopCondition)) rfl)
  intro v m₁ hv _ hs₁ _
  split
  · rename_i ht
    apply Orderly.bind (.task (hn.execute (hnext (.loopBody hv ht))) rfl)
    intro flow m₂ hb _ hs₂ hflow
    cases flow with
    | normal => exact .task (hn.loop (hnext (.again hv ht hb))) rfl
    | returned w => exact (Ends.pure hs₂ hflow).orderly
  · exact (Ends.pure hs₁ trivial).orderly

end Step

/-- Within every bound all tasks that are ready keep the machine sane. -/
theorem preserves (S : Setting) (n : Nat) : Preserves S n := by
  induction n with
  | zero =>
    exact ⟨fun h => .exhausted h.sane, fun h => .exhausted h.sane, fun h => .exhausted h.sane⟩
  | succ n hn =>
    exact ⟨fun h => (hn.evaluateSucc h).ends, fun h => (hn.executeSucc h).ends,
      fun h => (hn.loopSucc h).ends⟩

/-- All that is visited from a task that is ready is ready. -/
theorem Ready.visited (h : Ready S t m) (hv : Visits t m t' m') : Ready S t' m' := by
  induction hv with
  | self => exact h
  | step hsp _ ih => exact ih (h.spawned (fun n _ => preserves S n) hsp)

theorem Ready.grows_left (h : Ready S t m) : m.Grows (t.left m) := by
  cases t with
  | evaluate n i e => exact ((preserves S n).evaluate h).grows_left
  | execute n i s => exact ((preserves S n).execute h).grows_left
  | loop n i e s => exact ((preserves S n).loop h).grows_left

/-- The machine grows up to a task that is started, and from the end of that one on. -/
theorem Ready.spawned_grows (h : Ready S t m) (hsp : Spawns t m t' m') :
    m.Grows m' ∧ (t'.left m').Grows (t.left m) := by
  have hx := mem_starts.2 hsp
  cases t with
  | evaluate n i e =>
    cases n with
    | zero => cases hx
    | succ n => exact ((preserves S n).evaluateSucc h).started _ hx
  | execute n i s =>
    cases n with
    | zero => cases hx
    | succ n => exact ((preserves S n).executeSucc h).started _ hx
  | loop n i e s =>
    cases n with
    | zero => cases hx
    | succ n => exact ((preserves S n).loopSucc h).started _ hx

/-- All that is visited ends before the machine that is left. -/
theorem Ready.visited_grows (h : Ready S t m) (hv : Visits t m t' m') :
    (t'.left m').Grows (t.left m) := by
  induction hv with
  | self => exact .refl _
  | step hsp _ ih =>
    exact (ih (h.spawned (fun n _ => preserves S n) hsp)).trans (h.spawned_grows hsp).2

/-- The statements of a program are ready one after another. -/
theorem Orderly.program {n : Nat} {ss : List Stmt} (hs : Sane S m)
    (h : ∀ before s after m', ss = before ++ s :: after →
      Evaluation.program n before m = .ok () m' → m.Grows m' → Sane S m' →
        Ready S (.execute n Machine.global s) m') :
    Orderly S m (fun _ _ => True) (startedProgram n ss m) (Evaluation.program n ss m) := by
  induction ss generalizing m with
  | nil => exact (Ends.pure hs trivial).orderly
  | cons s ss ih =>
    have hready := h [] s ss m rfl rfl (.refl m) hs
    apply Orderly.bind (.task ((preserves S n).execute hready) rfl)
    intro flow m₁ hflow hg₁ hs₁ _
    apply ih hs₁
    intro before s' after m₂ hss hbefore hg
    apply h (s :: before) s' after m₂ (by rw [hss]; rfl) _ (hg₁.trans hg)
    exact (Run.bind_ok hflow).trans hbefore

end Lox.Placement
