import Lox.Proofs.Layout.Layout

/-!
# Scoping does not depend on the layout

Where a name is declared the innermost scope is the same in each layout. So scoping finds the
same faults and looks up the same references in all of them; what differs is how many scopes up
it finds a name.
-/

set_option autoImplicit false

namespace Lox

namespace Scoping

/-- A finding but for the depth of what is looked up. -/
def Finding.bare : Finding → Diagnostic ⊕ Reference
  | .fault d => .inl d
  | .lookup r _ => .inr r

/-- The findings but for depths. -/
def bare (found : List Finding) : List (Diagnostic ⊕ Reference) := found.map Finding.bare

@[simp] theorem bare_append (a b : List Finding) : bare (a ++ b) = bare a ++ bare b :=
  List.map_append

theorem faults_of_bare {found found' : List Finding} (h : bare found' = bare found) :
    faults found' = faults found := by
  have hf (l : List Finding) : faults l = (bare l).filterMap Sum.getLeft? := by
    unfold faults bare
    rw [List.filterMap_map]
    congr 1
    funext g
    cases g <;> rfl
  rw [hf, hf, h]

theorem looked_of_bare {found found' : List Finding} (h : bare found' = bare found) :
    looked found' = looked found := by
  have hl (l : List Finding) : looked l = (bare l).filterMap Sum.getRight? := by
    unfold looked lookups bare
    rw [List.filterMap_map, List.map_filterMap]
    congr 1
    funext g
    cases g <;> rfl
  rw [hl, hl, h]

section Innermost

variable {fs fs' : Frames} (h : fs'.head? = fs.head?)

theorem Settled.inOwnInitializer (hs : Settled fs) (name : String) :
    inOwnInitializer fs name = false := by
  cases fs with
  | nil => rfl
  | cons f fs => simpa [Scoping.inOwnInitializer] using hs f List.mem_cons_self name

/-- No name is being initialized on either side. -/
theorem Settled.inOwnInitializer_eq (hs : Settled fs) (hs' : Settled fs') (name : String) :
    Scoping.inOwnInitializer fs' name = Scoping.inOwnInitializer fs name :=
  (hs'.inOwnInitializer name).trans (hs.inOwnInitializer name).symm

include h

theorem head?_declare (name : String) : (declare fs' name).head? = (declare fs name).head? := by
  cases fs <;> cases fs' <;> simp_all [declare]

theorem head?_binding (name : String) : (binding fs' name).head? = (binding fs name).head? := by
  cases fs <;> cases fs' <;> simp_all [binding, define, declare]

theorem head?_after (s : Stmt) : (after fs' s).head? = (after fs s).head? := by
  cases s with
  | var | function | «class» => exact head?_binding h _
  | _ => exact h

theorem declarationFaults_congr (t : Token) : declarationFaults fs' t = declarationFaults fs t := by
  unfold declarationFaults redeclares
  rw [h]

theorem inOwnInitializer_congr (name : String) :
    inOwnInitializer fs' name = inOwnInitializer fs name := by
  unfold inOwnInitializer
  rw [h]

theorem parameters_congr (ps : List Token) :
    (parameters fs' ps).1.head? = (parameters fs ps).1.head? ∧
      (parameters fs' ps).2 = (parameters fs ps).2 := by
  induction ps generalizing fs fs' with
  | nil => exact ⟨h, rfl⟩
  | cons p ps ih =>
    obtain ⟨hhead, hfound⟩ := ih (head?_binding h p.lexeme)
    refine ⟨hhead, ?_⟩
    show declarationFaults fs' p ++ _ = declarationFaults fs p ++ _
    rw [declarationFaults_congr h]
    exact congrArg _ hfound

end Innermost

section Expressions

variable {fs fs' : Frames}

theorem bare_read (h : ∀ name, inOwnInitializer fs' name = inOwnInitializer fs name)
    (r : Reference) : bare (read fs' r) = bare (read fs r) := by
  unfold read
  rw [h, bare_append, bare_append]
  rfl

mutual

theorem bare_expr (h : ∀ name, inOwnInitializer fs' name = inOwnInitializer fs name)
    (ctx : Context) : (e : Expr) → bare (expr ctx fs' e) = bare (expr ctx fs e)
  | .literal _ => rfl
  | .grouping e => bare_expr h ctx e
  | .unary _ e => bare_expr h ctx e
  | .binary l _ r => by simp only [expr, bare_append, bare_expr h ctx l, bare_expr h ctx r]
  | .logical l _ r => by simp only [expr, bare_append, bare_expr h ctx l, bare_expr h ctx r]
  | .var r => bare_read h r
  | .assign _ e => by
    simp only [expr, bare_append, bare_expr h ctx e]
    rfl
  | .call f _ es => by simp only [expr, bare_append, bare_expr h ctx f, bare_exprs h ctx es]
  | .get e _ => bare_expr h ctx e
  | .set e _ v => by simp only [expr, bare_append, bare_expr h ctx e, bare_expr h ctx v]
  | .this r => by
    unfold expr thisFindings
    cases ctx.family <;> rfl
  | .super r _ => by
    simp only [expr, superFindings, bare_append]
    rfl

theorem bare_exprs (h : ∀ name, inOwnInitializer fs' name = inOwnInitializer fs name)
    (ctx : Context) : (es : List Expr) → bare (exprs ctx fs' es) = bare (exprs ctx fs es)
  | [] => rfl
  | e :: es => by simp only [exprs, bare_append, bare_expr h ctx e, bare_exprs h ctx es]

end

theorem bare_optional (h : ∀ name, inOwnInitializer fs' name = inOwnInitializer fs name)
    (ctx : Context) : (e : Option Expr) →
      bare (Scoping.optional ctx fs' e) = bare (Scoping.optional ctx fs e)
  | none => rfl
  | some e => bare_expr h ctx e

end Expressions

end Scoping

namespace Layout

open Scoping

theorem settled_within (opens : Bool) {fs : Frames} (h : Settled fs) :
    Settled (within opens fs) := by
  cases opens with
  | true => exact h.push
  | false => exact h

variable (l : Layout) {ok : String → Prop}

mutual

theorem bare_stmt {fs fs' : Frames} (ctx : Context) (hs : Settled fs) (hs' : Settled fs') :
    (s : Stmt) → s.Formed ok → (s.plain = false → fs'.head? = fs.head?) →
      bare (l.stmt ctx fs' s) = bare (Scoping.stmt ctx fs s).2
  | .expression e, _, _ => bare_expr (hs.inOwnInitializer_eq hs') ctx e
  | .print e, _, _ => bare_expr (hs.inOwnInitializer_eq hs') ctx e
  | .var x e, _, hh => by
    have hh := hh rfl
    simp only [stmt, Scoping.stmt, bare_append, declarationFaults_congr hh]
    rw [bare_optional (inOwnInitializer_congr (head?_declare hh x.lexeme))]
  | .block ss, hf, _ => by
    refine bare_stmts ctx hs.push (settled_within _ hs') ss hf ?_
    cases ho : l.opensBlock ss with
    | true => exact .inl rfl
    | false => exact .inr (l.declares ss ho)
  | .if e yes no, hf, _ => by
    obtain ⟨-, hy, hp, hn⟩ := hf
    simp only [stmt, Scoping.stmt, bare_append, bare_expr (hs.inOwnInitializer_eq hs'),
      stmt_frames ctx fs yes hy, after_plain hp, bare_stmt ctx hs hs' yes hy (by simp [hp]),
      bare_branch ctx hs hs' no hn]
  | .while e s, hf, _ => by
    obtain ⟨-, hb, hp⟩ := hf
    have hi := settled_within (l.opensLoop e s) hs'
    simp only [stmt, Scoping.stmt, bare_append, bare_expr (hs.inOwnInitializer_eq hi),
      bare_stmt ctx hs hi s hb (by simp [hp])]
  | .function f, hf, hh => by
    have hh := hh rfl
    simp only [stmt, Scoping.stmt, bare_append, declarationFaults_congr hh]
    rw [bare_function ctx (hs.binding _) (hs'.binding _) .function f hf]
    rfl
  | .return t e, _, _ => by
    simp only [stmt, Scoping.stmt, bare_append, bare_optional (hs.inOwnInitializer_eq hs')]
  | .class x r ms, hf, hh => by
    have hb := hs.binding x.lexeme
    have hb' := hs'.binding x.lexeme
    have hsuper : bare (superclassFindings (binding fs' x.lexeme) x r) =
        bare (superclassFindings (binding fs x.lexeme) x r) := by
      cases r with
      | none => rfl
      | some r =>
        simp only [superclassFindings, bare_append]
        rw [bare_read (inOwnInitializer_congr (head?_binding (hh rfl) x.lexeme))]
    have hm : Settled (methodFrames (binding fs x.lexeme) r) ∧
        Settled (methodFrames (binding fs' x.lexeme) r) := by
      cases r with
      | none => exact ⟨hb.single _, hb'.single _⟩
      | some r => exact ⟨(hb.single _).single _, (hb'.single _).single _⟩
    simp only [stmt, Scoping.stmt, bare_append, declarationFaults_congr (hh rfl), hsuper]
    rw [bare_methods _ hm.1 hm.2 ms hf.2.2]
    rfl

theorem bare_stmts {fs fs' : Frames} (ctx : Context) (hs : Settled fs) (hs' : Settled fs') :
    (ss : List Stmt) → Stmt.AllFormed ok ss → (fs'.head? = fs.head? ∨ ∀ s ∈ ss, s.plain = true) →
      bare (l.stmts ctx fs' ss) = bare (Scoping.stmts ctx fs ss).2
  | [], _, _ => rfl
  | s :: ss, hf, hh => by
    have hfirst : s.plain = false → fs'.head? = fs.head? := by
      intro hp
      apply hh.resolve_right
      intro hall
      rw [hall s List.mem_cons_self] at hp
      cases hp
    have hrest : (after fs' s).head? = (after fs s).head? ∨ ∀ s ∈ ss, s.plain = true :=
      hh.imp (fun h => head?_after h s) fun h => (List.forall_mem_cons.1 h).2
    simp only [stmts, Scoping.stmts, bare_append, stmt_frames ctx fs s hf.1,
      bare_stmt ctx hs hs' s hf.1 hfirst]
    rw [bare_stmts ctx (hs.after s) (hs'.after s) ss hf.2 hrest]

theorem bare_branch {fs fs' : Frames} (ctx : Context) (hs : Settled fs) (hs' : Settled fs') :
    (s : Option Stmt) → Stmt.OptionFormed ok s →
      bare (l.branch ctx fs' s) = bare (optionalStmt ctx fs s).2
  | none, _ => rfl
  | some s, hf => bare_stmt ctx hs hs' s hf.1 fun hp => by rw [hf.2] at hp; cases hp

theorem bare_function {fs fs' : Frames} (ctx : Context) (hs : Settled fs) (hs' : Settled fs')
    (body : Body) : (f : Function) → f.Formed ok →
      bare (l.function ctx fs' body f) = bare (Scoping.function ctx fs body f)
  | .mk _ ps ss, hf => by
    have hinner : ([] :: fs' : Frames).head? = ([] :: fs).head? := rfl
    obtain ⟨hhead, hfound⟩ := parameters_congr hinner ps
    simp only [function, Scoping.function, bare_append, hfound]
    rw [bare_stmts _ (hs.push.parameters ps) (hs'.push.parameters ps) ss hf.2.2 (.inl hhead)]

theorem bare_methods {fs fs' : Frames} (ctx : Context) (hs : Settled fs) (hs' : Settled fs') :
    (ms : List Function) → Function.AllFormed ok ms →
      bare (l.methods ctx fs' ms) = bare (methodsFindings ctx fs ms)
  | [], _ => rfl
  | f :: ms, hf => by
    simp only [methods, methodsFindings, bare_append, bare_function ctx hs hs' _ f hf.1,
      bare_methods ctx hs hs' ms hf.2]

end

/-- In every layout scoping finds the same, but for depths. -/
theorem bare_found {program : List Stmt} (hf : Stmt.AllFormed ok program) :
    bare (l.found program) = bare (Scoping.program program) :=
  l.bare_stmts {} .nil .nil program hf (.inl rfl)

end Layout

end Lox
