import Lox.Proofs.Scoping.WellScoped

/-!
# Where `this` and `super` are looked up

The walk comes to each place of a program with scopes that show what encloses the place.
Names that are declared are no reserved words, so it is the enclosing method and its class
alone that tell how many scopes up `this` and `super` are. Main statement: in a program that
is accepted each `this` is recorded with the scope just outside the innermost method, and
each `super` with the one outside of that.
-/

set_option autoImplicit false

namespace Lox.Scoping

/-- Whether just one scope is opened here, for names that are declared. -/
def Enclosure.isInner : Enclosure → Bool
  | block | function _ => true
  | method _ | «class» .. => false

namespace Path

/-- The number of scopes inside that of the innermost method. -/
def level (p : Path) : Nat := (p.takeWhile (·.isInner)).length

/-- The innermost method and all that encloses it. -/
def home (p : Path) : Path := p.dropWhile (·.isInner)

end Path

/-- A scope in which no reserved word is bound. -/
structure Frame.Ordinary (f : Frame) : Prop where
  this : f.binds "this" = false
  super : f.binds "super" = false

namespace Frame.Ordinary

variable {f : Frame} {name : String}

theorem empty : Frame.Ordinary [] := ⟨rfl, rfl⟩

theorem declared (h : f.Ordinary) (hn : Free name) :
    Frame.Ordinary (if f.binds name then f else (name, false) :: f) where
  this := (Frame.binds_congr (Frame.lookup_declared f (hn.ne .this).symm)).trans h.this
  super := (Frame.binds_congr (Frame.lookup_declared f (hn.ne .super).symm)).trans h.super

theorem bound (h : f.Ordinary) (hn : Free name) :
    Frame.Ordinary ((name, true) :: (if f.binds name then f else (name, false) :: f)) where
  this := (Frame.binds_congr (Frame.lookup_bound f (hn.ne .this).symm)).trans h.this
  super := (Frame.binds_congr (Frame.lookup_bound f (hn.ne .super).symm)).trans h.super

end Frame.Ordinary

/-- The scopes around a place that is enclosed so. -/
inductive Shaped : Path → Frames → Prop
  | top : Shaped [] []
  | inner {l : Enclosure} {p : Path} {f : Frame} {fs : Frames} (hl : l.isInner = true)
      (hf : f.Ordinary) (h : Shaped p fs) : Shaped (l :: p) (f :: fs)
  | method {g : Function} {x : Token} {r : Option Reference} {p : Path} {f : Frame} {fs : Frames}
      (hf : f.Ordinary) (h : Shaped p fs) :
      Shaped (.method g :: .class x r :: p) (f :: methodFrames fs r)

namespace Shaped

variable {p : Path} {f g : Frame} {fs : Frames} {name : String}

theorem ordinary (h : Shaped p (f :: fs)) : f.Ordinary := by
  cases h <;> assumption

/-- Only the innermost scope changes. -/
theorem replace (h : Shaped p (f :: fs)) (hg : g.Ordinary) : Shaped p (g :: fs) := by
  cases h with
  | inner hl _ h => exact .inner hl hg h
  | method _ h => exact .method hg h

theorem declare (h : Shaped p fs) (hn : Free name) : Shaped p (declare fs name) := by
  cases fs with
  | nil => exact h
  | cons f fs => exact h.replace (h.ordinary.declared hn)

theorem binding (h : Shaped p fs) (hn : Free name) : Shaped p (binding fs name) := by
  cases fs with
  | nil => exact h
  | cons f fs => exact h.replace (h.ordinary.bound hn)

theorem after {s : Stmt} (h : Shaped p fs) (hs : s.Formed Free) : Shaped p (after fs s) := by
  cases s with
  | var x e => exact h.binding hs.1
  | function f =>
    cases f with
    | mk => exact h.binding hs.1
  | «class» x r ms => exact h.binding hs.1
  | _ => exact h

theorem parameters {ps : List Token} (h : Shaped p fs) (hps : ∀ q ∈ ps, Free q.lexeme) :
    Shaped p (parameters fs ps).1 := by
  induction ps generalizing fs with
  | nil => exact h
  | cons q ps ih =>
    rw [List.forall_mem_cons] at hps
    exact ih (h.binding hps.1) hps.2

/-- The innermost method stands in a class. -/
theorem home_cases (h : Shaped p fs) : (p.home = [] ∧ p.clause? = none) ∨
    ∃ f x r q, p.home = .method f :: .class x r :: q ∧ p.clause? = some r := by
  induction h with
  | top => exact .inl ⟨rfl, rfl⟩
  | @inner l p f fs hl hf h ih =>
    have hhome : Path.home (l :: p) = p.home := List.dropWhile_cons_of_pos hl
    have hclause : Path.clause? (l :: p) = p.clause? := by
      cases l with
      | block | function => rfl
      | method | «class» => cases hl
    rwa [hhome, hclause]
  | @method g x r p f fs hf h ih => exact .inr ⟨g, x, r, p, rfl, rfl⟩

theorem depths {f : Function} {x : Token} {r : Option Reference} {q : Path} (h : Shaped p fs)
    (hp : p.home = .method f :: .class x r :: q) :
    depth? fs "this" = some (p.level + 1) ∧
      (r.isSome → depth? fs "super" = some (p.level + 2)) := by
  induction h with
  | top => cases hp
  | @inner l p g fs hl hg h ih =>
    have hhome : Path.home (l :: p) = p.home := List.dropWhile_cons_of_pos hl
    have hlevel : Path.level (l :: p) = p.level + 1 :=
      congrArg List.length (List.takeWhile_cons_of_pos hl)
    obtain ⟨hthis, hsuper⟩ := ih (hhome.symm.trans hp)
    rw [depth?_cons, depth?_cons, hg.this, hg.super, hthis, hlevel]
    exact ⟨rfl, fun hr => by rw [hsuper hr]; rfl⟩
  | @method g' x' r' p g fs hg h ih =>
    cases hp
    refine ⟨?_, fun hr => ?_⟩
    · rw [depth?_cons, hg.this]
      rfl
    · obtain ⟨r, rfl⟩ := Option.isSome_iff_exists.1 hr
      rw [depth?_cons, hg.super]
      rfl

end Shaped

def Node.Formed (ok : String → Prop) : Node → Prop
  | .expr e => e.Formed ok
  | .stmt s => s.Formed ok

/-- What the walk finds at and below a place. -/
def Node.found (ctx : Context) (fs : Frames) : Node → List Finding
  | .expr e => Scoping.expr ctx fs e
  | .stmt s => (Scoping.stmt ctx fs s).2

/-- The walk comes to the place, with scopes that show what encloses it. -/
def Walked (p : Path) (n : Node) (found : List Finding) : Prop :=
  n.Formed Free ∧ ∃ ctx fs, Shaped p fs ∧ n.found ctx fs ⊆ found

theorem Walked.mono {p : Path} {n : Node} {found found' : List Finding} (h : Walked p n found)
    (hsub : found ⊆ found') : Walked p n found' := by
  obtain ⟨hf, ctx, fs, hfs, hn⟩ := h
  exact ⟨hf, ctx, fs, hfs, List.Subset.trans hn hsub⟩

section Lists

variable {ctx : Context} {fs : Frames} {p : Path}

theorem formed_of_mem {ok : String → Prop} {e : Expr} {es : List Expr} (he : e ∈ es)
    (hf : Expr.AllFormed ok es) : e.Formed ok := by
  induction es with
  | nil => cases he
  | cons e' es ih =>
    rcases List.mem_cons.1 he with rfl | he
    · exact hf.1
    · exact ih he hf.2

theorem expr_subset {e : Expr} {es : List Expr} (he : e ∈ es) :
    expr ctx fs e ⊆ exprs ctx fs es := by
  induction es with
  | nil => cases he
  | cons e' es ih =>
    rcases List.mem_cons.1 he with rfl | he
    · exact List.subset_append_left _ _
    · exact List.subset_append_of_subset_right _ (ih he)

/-- Behind other statements a scope may bind more names. -/
theorem walked_stmts (ctx : Context) {s : Stmt} {ss : List Stmt} (hfs : Shaped p fs) (hs : s ∈ ss)
    (hf : Stmt.AllFormed Free ss) : Walked p (.stmt s) (stmts ctx fs ss).2 := by
  induction ss generalizing fs with
  | nil => cases hs
  | cons s' ss ih =>
    rw [stmts, stmt_frames ctx fs s' hf.1]
    rcases List.mem_cons.1 hs with rfl | hs
    · exact ⟨hf.1, ctx, fs, hfs, List.subset_append_left _ _⟩
    · exact (ih (hfs.after hf.1) hs hf.2).mono (List.subset_append_right _ _)

theorem walked_function (ctx : Context) (body : Body) {s : Stmt} : (f : Function) →
    f.Formed Free → s ∈ f.body → Shaped p ([] :: fs) →
      Walked p (.stmt s) (function ctx fs body f)
  | .mk _ _ _, hf, hs, hfs =>
    (walked_stmts { ctx with body } (hfs.parameters hf.2.1) hs hf.2.2).mono
      (List.subset_append_right _ _)

theorem walked_methods (ctx : Context) {f : Function} {ms : List Function} {s : Stmt} (hf : f ∈ ms)
    (hms : Function.AllFormed Free ms) (hs : s ∈ f.body) (hfs : Shaped p ([] :: fs)) :
    Walked p (.stmt s) (methodsFindings ctx fs ms) := by
  induction ms with
  | nil => cases hf
  | cons g ms ih =>
    rcases List.mem_cons.1 hf with rfl | hf
    · exact (walked_function ctx (methodBody f) f hms.1 hs hfs).mono (List.subset_append_left _ _)
    · exact (ih hf hms.2).mono (List.subset_append_right _ _)

end Lists

namespace Walked

variable {p q : Path} {n m : Node} {found : List Finding}

/-- A part in the same scopes. -/
theorem part {ctx : Context} {fs : Frames} (hf : m.Formed Free) (hfs : Shaped p fs)
    (hm : m.found ctx fs ⊆ found) : Walked p m found := ⟨hf, ctx, fs, hfs, hm⟩

theorem expr {e : Expr} (h : Walked p (.expr e) found) (hm : (q, m) ∈ (Node.expr e).children) :
    Walked (q ++ p) m found := by
  obtain ⟨hf, ctx, fs, hfs, hn⟩ := h
  have hpart {e' : Expr} (hf : e'.Formed Free) (he : Scoping.expr ctx fs e' ⊆ Scoping.expr ctx fs e) :
      Walked p (.expr e') found := part hf hfs (List.Subset.trans he hn)
  cases e with
  | literal | var | this | super => cases hm
  | grouping e | unary op e | get e x =>
    cases List.mem_singleton.1 hm
    exact hpart hf (List.Subset.refl _)
  | assign r e =>
    cases List.mem_singleton.1 hm
    exact hpart hf.2 (List.subset_append_left _ _)
  | binary l op r | logical l op r =>
    rcases List.mem_pair.1 hm with hm | hm
    · cases hm
      exact hpart hf.1 (List.subset_append_left _ _)
    · cases hm
      exact hpart hf.2 (List.subset_append_right _ _)
  | set e x v =>
    rcases List.mem_pair.1 hm with hm | hm
    · cases hm
      exact hpart hf.1 (List.subset_append_right _ _)
    · cases hm
      exact hpart hf.2 (List.subset_append_left _ _)
  | call f paren es =>
    rcases List.mem_cons.1 hm with hm | hm
    · cases hm
      exact hpart hf.1 (List.subset_append_left _ _)
    · obtain ⟨e, he, hm⟩ := List.mem_map.1 hm
      cases hm
      exact hpart (formed_of_mem he hf.2) (List.subset_append_of_subset_right _ (expr_subset he))

theorem stmt {s : Stmt} (h : Walked p (.stmt s) found) (hm : (q, m) ∈ (Node.stmt s).children) :
    Walked (q ++ p) m found := by
  obtain ⟨hf, ctx, fs, hfs, hn⟩ := h
  cases s with
  | expression e | print e =>
    cases List.mem_singleton.1 hm
    exact part hf hfs hn
  | var x e =>
    obtain ⟨e, he, heq⟩ := List.mem_map.1 hm
    obtain rfl := Option.mem_toList.1 he
    cases heq
    exact part (hf.2 e rfl) (hfs.declare hf.1)
      (List.Subset.trans (List.subset_append_right _ _) hn)
  | block ss =>
    obtain ⟨s, hs, hm⟩ := List.mem_map.1 hm
    cases hm
    have hinner : Shaped (.block :: p) ([] :: fs) := .inner rfl .empty hfs
    exact (walked_stmts ctx hinner hs hf).mono hn
  | «if» e yes no =>
    obtain ⟨he, hyes, hplain, hno⟩ := hf
    have hframes : (Scoping.stmt ctx fs yes).1 = fs := by
      rw [stmt_frames ctx fs yes hyes, after_plain hplain]
    have hsub : (Scoping.expr ctx fs e ++ (Scoping.stmt ctx fs yes).2) ++
        (optionalStmt ctx fs no).2 ⊆ found := by
      have hn : (Scoping.expr ctx fs e ++ (Scoping.stmt ctx fs yes).2) ++
        (optionalStmt ctx (Scoping.stmt ctx fs yes).1 no).2 ⊆ found := hn
      rwa [hframes] at hn
    obtain ⟨hsub, hinNo⟩ := List.append_subset.1 hsub
    obtain ⟨hinCondition, hinYes⟩ := List.append_subset.1 hsub
    rcases List.mem_cons.1 hm with hm | hm
    · cases hm
      exact part he hfs hinCondition
    rcases List.mem_cons.1 hm with hm | hm
    · cases hm
      exact part hyes hfs hinYes
    · obtain ⟨s, hs, heq⟩ := List.mem_map.1 hm
      obtain rfl := Option.mem_toList.1 hs
      cases heq
      exact part hno.1 hfs hinNo
  | «while» e body =>
    obtain ⟨he, hbody, -⟩ := hf
    obtain ⟨hinCondition, hinBody⟩ := List.append_subset.1 hn
    rcases List.mem_pair.1 hm with hm | hm
    · cases hm
      exact part he hfs hinCondition
    · cases hm
      exact part hbody hfs hinBody
  | function f =>
    obtain ⟨s, hs, hm⟩ := List.mem_map.1 hm
    cases hm
    have hname : Free f.name.lexeme := by
      cases f with
      | mk => exact hf.1
    have hinner : Shaped (.function f :: p) ([] :: binding fs f.name.lexeme) :=
      .inner rfl .empty (hfs.binding hname)
    exact (walked_function ctx .function f hf hs hinner).mono (List.append_subset.1 hn).2
  | «return» t e =>
    obtain ⟨e, he, heq⟩ := List.mem_map.1 hm
    obtain rfl := Option.mem_toList.1 he
    cases heq
    exact part (hf e rfl) hfs (List.append_subset.1 hn).2
  | «class» x r ms =>
    obtain ⟨f, hmem, hm⟩ := List.mem_flatMap.1 hm
    obtain ⟨s, hs, hm⟩ := List.mem_map.1 hm
    cases hm
    have hinner : Shaped (.method f :: .class x r :: p) ([] :: methodFrames (binding fs x.lexeme) r) :=
      .method .empty (hfs.binding hf.1)
    exact (walked_methods _ hmem hf.2.2 hs hinner).mono (List.append_subset.1 hn).2

theorem inside (h : Walked p n found) (hm : Inside n q m) : Walked (q ++ p) m found := by
  induction hm generalizing p with
  | here => exact h
  | @child n k _ q r hk _ ih =>
    rw [List.append_assoc]
    apply ih
    cases n with
    | expr e => exact h.expr hk
    | stmt s => exact h.stmt hk

end Walked

section Programs

variable {program : List Stmt} {p : Path}

/-- The walk comes to each place of a program. -/
theorem walked_of_occurs {n : Node} (hf : Stmt.AllFormed Free program) (h : Occurs program p n) :
    Walked p n (Scoping.program program) := by
  obtain ⟨s, hs, hn⟩ := h
  have h := (walked_stmts {} .top hs hf).inside hn
  rwa [List.append_nil] at h

variable (hf : Stmt.AllFormed Free program) (hfaults : faults (Scoping.program program) = [])

include hf hfaults

theorem this_recorded {r : Reference} (h : Occurs program p (.expr (.this r))) :
    ∃ f x clause q, p.home = .method f :: .class x clause :: q ∧
      (r, some (p.level + 1)) ∈ lookups (Scoping.program program) := by
  obtain ⟨hname, ctx, fs, hfs, hsub⟩ := walked_of_occurs hf h
  have haccepts : Accepts (fun r d => (r, d) ∈ lookups (Scoping.program program))
      (thisFindings ctx fs r) := fun g hg => accepts_of_faults hfaults (fun _ h => h) g (hsub hg)
  obtain ⟨-, hclause⟩ | ⟨f, x, clause, q, hp, -⟩ := hfs.home_cases
  · exact absurd hclause (((faults_program hf).1 hfaults).this h)
  · refine ⟨f, x, clause, q, hp, ?_⟩
    have hname : r.name.lexeme = "this" := hname
    rw [← (hfs.depths hp).1, ← hname]
    unfold thisFindings at haccepts
    split at haccepts
    · exact (not_accepts_fault haccepts).elim
    · exact haccepts.lookup
    · exact haccepts.lookup

theorem super_recorded {r : Reference} {method : Token}
    (h : Occurs program p (.expr (.super r method))) :
    ∃ f x clause q, p.home = .method f :: .class x (some clause) :: q ∧
      (r, some (p.level + 2)) ∈ lookups (Scoping.program program) := by
  obtain ⟨hname, ctx, fs, hfs, hsub⟩ := walked_of_occurs hf h
  have haccepts : Accepts (fun r d => (r, d) ∈ lookups (Scoping.program program))
      (superFindings ctx fs r) := fun g hg => accepts_of_faults hfaults (fun _ h => h) g (hsub hg)
  obtain ⟨clause, hclause⟩ := ((faults_program hf).1 hfaults).super h
  obtain ⟨-, hnone⟩ | ⟨f, x, clause', q, hp, hsome⟩ := hfs.home_cases
  · rw [hclause] at hnone
    cases hnone
  · obtain rfl : some clause = clause' := Option.some.inj (hclause.symm.trans hsome)
    refine ⟨f, x, clause, q, hp, ?_⟩
    have hname : r.name.lexeme = "super" := hname
    rw [← (hfs.depths hp).2 rfl, ← hname]
    exact (accepts_append.1 haccepts).2.lookup

end Programs

end Lox.Scoping
