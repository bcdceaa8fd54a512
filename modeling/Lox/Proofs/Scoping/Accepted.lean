import Lox.Proofs.Scoping.Formed
import Lox.Proofs.Scoping.Marked

/-!
# Accepted programs have twins

Main statement: a tree in which scoping finds no fault is a twin of the same tree with
the names of one of its scopes spelled anew.
-/

set_option autoImplicit false

namespace Lox.Scoping

/-- No fault, and what is looked up is known. -/
def Accepts (known : Known) (found : List Finding) : Prop :=
  ∀ g ∈ found, match g with
    | .fault _ => False
    | .lookup r d => known r d

variable {known : Known}

theorem accepts_append {a b : List Finding} :
    Accepts known (a ++ b) ↔ Accepts known a ∧ Accepts known b :=
  List.forall_mem_append

theorem accepts_of_faults {found : List Finding} (hf : faults found = [])
    (hk : ∀ p ∈ lookups found, known p.1 p.2) : Accepts known found := by
  intro g hg
  cases g with
  | fault d =>
    have hd : d ∈ faults found := List.mem_filterMap.2 ⟨.fault d, hg, rfl⟩
    rw [hf] at hd
    cases hd
  | lookup r d => exact hk (r, d) (List.mem_filterMap.2 ⟨.lookup r d, hg, rfl⟩)

theorem Accepts.lookup {fs : Frames} {r : Reference} (h : Accepts known [find fs r]) :
    known r (depth? fs r.name.lexeme) := h _ List.mem_cons_self

theorem not_accepts_fault {d : Diagnostic} {found : List Finding} :
    ¬ Accepts known (.fault d :: found) :=
  fun h => h _ List.mem_cons_self

theorem Accepts.read {fs : Frames} {r : Reference} (h : Accepts known (read fs r)) :
    inOwnInitializer fs r.name.lexeme = false ∧ known r (depth? fs r.name.lexeme) := by
  obtain ⟨hf, hl⟩ := accepts_append.1 h
  refine ⟨?_, hl.lookup⟩
  by_contra hc
  rw [Bool.not_eq_false] at hc
  rw [if_pos hc] at hf
  exact not_accepts_fault hf

/-- What is bound and not without a definition is defined. -/
theorem defined_of_ne {fs : Frames} {name : String}
    (h : ∀ (d : Nat) (f : Frame), fs[d]? = some f → f.lookup name ≠ some false) :
    Defined fs name := by
  intro d hd
  obtain ⟨f, hf, hb⟩ := lookup_of_depth hd
  apply Exists.intro f
  apply And.intro hf
  obtain ⟨b, hl⟩ := Option.isSome_iff_exists.1 hb
  cases b with
  | true => exact hl
  | false => exact absurd hl (h d f hf)

/-- Where an initializer is not about its own variable, what is found is defined. -/
theorem Framed.defined {ok : String → Prop} {fs : Frames} {name : String} (h : Framed ok fs)
    (hi : inOwnInitializer fs name = false) : Defined fs name := by
  apply defined_of_ne
  intro d f hf
  cases fs with
  | nil => cases hf
  | cons g fs =>
    cases d with
    | zero =>
      cases hf
      simpa [inOwnInitializer] using hi
    | succ d => exact h.outer f (List.mem_of_getElem? hf) name

theorem Settled.defined {fs : Frames} {name : String} (h : Settled fs) : Defined fs name :=
  defined_of_ne fun _ f hf => h f (List.mem_of_getElem? hf) name

/-- While a name is declared only that name may be without a definition. -/
theorem Settled.declared {fs : Frames} (h : Settled fs) {name other : String}
    (hn : other ≠ name) : Defined (declare fs name) other := by
  apply defined_of_ne
  intro d f hf
  cases fs with
  | nil => cases hf
  | cons g fs =>
    cases d with
    | zero =>
      cases hf
      rw [Frame.lookup_declared g hn]
      exact h g List.mem_cons_self other
    | succ d => exact h f (List.mem_cons_of_mem g (List.mem_of_getElem? hf)) other

/-- The reserved words are defined wherever they are bound. -/
theorem Framed.defined_reserved {ok : String → Prop} {fs : Frames} {name : String}
    (h : Framed ok fs) (hn : name = "this" ∨ name = "super") : Defined fs name := by
  apply defined_of_ne
  intro d f hf
  have hr := h.reserved f (List.mem_of_getElem? hf)
  rcases hn with rfl | rfl
  · exact hr.1
  · exact hr.2

theorem Framed.superInside {ok : String → Prop} {fs : Frames} (h : Framed ok fs) :
    SuperInside fs := by
  intro d hd
  obtain ⟨f, hf, hb⟩ := lookup_of_depth hd
  exact h.super d f hf hb

mutual

theorem stmt_frames {ok : String → Prop} (ctx : Context) (fs : Frames) :
    (s : Stmt) → s.Formed ok → (stmt ctx fs s).1 = after fs s
  | .expression _, _ => rfl
  | .print _, _ => rfl
  | .var .., _ => rfl
  | .block _, _ => rfl
  | .if _ yes no, hs => by
    obtain ⟨-, hy, hp, hn⟩ := hs
    show (optionalStmt ctx (stmt ctx fs yes).1 no).1 = fs
    rw [stmt_frames ctx fs yes hy, after_plain hp]
    exact optionalStmt_frames ctx fs no hn
  | .while _ s, hs => by
    show (stmt ctx fs s).1 = fs
    rw [stmt_frames ctx fs s hs.2.1, after_plain hs.2.2]
  | .function _, _ => rfl
  | .return .., _ => rfl
  | .class .., _ => rfl

theorem optionalStmt_frames {ok : String → Prop} (ctx : Context) (fs : Frames) :
    (s : Option Stmt) → Stmt.OptionFormed ok s → (optionalStmt ctx fs s).1 = fs
  | none, _ => rfl
  | some s, hs => by
    show (stmt ctx fs s).1 = fs
    rw [stmt_frames ctx fs s hs.1, after_plain hs.2]

end

theorem Framed.after {ok : String → Prop} {fs : Frames} {s : Stmt} (h : Framed ok fs)
    (hok : ∀ n, ok n → n ≠ "this" ∧ n ≠ "super") (hs : s.Formed ok) : Framed ok (after fs s) := by
  cases s with
  | var x e => exact h.binding hok hs.1
  | function f =>
    cases f with
    | mk => exact h.binding hok hs.1
  | «class» x r ms => exact h.binding hok hs.1
  | _ => exact h

theorem ownName_marks_succ (σ : Renaming) (k n : Nat) (name : String) :
    ownName (marks σ (k + 1) n) name = name := by
  cases n <;> rfl

namespace Suits

variable {ok : String → Prop} {σ : Renaming} {spelling : String → String}
  (h : Suits ok σ spelling)

include h

mutual

theorem twin_expr {ctx : Context} {fs : Frames} {k : Nat} (hf : Framed ok fs) :
    (e : Expr) → e.Formed ok → Accepts known (expr ctx fs e) →
      Twin (.same known) (marks σ k fs.length) fs (.expr e) (.expr (e.respell spelling k fs))
  | .literal _, _, _ => .literal
  | .grouping e, he, ha => .grouping (twin_expr hf e he ha)
  | .unary op e, he, ha => .unary (.refl rfl) (twin_expr hf e he ha)
  | .binary l op r, he, ha =>
    have ha := accepts_append.1 ha
    .binary (.refl rfl) (twin_expr hf l he.1 ha.1) (twin_expr hf r he.2 ha.2)
  | .logical l op r, he, ha =>
    have ha := accepts_append.1 ha
    .logical (.refl rfl) (twin_expr hf l he.1 ha.1) (twin_expr hf r he.2 ha.2)
  | .var _, he, ha =>
    have ha := Accepts.read ha
    .var (h.refTwin hf he ha.2) (hf.defined ha.1)
  | .assign _ e, he, ha =>
    have ha := accepts_append.1 ha
    .assign (h.refTwin hf he.1 ha.2.lookup) (twin_expr hf e he.2 ha.1)
  | .call f paren es, he, ha =>
    have ha := accepts_append.1 ha
    .call (.refl rfl) (twin_expr hf f he.1 ha.1) (twin_exprs hf es he.2 ha.2)
  | .get e name, he, ha => .get (.refl rfl) (twin_expr hf e he ha)
  | .set e name v, he, ha =>
    have ha := accepts_append.1 ha
    .set (.refl rfl) (twin_expr hf e he.1 ha.2) (twin_expr hf v he.2 ha.1)
  | .this r, he, ha => by
    have hl : Accepts known [find fs r] := by
      unfold expr thisFindings at ha
      cases hc : ctx.family with
      | none =>
        rw [hc] at ha
        exact absurd ha not_accepts_fault
      | «class» | subclass =>
        rw [hc] at ha
        exact ha
    have he : r.name.lexeme = "this" := he
    exact .this (refTwin_fixed (by rw [he, σ.apply_this]) hl.lookup)
      (hf.defined_reserved (.inl he))
  | .super r method, he, ha => by
    have hl := (accepts_append.1 ha).2
    have he : r.name.lexeme = "super" := he
    exact .super (refTwin_fixed (by rw [he, σ.apply_super]) hl.lookup) he
      (hf.defined_reserved (.inr rfl)) hf.superInside (.refl rfl)

theorem twin_exprs {ctx : Context} {fs : Frames} {k : Nat} (hf : Framed ok fs) :
    (es : List Expr) → Expr.AllFormed ok es → Accepts known (exprs ctx fs es) →
      Twin (.same known) (marks σ k fs.length) fs (.exprs es) (.exprs (Expr.respellAll spelling k fs es))
  | [], _, _ => .noExprs
  | e :: es, he, ha =>
    have ha := accepts_append.1 ha
    .moreExprs (twin_expr hf e he.1 ha.1) (twin_exprs hf es he.2 ha.2)

end

/-- What a scope declares has in it the name that the scope gives it. -/
theorem respell_declared {fs : Frames} {x : Token} (k : Nat) (hx : ok x.lexeme) :
    NameTwin (.same known) (ownName (marks σ k fs.length) x.lexeme) x
      (respell spelling k (binding fs x.lexeme) x) := by
  unfold respell
  cases fs with
  | nil => exact .refl rfl
  | cons f fs =>
    rw [depth?_binding]
    cases k with
    | zero =>
      rw [if_pos rfl]
      exact ⟨rfl, (h.spells _ hx).symm, rfl⟩
    | succ k =>
      rw [if_neg (by simp)]
      exact .refl rfl

theorem respell_parameters {fs : Frames} {ps : List Token} (k : Nat) (r : Renaming)
    (rs : List Renaming) (hr : marks σ k (fs.length + 1) = r :: rs) (hps : ∀ p ∈ ps, ok p.lexeme) :
    ParamsTwin (.same known) r ps (ps.map (respell spelling k (parameters ([] :: fs) ps).1)) := by
  obtain ⟨g, hg, -, hall⟩ := parameters_cons [] fs ps
  rw [hg]
  unfold ParamsTwin
  rw [List.forall₂_map_right_iff, List.forall₂_same]
  intro p hp
  have hd : depth? (g :: fs) p.lexeme = some 0 := by
    rw [depth?_cons, if_pos (hall p hp)]
  unfold respell
  rw [hd]
  cases k with
  | zero =>
    cases hr
    rw [if_pos rfl]
    exact ⟨rfl, (h.spells _ (hps p hp)).symm, rfl⟩
  | succ k =>
    cases hr
    rw [if_neg (by simp)]
    exact .refl rfl

/-- A class does not take the new name of what it inherits from. -/
theorem respell_ne {fs : Frames} {k : Nat} {r : Reference} {x : String} (hr : ok r.name.lexeme)
    (hx : ok x) (hne : r.name.lexeme ≠ x) : (r.respell spelling k fs).name.lexeme ≠ x := by
  unfold Reference.respell respell
  split
  · rcases h.fresh _ hr with he | he
    · exact fun hc => hne (he.symm.trans hc)
    · intro hc
      have hc : spelling r.name.lexeme = x := hc
      rw [hc] at he
      exact he hx
  · exact hne

theorem twin_superclass {fs : Frames} {k : Nat} {x : Token} {r : Reference} (hf : Framed ok fs)
    (hr : ok r.name.lexeme) (ha : Accepts known (superclassFindings (binding fs x.lexeme) x (some r))) :
    r.name.lexeme ≠ x.lexeme ∧
      RefTwin (.same known) (marks σ k fs.length) fs r (r.respell spelling k (binding fs x.lexeme)) := by
  obtain ⟨hfault, hread⟩ := accepts_append.1 ha
  have hne : r.name.lexeme ≠ x.lexeme := by
    intro he
    rw [if_pos he] at hfault
    exact not_accepts_fault hfault
  have hd := depth?_binding_of_ne fs hne
  have hsame : r.respell spelling k (binding fs x.lexeme) = r.respell spelling k fs := by
    unfold Reference.respell respell
    rw [hd]
  rw [hsame]
  exact ⟨hne, h.refTwin hf hr (hd ▸ (Accepts.read hread).2)⟩

theorem twin_optional {ctx : Context} {fs : Frames} {k : Nat} (hf : Framed ok fs) {e : Expr}
    (he : ∀ e' ∈ some e, e'.Formed ok) (ha : Accepts known (optional ctx fs (some e))) :
    Twin (.same known) (marks σ k fs.length) fs (.expr e) (.expr (e.respell spelling k fs)) :=
  h.twin_expr hf e (he e rfl) ha

mutual

theorem twin_stmt {ctx : Context} {fs : Frames} {k : Nat} (hf : Framed ok fs) (hset : Settled fs) :
    (s : Stmt) → s.Formed ok → Accepts known (stmt ctx fs s).2 →
      (∀ n ∈ s.routine?, ownName (marks σ k fs.length) n = n) →
      Twin (.same known) (marks σ k fs.length) fs (.stmt s) (.stmt (s.respell spelling k fs))
  | .expression e, hs, ha, _ => .expression (h.twin_expr hf e hs ha)
  | .print e, hs, ha, _ => .print (h.twin_expr hf e hs ha)
  | .var x none, hs, _, _ => .bareVar (h.respell_declared k hs.1)
  | .var x (some e), hs, ha, _ => by
    have ha := (accepts_append.1 ha).2
    have he := h.twin_optional (k := k) (hf.declare h.reserved hs.1) hs.2 ha
    rw [length_declare] at he
    exact .varWith (h.respell_declared k hs.1) he
  | .block ss, hs, ha, _ =>
    .block trivial (twin_stmts (k := k + 1) (hf.pushEmpty hset) hset.push ss hs ha
      fun _ _ _ _ => ownName_marks_succ _ _ _ _)
  | .if e yes none, hs, ha, _ => by
    obtain ⟨he, hy, hp, -⟩ := hs
    have ha := accepts_append.1 (accepts_append.1 ha).1
    apply Twin.ifThen (h.twin_expr hf e he ha.1) _ hp
    exact twin_stmt hf hset yes hy ha.2 (by rw [routine?_plain hp]; exact nofun)
  | .if e yes (some no), hs, ha, _ => by
    obtain ⟨he, hy, hp, hn, hq⟩ := hs
    obtain ⟨ha, hno⟩ := accepts_append.1 ha
    have ha := accepts_append.1 ha
    rw [stmt_frames ctx fs yes hy, after_plain hp] at hno
    exact .ifElse (h.twin_expr hf e he ha.1)
      (twin_stmt hf hset yes hy ha.2 (by rw [routine?_plain hp]; exact nofun)) hp
      (twin_stmt hf hset no hn hno (by rw [routine?_plain hq]; exact nofun)) hq
  | .while e s, hs, ha, _ => by
    obtain ⟨he, hb, hp⟩ := hs
    have ha := accepts_append.1 ha
    exact .while (h.twin_expr hf e he ha.1)
      (twin_stmt hf hset s hb ha.2 (by rw [routine?_plain hp]; exact nofun)) hp
  | .function f, hs, ha, hfix => by
    have ha := (accepts_append.1 ha).2
    have hn : ok f.name.lexeme := by
      cases f with
      | mk => exact hs.1
    have hbody := twin_function (k := k + 1) (hf.binding h.reserved hn) (hset.binding _) f hs ha
      fun _ _ _ _ => ownName_marks_succ _ _ _ _
    rw [length_binding, marks_succ] at hbody
    exact .declared (hfix _ rfl) hbody
  | .return t none, _, _, _ => .bareReturn (.refl rfl)
  | .return t (some e), hs, ha, _ => by
    have ha := (accepts_append.1 ha).2
    exact .returnWith (.refl rfl) (h.twin_optional hf hs ha)
  | .class x none ms, hs, ha, hfix => by
    have ha := (accepts_append.1 ha).2
    have hset' := hset.binding x.lexeme
    have hms := twin_functions (k := k + 1) ((hf.binding h.reserved hs.1).pushThis hset')
      (hset'.single "this") ms hs.2.2 ha
    rw [List.length_cons, length_binding, marks_succ] at hms
    exact .rootClass (hfix _ rfl) (.refl rfl) hms
  | .class x (some r) ms, hs, ha, hfix => by
    obtain ⟨hx, hr, hms⟩ := hs
    have hr := hr r rfl
    obtain ⟨ha, hmethods⟩ := accepts_append.1 ha
    obtain ⟨hne, href⟩ := h.twin_superclass (k := k) hf hr (accepts_append.1 ha).2
    have hset' := hset.binding x.lexeme
    have hms := twin_functions (k := k + 2) ((hf.binding h.reserved hx).pushSuper hset')
      ((hset'.single "super").single "this") ms hms hmethods
    rw [List.length_cons, List.length_cons, length_binding, marks_succ, marks_succ] at hms
    exact .subclass (hfix _ rfl) (.refl rfl) href hset.defined hne (h.respell_ne hr hx hne) hms

theorem twin_stmts {ctx : Context} {fs : Frames} {k : Nat} (hf : Framed ok fs)
    (hset : Settled fs) : (ss : List Stmt) → Stmt.AllFormed ok ss →
      Accepts known (stmts ctx fs ss).2 →
      (∀ s ∈ ss, ∀ n ∈ s.routine?, ownName (marks σ k fs.length) n = n) →
      Twin (.same known) (marks σ k fs.length) fs (.stmts ss) (.stmts (Stmt.respellAll spelling k fs ss))
  | [], _, _, _ => .noStmts
  | s :: ss, hs, ha, hfix => by
    have ha := accepts_append.1 ha
    rw [stmt_frames ctx fs s hs.1] at ha
    apply Twin.moreStmts (twin_stmt hf hset s hs.1 ha.1 (hfix s List.mem_cons_self))
    have hss := twin_stmts (k := k) (hf.after h.reserved hs.1) (hset.after s) ss hs.2 ha.2 (by
      rw [length_after]
      exact fun s' hs' => hfix s' (List.mem_cons_of_mem s hs'))
    rw [length_after] at hss
    exact hss

theorem twin_function {ctx : Context} {fs : Frames} {body : Body} {k : Nat} (hf : Framed ok fs)
    (hset : Settled fs) : (f : Function) → f.Formed ok → Accepts known (function ctx fs body f) →
      (∀ s ∈ f.body, ∀ n ∈ s.routine?, ownName (marks σ k (fs.length + 1)) n = n) →
      Twin (.same known) (marks σ k (fs.length + 1)).tail fs (.function f)
        (.function (f.respell spelling k fs))
  | .mk x ps ss, hs, ha, hfix => by
    have ha := (accepts_append.1 ha).2
    obtain ⟨hx, hps, hss⟩ := hs
    obtain ⟨g, hg, -, -⟩ := parameters_cons [] fs ps
    have hlen : (parameters ([] :: fs) ps).1.length = fs.length + 1 := by
      rw [hg, List.length_cons]
    obtain ⟨r, rs, hr⟩ := List.exists_cons_of_length_eq_add_one (length_marks σ k (fs.length + 1))
    have hbody := twin_stmts (k := k) ((hf.pushEmpty hset).parameters h.reserved hps)
      (hset.push.parameters ps) ss hss ha (by rw [hlen]; exact hfix)
    rw [hlen, hr] at hbody
    rw [hr]
    exact .function trivial (.refl rfl) (h.respell_parameters k r rs hr hps) hbody

theorem twin_functions {ctx : Context} {fs : Frames} {k : Nat} (hf : Framed ok fs)
    (hset : Settled fs) : (ms : List Function) → Function.AllFormed ok ms →
      Accepts known (methodsFindings ctx fs ms) →
      Twin (.same known) (marks σ k fs.length) fs (.functions ms)
        (.functions (Function.respellAll spelling (k + 1) fs ms))
  | [], _, _ => .noFunctions
  | f :: ms, hs, ha => by
    have ha := accepts_append.1 ha
    exact .moreFunctions
      (twin_function hf hset f hs.1 ha.1 fun _ _ _ _ => ownName_marks_succ _ _ _ _)
      (twin_functions hf hset ms hs.2 ha.2)

end

end Suits

end Lox.Scoping
