import Lox.Proofs.Scoping.Transfer

/-!
# Renaming a declaration

One local variable or one parameter gets a new name, where it is declared and at every
occurrence that scoping binds to it. Main statement: if the new name is not in use and the
program is accepted, the outcome is a twin of the program.
-/

set_option autoImplicit false

namespace Lox.Scoping

def change (x y name : String) : String := if name = x then y else name

/-- `Renames x y fs c c'`: in `c`, which stands inside the scopes `fs`, one variable or
parameter `x` is renamed to `y`. -/
inductive Renames (x y : String) : Frames → Code → Code → Prop
  | ofBlock {fs : Frames} {t : Token} {e : Option Expr} {ss : List Stmt}
      (ht : .var t e ∈ ss) (hx : t.lexeme = x) :
      Renames x y fs (.stmt (.block ss))
        (.stmt (.block (Stmt.respellAll (change x y) 0 ([] :: fs) ss)))
  | ofParameter {fs : Frames} {p : Token} {f : Function} (hp : p ∈ f.params) (hx : p.lexeme = x) :
      Renames x y fs (.function f) (.function (f.respell (change x y) 0 fs))
  | ofBody {fs : Frames} {t : Token} {e : Option Expr} {f : Function}
      (ht : .var t e ∈ f.body) (hx : t.lexeme = x) :
      Renames x y fs (.function f) (.function (f.respell (change x y) 0 fs))
  | inBlock {fs : Frames} {ss ss' : List Stmt} (h : Renames x y ([] :: fs) (.stmts ss) (.stmts ss')) :
      Renames x y fs (.stmt (.block ss)) (.stmt (.block ss'))
  | inYes {fs : Frames} {e : Expr} {yes yes' : Stmt} {no : Option Stmt}
      (h : Renames x y fs (.stmt yes) (.stmt yes')) :
      Renames x y fs (.stmt (.if e yes no)) (.stmt (.if e yes' no))
  | inNo {fs : Frames} {e : Expr} {yes no no' : Stmt} (h : Renames x y fs (.stmt no) (.stmt no')) :
      Renames x y fs (.stmt (.if e yes (some no))) (.stmt (.if e yes (some no')))
  | inLoop {fs : Frames} {e : Expr} {s s' : Stmt} (h : Renames x y fs (.stmt s) (.stmt s')) :
      Renames x y fs (.stmt (.while e s)) (.stmt (.while e s'))
  | inFunction {fs : Frames} {f f' : Function}
      (h : Renames x y (binding fs f.name.lexeme) (.function f) (.function f')) :
      Renames x y fs (.stmt (.function f)) (.stmt (.function f'))
  | inBody {fs : Frames} {n : Token} {ps : List Token} {ss ss' : List Stmt}
      (h : Renames x y (parameters ([] :: fs) ps).1 (.stmts ss) (.stmts ss')) :
      Renames x y fs (.function (.mk n ps ss)) (.function (.mk n ps ss'))
  | inClass {fs : Frames} {n : Token} {r : Option Reference} {ms ms' : List Function}
      (h : Renames x y (methodFrames (binding fs n.lexeme) r) (.functions ms) (.functions ms')) :
      Renames x y fs (.stmt (.class n r ms)) (.stmt (.class n r ms'))
  | first {fs : Frames} {s s' : Stmt} {ss : List Stmt} (h : Renames x y fs (.stmt s) (.stmt s')) :
      Renames x y fs (.stmts (s :: ss)) (.stmts (s' :: ss))
  | later {fs : Frames} {s : Stmt} {ss ss' : List Stmt}
      (h : Renames x y (after fs s) (.stmts ss) (.stmts ss')) :
      Renames x y fs (.stmts (s :: ss)) (.stmts (s :: ss'))
  | firstMethod {fs : Frames} {f f' : Function} {ms : List Function}
      (h : Renames x y fs (.function f) (.function f')) :
      Renames x y fs (.functions (f :: ms)) (.functions (f' :: ms))
  | laterMethod {fs : Frames} {f : Function} {ms ms' : List Function}
      (h : Renames x y fs (.functions ms) (.functions ms')) :
      Renames x y fs (.functions (f :: ms)) (.functions (f :: ms'))

/-- The name that a statement declares in the scope it stands in. -/
def declared? : Stmt → Option String
  | .var x _ => some x.lexeme
  | s => s.routine?

variable {known : Known} {ok : String → Prop}

theorem redeclares_of_accepts {fs : Frames} {t : Token}
    (h : Accepts known (declarationFaults fs t)) : redeclares fs t.lexeme = false := by
  by_contra hc
  unfold declarationFaults at h
  rw [if_pos (Bool.not_eq_false _ ▸ hc)] at h
  exact not_accepts_fault h

theorem declared?_of_routine {s : Stmt} {n : String} (h : s.routine? = some n) :
    declared? s = some n := by
  cases s with
  | var => cases h
  | _ => exact h

/-- Behind a statement the innermost scope has its old names and what is declared. -/
theorem after_cons (f : Frame) (fs : Frames) (s : Stmt) :
    ∃ g, after (f :: fs) s = g :: fs ∧ (∀ n, f.binds n = true → g.binds n = true) ∧
      ∀ n, declared? s = some n → g.binds n = true := by
  have hbinding (x : String) : ∃ g, binding (f :: fs) x = g :: fs ∧
      (∀ n, f.binds n = true → g.binds n = true) ∧ ∀ n, some x = some n → g.binds n = true := by
    apply Exists.intro _
    apply And.intro rfl
    constructor
    · intro n hn
      by_cases he : n = x
      · simp [Frame.binds, he]
      · rw [Frame.binds_congr (Frame.lookup_bound f he)]
        exact hn
    · intro n hn
      cases hn
      simp [Frame.binds]
  cases s with
  | var | function | «class» => exact hbinding _
  | _ => exact ⟨f, rfl, fun _ h => h, fun _ h => by cases h⟩

/-- A name that the scope has is not declared in it again. -/
theorem declared?_of_binds {ctx : Context} {f : Frame} {fs : Frames} {ss : List Stmt} {x : String}
    (hb : f.binds x = true) (hf : Stmt.AllFormed ok ss)
    (ha : Accepts known (stmts ctx (f :: fs) ss).2) : ∀ s ∈ ss, declared? s ≠ some x := by
  induction ss generalizing f with
  | nil => exact nofun
  | cons s ss ih =>
    obtain ⟨hs, hss⟩ := accepts_append.1 ha
    obtain ⟨g, hg, hkeep, -⟩ := after_cons f fs s
    rw [stmt_frames ctx _ s hf.1, hg] at hss
    have hfresh {t : Token} (hd : Accepts known (declarationFaults (f :: fs) t)) :
        some t.lexeme ≠ some x := by
      intro hx
      have hr := redeclares_of_accepts hd
      simp [redeclares, Option.some.inj hx, hb] at hr
    intro s' hs'
    rcases List.mem_cons.1 hs' with rfl | hs'
    · cases s' with
      | var t e => exact hfresh (accepts_append.1 hs).1
      | function f => exact hfresh (accepts_append.1 hs).1
      | «class» t r ms => exact hfresh (accepts_append.1 (accepts_append.1 hs).1).1
      | _ =>
        intro hd
        cases hd
    · exact ih (hkeep x hb) hf.2 hss s' hs'

/-- A scope that declares a variable has no function and no class of its name. -/
theorem routine?_of_variable {ctx : Context} {f : Frame} {fs : Frames} {ss : List Stmt}
    {t : Token} {e : Option Expr} (ht : .var t e ∈ ss) (hf : Stmt.AllFormed ok ss)
    (ha : Accepts known (stmts ctx (f :: fs) ss).2) : ∀ s ∈ ss, s.routine? ≠ some t.lexeme := by
  induction ss generalizing f with
  | nil => cases ht
  | cons s ss ih =>
    obtain ⟨hs, hss⟩ := accepts_append.1 ha
    obtain ⟨g, hg, hkeep, hdeclared⟩ := after_cons f fs s
    rw [stmt_frames ctx _ s hf.1, hg] at hss
    intro s' hs' hr
    rcases List.mem_cons.1 ht with rfl | hin
    · rcases List.mem_cons.1 hs' with rfl | hs'
      · cases hr
      · exact declared?_of_binds (hdeclared _ rfl) hf.2 hss s' hs' (declared?_of_routine hr)
    · rcases List.mem_cons.1 hs' with rfl | hs'
      · have hbound := hdeclared _ (declared?_of_routine hr)
        exact declared?_of_binds hbound hf.2 hss (.var t e) hin rfl
      · exact ih hin hf.2 hss s' hs' hr

/-- The scopes of a place, all under their own names. -/
abbrev plainly (fs : Frames) : List Renaming := List.replicate fs.length .keep

def Code.Formed (ok : String → Prop) : Code → Prop
  | .expr e => e.Formed ok
  | .exprs es => Expr.AllFormed ok es
  | .stmt s => s.Formed ok
  | .stmts ss => Stmt.AllFormed ok ss
  | .function f => f.Formed ok
  | .functions ms => Function.AllFormed ok ms

def Code.findings (ctx : Context) (body : Body) (fs : Frames) : Code → List Finding
  | .expr e => Scoping.expr ctx fs e
  | .exprs es => Scoping.exprs ctx fs es
  | .stmt s => (Scoping.stmt ctx fs s).2
  | .stmts ss => (Scoping.stmts ctx fs ss).2
  | .function f => Scoping.function ctx fs body f
  | .functions ms => methodsFindings ctx fs ms

theorem suits_keep (hok : ∀ n, ok n → n ≠ "this" ∧ n ≠ "super") : Suits ok .keep id :=
  ⟨hok, fun _ _ => rfl, fun _ _ => .inl rfl⟩

theorem marks_keep (k n : Nat) : marks .keep k n = List.replicate n .keep := by
  unfold marks
  apply List.ext_getElem
  · simp
  · intro i hi hi'
    rw [List.getElem_set]
    split <;> simp

theorem kept_marks (σ : Renaming) (k n : Nat) : kept (marks σ k n) = List.replicate n .keep := by
  rw [kept, List.map_const', length_marks]

/-- An accepted tree is a twin of itself, with no name changed. -/
theorem twin_exact (hok : ∀ n, ok n → n ≠ "this" ∧ n ≠ "super") {ctx : Context} (body : Body)
    {fs : Frames} {c : Code} (hf : Framed ok fs) (hset : Settled fs) (hc : c.Formed ok)
    (ha : Accepts known (c.findings ctx body fs)) : Twin (.exact known) (plainly fs) fs c c := by
  have h := suits_keep hok
  have hfix (n : String) : ownName (marks .keep 0 fs.length) n = n := by
    rw [marks_keep]
    cases fs <;> rfl
  have hlen := length_marks .keep 0 fs.length
  rw [plainly, ← kept_marks .keep 0 fs.length]
  cases c with
  | expr e => exact (h.twin_expr hf e hc ha).self hlen
  | exprs es => exact (h.twin_exprs hf es hc ha).self hlen
  | stmt s => exact (h.twin_stmt hf hset s hc ha fun n _ => hfix n).self hlen
  | stmts ss => exact (h.twin_stmts hf hset ss hc ha fun _ _ n _ => hfix n).self hlen
  | functions ms => exact (h.twin_functions hf hset ms hc ha).self hlen
  | function f =>
    have ht := h.twin_function (k := 1) hf hset f hc ha fun _ _ n _ => ownName_marks_succ _ _ _ n
    rw [marks_succ] at ht
    exact ht.self hlen

theorem twin_self (hok : ∀ n, ok n → n ≠ "this" ∧ n ≠ "super") {ctx : Context} (body : Body)
    {fs : Frames} {c : Code} (hf : Framed ok fs) (hset : Settled fs) (hc : c.Formed ok)
    (ha : Accepts known (c.findings ctx body fs)) : Twin (.same known) (plainly fs) fs c c :=
  (twin_exact hok body hf hset hc ha).mono (.exact_same known)

/-- In the scope that declares the renamed name nothing else is renamed. -/
theorem routine_fixed {x y : String} {σ : Renaming} (h : Suits ok σ (change x y)) {n : String}
    (hn : ok n) (hne : n ≠ x) (k : Nat) : ownName (marks σ 0 k) n = n := by
  cases k with
  | zero => rfl
  | succ k =>
    rw [marks_zero]
    exact (h.spells n hn).trans (if_neg hne)

theorem ok_routine {ss : List Stmt} (hf : Stmt.AllFormed ok ss) :
    ∀ s ∈ ss, ∀ n ∈ s.routine?, ok n := by
  induction ss with
  | nil => exact nofun
  | cons s ss ih =>
    intro s' hs' n hn
    rcases List.mem_cons.1 hs' with rfl | hs'
    · cases s' with
      | function f =>
        cases f with
        | mk =>
          cases hn
          exact hf.1.1
      | «class» =>
        cases hn
        exact hf.1.1
      | _ => cases hn
    · exact ih hf.2 s' hs' n hn

theorem Renames.twin {x y : String} {σ : Renaming} (h : Suits ok σ (change x y)) {fs : Frames}
    {c c' : Code} (hr : Renames x y fs c c') (body : Body) {ctx : Context} (hf : Framed ok fs)
    (hset : Settled fs) (hc : c.Formed ok) (ha : Accepts known (c.findings ctx body fs)) :
    Twin (.same known) (plainly fs) fs c c' := by
  have hok := h.reserved
  induction hr generalizing ctx body with
  | @ofBlock fs t e ss ht hx =>
    have hfix (s : Stmt) (hs : s ∈ ss) (n : String) (hn : n ∈ s.routine?) :
        ownName (marks σ 0 (fs.length + 1)) n = n := by
      apply routine_fixed h (ok_routine hc s hs n hn)
      intro he
      apply routine?_of_variable ht hc ha s hs
      rw [hx, ← he]
      exact hn
    exact .block trivial (h.twin_stmts (k := 0) (hf.pushEmpty hset) hset.push ss hc ha hfix)
  | @ofParameter fs p f hp hx =>
    apply h.twin_function (k := 0) hf hset f hc ha
    obtain ⟨n, ps, ss⟩ := f
    intro s hs n hn
    apply routine_fixed h (ok_routine hc.2.2 s hs n hn)
    intro he
    obtain ⟨g, hg, -, hall⟩ := parameters_cons [] fs ps
    have hbody := (accepts_append.1 ha).2
    rw [hg] at hbody
    have hbound : g.binds x = true := hx ▸ hall p hp
    exact declared?_of_binds hbound hc.2.2 hbody s hs (declared?_of_routine (he ▸ hn))
  | @ofBody fs t e f ht hx =>
    apply h.twin_function (k := 0) hf hset f hc ha
    obtain ⟨n, ps, ss⟩ := f
    intro s hs n hn
    apply routine_fixed h (ok_routine hc.2.2 s hs n hn)
    intro he
    obtain ⟨g, hg, -, -⟩ := parameters_cons [] fs ps
    have hbody := (accepts_append.1 ha).2
    rw [hg] at hbody
    apply routine?_of_variable ht hc.2.2 hbody s hs
    rw [hx, ← he]
    exact hn
  | inBlock hr ih => exact .block trivial (ih body (hf.pushEmpty hset) hset.push hc ha)
  | @inYes fs e yes yes' no hr ih =>
    obtain ⟨he, hy, hp, hn⟩ := hc
    obtain ⟨ha, hno⟩ := accepts_append.1 ha
    obtain ⟨ha, hyes⟩ := accepts_append.1 ha
    have hself := twin_self hok body (c := .expr e) hf hset he ha
    cases no with
    | none => exact .ifThen hself (ih body hf hset hy hyes) hp
    | some no =>
      rw [stmt_frames ctx fs yes hy, after_plain hp] at hno
      exact .ifElse hself (ih body hf hset hy hyes) hp
        (twin_self hok body (c := .stmt no) hf hset hn.1 hno) hn.2
  | @inNo fs e yes no no' hr ih =>
    obtain ⟨he, hy, hp, hn⟩ := hc
    obtain ⟨ha, hno⟩ := accepts_append.1 ha
    obtain ⟨ha, hyes⟩ := accepts_append.1 ha
    rw [stmt_frames ctx fs yes hy, after_plain hp] at hno
    exact .ifElse (twin_self hok body (c := .expr e) hf hset he ha)
      (twin_self hok body (c := .stmt yes) hf hset hy hyes) hp (ih body hf hset hn.1 hno) hn.2
  | @inLoop fs e s s' hr ih =>
    obtain ⟨he, hb, hp⟩ := hc
    have ha := accepts_append.1 ha
    exact .while (twin_self hok body (c := .expr e) hf hset he ha.1) (ih body hf hset hb ha.2) hp
  | @inFunction fs f f' hr ih =>
    have hname : ok f.name.lexeme := by
      cases f with
      | mk => exact hc.1
    have hbody := ih .function (hf.binding hok hname) (hset.binding _) hc (accepts_append.1 ha).2
    rw [plainly, length_binding] at hbody
    exact .declared (by cases fs <;> rfl) hbody
  | @inBody fs n ps ss ss' hr ih =>
    obtain ⟨g, hg, -, -⟩ := parameters_cons [] fs ps
    have hbody := ih body ((hf.pushEmpty hset).parameters hok hc.2.1) (hset.push.parameters ps) hc.2.2
      (accepts_append.1 ha).2
    have hlen : (parameters ([] :: fs) ps).1.length = fs.length + 1 := by
      rw [hg, List.length_cons]
    rw [plainly, hlen, List.replicate_succ] at hbody
    exact .function trivial (.refl rfl) (List.forall₂_same.2 fun _ _ => .refl rfl) hbody
  | @inClass fs n r ms ms' hr ih =>
    obtain ⟨hn, href, hms⟩ := hc
    obtain ⟨ha, hmethods⟩ := accepts_append.1 ha
    have hset' := hset.binding n.lexeme
    have hname : ownName (plainly fs) n.lexeme = n.lexeme := by cases fs <;> rfl
    cases r with
    | none =>
      have hbody : Twin (.same known) (plainly ([("this", true)] :: binding fs n.lexeme)) _
          (.functions ms) (.functions ms') :=
        ih body ((hf.binding hok hn).pushThis hset') (hset'.single "this") hms hmethods
      rw [plainly, List.length_cons, length_binding, List.replicate_succ] at hbody
      exact .rootClass hname (.refl rfl) hbody
    | some r =>
      have hbody : Twin (.same known) (plainly ([("this", true)] :: [("super", true)] :: binding fs n.lexeme))
          _ (.functions ms) (.functions ms') :=
        ih body ((hf.binding hok hn).pushSuper hset') ((hset'.single "super").single "this") hms
          hmethods
      rw [plainly, List.length_cons, List.length_cons, length_binding, List.replicate_succ,
        List.replicate_succ] at hbody
      obtain ⟨hne, hsuper⟩ := (suits_keep hok).twin_superclass (k := 0) hf (href r rfl)
        (accepts_append.1 ha).2
      have hself := hsuper.self (length_marks _ _ _)
      rw [kept_marks] at hself
      exact .subclass hname (.refl rfl) (hself.mono (.exact_same known)) hset.defined hne hne hbody
  | @first fs s s' ss hr ih =>
    have ha := accepts_append.1 ha
    rw [stmt_frames ctx fs s hc.1] at ha
    have hss := twin_self hok body (c := .stmts ss) (hf.after hok hc.1) (hset.after s) hc.2 ha.2
    rw [plainly, length_after] at hss
    exact .moreStmts (ih body hf hset hc.1 ha.1) hss
  | @later fs s ss ss' hr ih =>
    have ha := accepts_append.1 ha
    rw [stmt_frames ctx fs s hc.1] at ha
    have hss := ih body (hf.after hok hc.1) (hset.after s) hc.2 ha.2
    rw [plainly, length_after] at hss
    exact .moreStmts (twin_self hok body (c := .stmt s) hf hset hc.1 ha.1) hss
  | @firstMethod fs f f' ms hr ih =>
    have ha := accepts_append.1 ha
    exact .moreFunctions (ih (methodBody f) hf hset hc.1 ha.1)
      (twin_self hok body (c := .functions ms) hf hset hc.2 ha.2)
  | @laterMethod fs f ms ms' hr ih =>
    have ha := accepts_append.1 ha
    exact .moreFunctions (twin_self hok (methodBody f) (c := .function f) hf hset hc.1 ha.1)
      (ih body hf hset hc.2 ha.2)

end Lox.Scoping
