import Lox.Proofs.Scoping.Renames

/-!
# Undoing a renaming

A name that a program does not have can be taken back everywhere at once. So a renamed
declaration is undone without a look at scopes, and all else in the tree is untouched.
-/

set_option autoImplicit false
set_option linter.unusedSectionVars false

namespace Lox

def Token.mapName (f : String → String) (t : Token) : Token := { t with lexeme := f t.lexeme }

def Reference.mapName (f : String → String) (r : Reference) : Reference := ⟨r.id, r.name.mapName f⟩

variable (f : String → String)

namespace Expr

mutual

/-- Apply `f` to the names of all variables. -/
def mapNames : Expr → Expr
  | literal v => literal v
  | grouping e => grouping (mapNames e)
  | unary op e => unary op (mapNames e)
  | binary l op r => binary (mapNames l) op (mapNames r)
  | logical l op r => logical (mapNames l) op (mapNames r)
  | var r => var (r.mapName f)
  | assign r e => assign (r.mapName f) (mapNames e)
  | call callee paren es => call (mapNames callee) paren (mapAllNames es)
  | get e name => get (mapNames e) name
  | set e name v => set (mapNames e) name (mapNames v)
  | this r => this r
  | super r method => super r method

def mapAllNames : List Expr → List Expr
  | [] => []
  | e :: es => mapNames e :: mapAllNames es

end

end Expr

mutual

def Stmt.mapNames : Stmt → Stmt
  | .expression e => .expression (e.mapNames f)
  | .print e => .print (e.mapNames f)
  | .var x e => .var (x.mapName f) (e.map (Expr.mapNames f))
  | .block ss => .block (Stmt.mapAllNames ss)
  | .if e yes no => .if (e.mapNames f) (Stmt.mapNames yes) (Stmt.mapOptionNames no)
  | .while e s => .while (e.mapNames f) (Stmt.mapNames s)
  | .function g => .function (Function.mapNames g)
  | .return t e => .return t (e.map (Expr.mapNames f))
  | .class x r ms => .class x (r.map (Reference.mapName f)) (Function.mapAllNames ms)

def Stmt.mapAllNames : List Stmt → List Stmt
  | [] => []
  | s :: ss => Stmt.mapNames s :: Stmt.mapAllNames ss

def Stmt.mapOptionNames : Option Stmt → Option Stmt
  | none => none
  | some s => some (Stmt.mapNames s)

def Function.mapNames : Function → Function
  | .mk x ps ss => .mk x (ps.map (Token.mapName f)) (Stmt.mapAllNames ss)

def Function.mapAllNames : List Function → List Function
  | [] => []
  | g :: ms => Function.mapNames g :: Function.mapAllNames ms

end

end Lox

namespace Lox.Scoping

def Code.mapNames (f : String → String) : Code → Code
  | .expr e => .expr (e.mapNames f)
  | .exprs es => .exprs (Expr.mapAllNames f es)
  | .stmt s => .stmt (s.mapNames f)
  | .stmts ss => .stmts (Stmt.mapAllNames f ss)
  | .function g => .function (g.mapNames f)
  | .functions ms => .functions (Function.mapAllNames f ms)

/-- The names in use stay, and a new spelling is taken back. -/
structure Restores (ok : String → Prop) (spelling f : String → String) : Prop where
  fixed (name : String) : ok name → f name = name
  restored (name : String) : ok name → f (spelling name) = name

variable {ok : String → Prop} {spelling f : String → String}

theorem map_eq_self {α : Type} {g : α → α} {o : Option α} (h : ∀ a ∈ o, g a = a) : o.map g = o := by
  cases o with
  | none => rfl
  | some a => exact congrArg some (h a rfl)

section Fixed

variable (hf : ∀ name, ok name → f name = name)

include hf

theorem mapName_fixed {t : Token} (h : ok t.lexeme) : t.mapName f = t := by
  unfold Token.mapName
  rw [hf t.lexeme h]

theorem mapNames_tokens {ps : List Token} (h : ∀ p ∈ ps, ok p.lexeme) :
    ps.map (Token.mapName f) = ps := by
  rw [List.map_congr_left fun p hp => mapName_fixed hf (h p hp)]
  exact List.map_id ps

theorem mapName_reference {r : Reference} (h : ok r.name.lexeme) : r.mapName f = r := by
  unfold Reference.mapName
  rw [mapName_fixed hf h]

mutual

theorem mapNames_expr : (e : Expr) → e.Formed ok → e.mapNames f = e
  | .literal _, _ => rfl
  | .grouping e, h => congrArg Expr.grouping (mapNames_expr e h)
  | .unary op e, h => congrArg (Expr.unary op) (mapNames_expr e h)
  | .binary l op r, h => by
    rw [Expr.mapNames, mapNames_expr l h.1, mapNames_expr r h.2]
  | .logical l op r, h => by
    rw [Expr.mapNames, mapNames_expr l h.1, mapNames_expr r h.2]
  | .var r, h => congrArg Expr.var (mapName_reference hf h)
  | .assign r e, h => by
    rw [Expr.mapNames, mapName_reference hf h.1, mapNames_expr e h.2]
  | .call g paren es, h => by
    rw [Expr.mapNames, mapNames_expr g h.1, mapNames_exprs es h.2]
  | .get e name, h => by
    rw [Expr.mapNames, mapNames_expr e h]
  | .set e name v, h => by
    rw [Expr.mapNames, mapNames_expr e h.1, mapNames_expr v h.2]
  | .this _, _ => rfl
  | .super _ _, _ => rfl

theorem mapNames_exprs : (es : List Expr) → Expr.AllFormed ok es → Expr.mapAllNames f es = es
  | [], _ => rfl
  | e :: es, h => by
    rw [Expr.mapAllNames, mapNames_expr e h.1, mapNames_exprs es h.2]

end

mutual

theorem mapNames_stmt : (s : Stmt) → s.Formed ok → s.mapNames f = s
  | .expression e, h => congrArg Stmt.expression (mapNames_expr hf e h)
  | .print e, h => congrArg Stmt.print (mapNames_expr hf e h)
  | .var x e, h => by
    rw [Stmt.mapNames, mapName_fixed hf h.1, map_eq_self fun e' he => mapNames_expr hf e' (h.2 e' he)]
  | .block ss, h => congrArg Stmt.block (mapNames_stmts ss h)
  | .if e yes no, h => by
    rw [Stmt.mapNames, mapNames_expr hf e h.1, mapNames_stmt yes h.2.1,
      mapNames_option no h.2.2.2]
  | .while e s, h => by
    rw [Stmt.mapNames, mapNames_expr hf e h.1, mapNames_stmt s h.2.1]
  | .function g, h => congrArg Stmt.function (mapNames_function g h)
  | .return t e, h => by
    rw [Stmt.mapNames, map_eq_self fun e' he => mapNames_expr hf e' (h e' he)]
  | .class x r ms, h => by
    rw [Stmt.mapNames, map_eq_self fun r' hr => mapName_reference hf (h.2.1 r' hr),
      mapNames_functions ms h.2.2]

theorem mapNames_stmts : (ss : List Stmt) → Stmt.AllFormed ok ss → Stmt.mapAllNames f ss = ss
  | [], _ => rfl
  | s :: ss, h => by
    rw [Stmt.mapAllNames, mapNames_stmt s h.1, mapNames_stmts ss h.2]

theorem mapNames_option : (s : Option Stmt) → Stmt.OptionFormed ok s → Stmt.mapOptionNames f s = s
  | none, _ => rfl
  | some s, h => congrArg some (mapNames_stmt s h.1)

theorem mapNames_function : (g : Function) → g.Formed ok → g.mapNames f = g
  | .mk x ps ss, h => by
    rw [Function.mapNames, mapNames_tokens hf h.2.1, mapNames_stmts ss h.2.2]

theorem mapNames_functions :
    (ms : List Function) → Function.AllFormed ok ms → Function.mapAllNames f ms = ms
  | [], _ => rfl
  | g :: ms, h => by
    rw [Function.mapAllNames, mapNames_function g h.1, mapNames_functions ms h.2]

end

end Fixed

section Restored

variable (hr : Restores ok spelling f)

include hr

theorem mapName_respell {t : Token} (k : Nat) (fs : Frames) (h : ok t.lexeme) :
    (respell spelling k fs t).mapName f = t := by
  unfold respell
  split
  · unfold Token.mapName
    rw [hr.restored t.lexeme h]
  · exact mapName_fixed hr.fixed h

theorem mapName_reference_respell {r : Reference} (k : Nat) (fs : Frames) (h : ok r.name.lexeme) :
    (r.respell spelling k fs).mapName f = r := by
  unfold Reference.mapName Reference.respell
  rw [mapName_respell hr k fs h]

theorem mapNames_tokens_respell {ps : List Token} (k : Nat) (fs : Frames)
    (h : ∀ p ∈ ps, ok p.lexeme) : (ps.map (respell spelling k fs)).map (Token.mapName f) = ps := by
  rw [List.map_map]
  exact (List.map_congr_left fun p hp => mapName_respell hr k fs (h p hp)).trans (List.map_id ps)

mutual

theorem mapNames_expr_respell (k : Nat) (fs : Frames) :
    (e : Expr) → e.Formed ok → (e.respell spelling k fs).mapNames f = e
  | .literal _, _ => rfl
  | .grouping e, h => congrArg Expr.grouping (mapNames_expr_respell k fs e h)
  | .unary op e, h => congrArg (Expr.unary op) (mapNames_expr_respell k fs e h)
  | .binary l op r, h => by
    rw [Expr.respell, Expr.mapNames, mapNames_expr_respell k fs l h.1,
      mapNames_expr_respell k fs r h.2]
  | .logical l op r, h => by
    rw [Expr.respell, Expr.mapNames, mapNames_expr_respell k fs l h.1,
      mapNames_expr_respell k fs r h.2]
  | .var r, h => congrArg Expr.var (mapName_reference_respell hr k fs h)
  | .assign r e, h => by
    rw [Expr.respell, Expr.mapNames, mapName_reference_respell hr k fs h.1,
      mapNames_expr_respell k fs e h.2]
  | .call g paren es, h => by
    rw [Expr.respell, Expr.mapNames, mapNames_expr_respell k fs g h.1,
      mapNames_exprs_respell k fs es h.2]
  | .get e name, h => by
    rw [Expr.respell, Expr.mapNames, mapNames_expr_respell k fs e h]
  | .set e name v, h => by
    rw [Expr.respell, Expr.mapNames, mapNames_expr_respell k fs e h.1,
      mapNames_expr_respell k fs v h.2]
  | .this _, _ => rfl
  | .super _ _, _ => rfl

theorem mapNames_exprs_respell (k : Nat) (fs : Frames) :
    (es : List Expr) → Expr.AllFormed ok es →
      Expr.mapAllNames f (Expr.respellAll spelling k fs es) = es
  | [], _ => rfl
  | e :: es, h => by
    rw [Expr.respellAll, Expr.mapAllNames, mapNames_expr_respell k fs e h.1,
      mapNames_exprs_respell k fs es h.2]

end

theorem mapNames_optional_respell (k : Nat) (fs : Frames) {e : Option Expr}
    (h : ∀ e' ∈ e, e'.Formed ok) :
    (e.map (Expr.respell spelling k fs)).map (Expr.mapNames f) = e := by
  rw [Option.map_map]
  exact map_eq_self fun e' he => mapNames_expr_respell hr k fs e' (h e' he)

mutual

theorem mapNames_stmt_respell (k : Nat) (fs : Frames) :
    (s : Stmt) → s.Formed ok → (s.respell spelling k fs).mapNames f = s
  | .expression e, h => congrArg Stmt.expression (mapNames_expr_respell hr k fs e h)
  | .print e, h => congrArg Stmt.print (mapNames_expr_respell hr k fs e h)
  | .var x e, h => by
    rw [Stmt.respell, Stmt.respellVar, Stmt.mapNames, mapName_respell hr _ _ h.1,
      mapNames_optional_respell hr _ _ h.2]
  | .block ss, h => congrArg Stmt.block (mapNames_stmts_respell (k + 1) ([] :: fs) ss h)
  | .if e yes no, h => by
    rw [Stmt.respell, Stmt.mapNames, mapNames_expr_respell hr k fs e h.1,
      mapNames_stmt_respell k fs yes h.2.1, mapNames_option_respell k fs no h.2.2.2]
  | .while e s, h => by
    rw [Stmt.respell, Stmt.mapNames, mapNames_expr_respell hr k fs e h.1,
      mapNames_stmt_respell k fs s h.2.1]
  | .function g, h => congrArg Stmt.function (mapNames_function_respell (k + 1) _ g h)
  | .return t e, h => congrArg (Stmt.return t) (mapNames_optional_respell hr k fs h)
  | .class x r ms, h => by
    have hsuper : (r.map (Reference.respell spelling k (binding fs x.lexeme))).map
        (Reference.mapName f) = r := by
      rw [Option.map_map]
      exact map_eq_self fun r' hr' => mapName_reference_respell hr _ _ (h.2.1 r' hr')
    rw [Stmt.respell, Stmt.mapNames, hsuper, mapNames_functions_respell _ _ ms h.2.2]

theorem mapNames_stmts_respell (k : Nat) (fs : Frames) :
    (ss : List Stmt) → Stmt.AllFormed ok ss →
      Stmt.mapAllNames f (Stmt.respellAll spelling k fs ss) = ss
  | [], _ => rfl
  | s :: ss, h => by
    rw [Stmt.respellAll, Stmt.mapAllNames, mapNames_stmt_respell k fs s h.1,
      mapNames_stmts_respell k _ ss h.2]

theorem mapNames_option_respell (k : Nat) (fs : Frames) :
    (s : Option Stmt) → Stmt.OptionFormed ok s →
      Stmt.mapOptionNames f (Stmt.respellOption spelling k fs s) = s
  | none, _ => rfl
  | some s, h => congrArg some (mapNames_stmt_respell k fs s h.1)

theorem mapNames_function_respell (k : Nat) (fs : Frames) :
    (g : Function) → g.Formed ok → (g.respell spelling k fs).mapNames f = g
  | .mk x ps ss, h => by
    rw [Function.respell, Function.mapNames, mapNames_tokens_respell hr _ _ h.2.1,
      mapNames_stmts_respell k _ ss h.2.2]

theorem mapNames_functions_respell (k : Nat) (fs : Frames) :
    (ms : List Function) → Function.AllFormed ok ms →
      Function.mapAllNames f (Function.respellAll spelling k fs ms) = ms
  | [], _ => rfl
  | g :: ms, h => by
    rw [Function.respellAll, Function.mapAllNames, mapNames_function_respell k fs g h.1,
      mapNames_functions_respell k fs ms h.2]

end

end Restored

/-- Taking the new name back undoes the renaming of a declaration. -/
theorem Renames.mapNames {x y : String} (hr : Restores ok (change x y) f) {fs : Frames} {c c' : Code}
    (h : Renames x y fs c c') (hc : c.Formed ok) : c'.mapNames f = c := by
  induction h with
  | @ofBlock fs t e ss ht hx =>
    exact congrArg (fun ss => Code.stmt (.block ss)) (mapNames_stmts_respell hr _ _ ss hc)
  | @ofParameter fs p g hp hx => exact congrArg Code.function (mapNames_function_respell hr _ _ g hc)
  | @ofBody fs t e g ht hx => exact congrArg Code.function (mapNames_function_respell hr _ _ g hc)
  | inBlock _ ih =>
    have hss := Code.stmts.inj (ih hc)
    exact congrArg (fun ss => Code.stmt (.block ss)) hss
  | inYes _ ih =>
    have hyes := Code.stmt.inj (ih hc.2.1)
    rw [Code.mapNames, Stmt.mapNames, mapNames_expr hr.fixed _ hc.1, hyes,
      mapNames_option hr.fixed _ hc.2.2.2]
  | inNo _ ih =>
    have hno := Code.stmt.inj (ih hc.2.2.2.1)
    rw [Code.mapNames, Stmt.mapNames, Stmt.mapOptionNames, mapNames_expr hr.fixed _ hc.1,
      mapNames_stmt hr.fixed _ hc.2.1, hno]
  | inLoop _ ih =>
    have hs := Code.stmt.inj (ih hc.2.1)
    rw [Code.mapNames, Stmt.mapNames, mapNames_expr hr.fixed _ hc.1, hs]
  | inFunction _ ih =>
    have hg := Code.function.inj (ih hc)
    exact congrArg (fun g => Code.stmt (.function g)) hg
  | inBody _ ih =>
    have hss := Code.stmts.inj (ih hc.2.2)
    rw [Code.mapNames, Function.mapNames, mapNames_tokens hr.fixed hc.2.1, hss]
  | inClass _ ih =>
    have hms := Code.functions.inj (ih hc.2.2)
    rw [Code.mapNames, Stmt.mapNames,
      map_eq_self fun r hr' => mapName_reference hr.fixed (hc.2.1 r hr'), hms]
  | first _ ih =>
    have hs := Code.stmt.inj (ih hc.1)
    rw [Code.mapNames, Stmt.mapAllNames, hs, mapNames_stmts hr.fixed _ hc.2]
  | later _ ih =>
    have hss := Code.stmts.inj (ih hc.2)
    rw [Code.mapNames, Stmt.mapAllNames, mapNames_stmt hr.fixed _ hc.1, hss]
  | firstMethod _ ih =>
    have hg := Code.function.inj (ih hc.1)
    rw [Code.mapNames, Function.mapAllNames, hg, mapNames_functions hr.fixed _ hc.2]
  | laterMethod _ ih =>
    have hms := Code.functions.inj (ih hc.2)
    rw [Code.mapNames, Function.mapAllNames, mapNames_function hr.fixed _ hc.1, hms]

/-- A name that is not in use can be taken back for the one it replaced. -/
theorem restores_change (x : String) {y : String} (hy : ¬ ok y) :
    Restores ok (change x y) (change y x) where
  fixed n hn := by
    have hne : n ≠ y := fun he => hy (he ▸ hn)
    exact if_neg hne
  restored n hn := by
    have hne : n ≠ y := fun he => hy (he ▸ hn)
    unfold change
    by_cases h : n = x
    · rw [if_pos h, if_pos rfl, h]
    · rw [if_neg h, if_neg hne]

end Lox.Scoping
