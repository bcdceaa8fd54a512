import Lox.Proofs.Grammar.Shift
import Lox.Proofs.Scoping.Transfer

/-!
# Scoping counts from anywhere

Scoping looks at names only. So of a shifted tree it finds what it finds of the tree itself,
shifted; and a twin of a tree is still one when it is shifted, if the link allows it.
-/

set_option autoImplicit false

namespace Lox.Scoping

def Finding.shift (σ : Shift) : Finding → Finding
  | .fault d => .fault (d.shift σ)
  | .lookup r depth => .lookup (r.shift σ) depth

def Code.shift (σ : Shift) : Code → Code
  | .expr e => .expr (e.shift σ)
  | .exprs es => .exprs (Expr.shiftAll σ es)
  | .stmt s => .stmt (s.shift σ)
  | .stmts ss => .stmts (Stmt.shiftAll σ ss)
  | .function f => .function (f.shift σ)
  | .functions ms => .functions (Function.shiftAll σ ms)

section Findings

variable (σ : Shift)

theorem declarationFaults_shift (fs : Frames) (t : Token) :
    declarationFaults fs (t.shift σ) = (declarationFaults fs t).map (Finding.shift σ) := by
  unfold declarationFaults
  rw [Token.shift_lexeme]
  split <;> rfl

theorem read_shift (fs : Frames) (r : Reference) :
    read fs (r.shift σ) = (read fs r).map (Finding.shift σ) := by
  unfold read
  rw [Reference.shift_name, Token.shift_lexeme]
  split <;> rfl

theorem thisFindings_shift (ctx : Context) (fs : Frames) (r : Reference) :
    thisFindings ctx fs (r.shift σ) = (thisFindings ctx fs r).map (Finding.shift σ) := by
  unfold thisFindings
  split <;> rfl

theorem superFindings_shift (ctx : Context) (fs : Frames) (r : Reference) :
    superFindings ctx fs (r.shift σ) = (superFindings ctx fs r).map (Finding.shift σ) := by
  unfold superFindings
  split <;> rfl

theorem parameters_shift (fs : Frames) (ps : List Token) :
    parameters fs (ps.map (Token.shift σ)) =
      ((parameters fs ps).1, (parameters fs ps).2.map (Finding.shift σ)) := by
  induction ps generalizing fs with
  | nil => rfl
  | cons p ps ih =>
    rw [List.map_cons]
    unfold parameters
    rw [ih, declarationFaults_shift, Token.shift_lexeme, List.map_append]

theorem returnFaults_shift (ctx : Context) (t : Token) (e : Option Expr) :
    returnFaults ctx (t.shift σ) (e.map (Expr.shift σ)) =
      (returnFaults ctx t e).map (Finding.shift σ) := by
  unfold returnFaults
  rw [Option.isSome_map, List.map_append]
  congr 1 <;> split <;> rfl

theorem superclassFindings_shift (fs : Frames) (x : Token) (r : Option Reference) :
    superclassFindings fs (x.shift σ) (r.map (Reference.shift σ)) =
      (superclassFindings fs x r).map (Finding.shift σ) := by
  cases r with
  | none => rfl
  | some r =>
    rw [Option.map_some, superclassFindings, superclassFindings, List.map_append, read_shift]
    congr 1
    by_cases h : r.name.lexeme = x.lexeme
    · have h' : (r.shift σ).name.lexeme = (x.shift σ).lexeme := h
      rw [if_pos h, if_pos h']
      rfl
    · have h' : (r.shift σ).name.lexeme ≠ (x.shift σ).lexeme := h
      rw [if_neg h, if_neg h']
      rfl

theorem methodBody_shift (f : Function) : methodBody (f.shift σ) = methodBody f := by
  cases f
  rfl

mutual

theorem expr_shift (ctx : Context) (fs : Frames) :
    (e : Expr) → expr ctx fs (e.shift σ) = (expr ctx fs e).map (Finding.shift σ)
  | .literal _ => rfl
  | .grouping e => expr_shift ctx fs e
  | .unary _ e => expr_shift ctx fs e
  | .binary l _ r => by
    rw [Expr.shift, expr, expr, List.map_append, expr_shift ctx fs l, expr_shift ctx fs r]
  | .logical l _ r => by
    rw [Expr.shift, expr, expr, List.map_append, expr_shift ctx fs l, expr_shift ctx fs r]
  | .var r => read_shift σ fs r
  | .assign r e => by
    rw [Expr.shift, expr, expr, List.map_append, expr_shift ctx fs e]
    rfl
  | .call f _ es => by
    rw [Expr.shift, expr, expr, List.map_append, expr_shift ctx fs f, exprs_shift ctx fs es]
  | .get e _ => expr_shift ctx fs e
  | .set e _ v => by
    rw [Expr.shift, expr, expr, List.map_append, expr_shift ctx fs v, expr_shift ctx fs e]
  | .this r => thisFindings_shift σ ctx fs r
  | .super r _ => superFindings_shift σ ctx fs r

theorem exprs_shift (ctx : Context) (fs : Frames) :
    (es : List Expr) → exprs ctx fs (Expr.shiftAll σ es) =
      (exprs ctx fs es).map (Finding.shift σ)
  | [] => rfl
  | e :: es => by
    rw [Expr.shiftAll, exprs, exprs, List.map_append, expr_shift ctx fs e, exprs_shift ctx fs es]

end

theorem optional_shift (ctx : Context) (fs : Frames) (e : Option Expr) :
    optional ctx fs (e.map (Expr.shift σ)) = (optional ctx fs e).map (Finding.shift σ) := by
  cases e with
  | none => rfl
  | some e => exact expr_shift σ ctx fs e

mutual

theorem stmt_shift (ctx : Context) (fs : Frames) :
    (s : Stmt) → stmt ctx fs (s.shift σ) =
      ((stmt ctx fs s).1, (stmt ctx fs s).2.map (Finding.shift σ))
  | .expression e => congrArg (Prod.mk fs) (expr_shift σ ctx fs e)
  | .print e => congrArg (Prod.mk fs) (expr_shift σ ctx fs e)
  | .var x e => by
    simp only [Stmt.shift, stmt, Token.shift_lexeme, declarationFaults_shift, optional_shift,
      List.map_append]
  | .block ss => congrArg (fun r => (fs, r.2)) (stmts_shift ctx ([] :: fs) ss)
  | .if e yes no => by
    simp only [Stmt.shift, stmt, stmt_shift ctx fs yes, optionalStmt_shift ctx _ no, expr_shift,
      List.map_append]
  | .while e s => by
    simp only [Stmt.shift, stmt, stmt_shift ctx fs s, expr_shift, List.map_append]
  | .function f => by
    simp only [Stmt.shift, stmt, Function.shift_name, Token.shift_lexeme, declarationFaults_shift,
      function_shift ctx _ _ f, List.map_append]
  | .return t e => by
    simp only [Stmt.shift, stmt, returnFaults_shift, optional_shift, List.map_append]
  | .class x r ms => by
    have hframes (fs : Frames) : methodFrames fs (r.map (Reference.shift σ)) = methodFrames fs r := by
      cases r <;> rfl
    simp only [Stmt.shift, stmt, Token.shift_lexeme, Option.isSome_map, declarationFaults_shift,
      superclassFindings_shift, hframes, methodsFindings_shift _ _ ms, List.map_append]

theorem stmts_shift (ctx : Context) (fs : Frames) :
    (ss : List Stmt) → stmts ctx fs (Stmt.shiftAll σ ss) =
      ((stmts ctx fs ss).1, (stmts ctx fs ss).2.map (Finding.shift σ))
  | [] => rfl
  | s :: ss => by
    simp only [Stmt.shiftAll, stmts, stmt_shift ctx fs s, stmts_shift ctx _ ss, List.map_append]

theorem optionalStmt_shift (ctx : Context) (fs : Frames) :
    (s : Option Stmt) → optionalStmt ctx fs (Stmt.shiftOption σ s) =
      ((optionalStmt ctx fs s).1, (optionalStmt ctx fs s).2.map (Finding.shift σ))
  | none => rfl
  | some s => stmt_shift ctx fs s

theorem function_shift (ctx : Context) (fs : Frames) (body : Body) :
    (f : Function) → function ctx fs body (f.shift σ) =
      (function ctx fs body f).map (Finding.shift σ)
  | .mk x ps ss => by
    simp only [Function.shift, function, parameters_shift, stmts_shift _ _ ss, List.map_append]

theorem methodsFindings_shift (ctx : Context) (fs : Frames) :
    (ms : List Function) → methodsFindings ctx fs (Function.shiftAll σ ms) =
      (methodsFindings ctx fs ms).map (Finding.shift σ)
  | [] => rfl
  | f :: ms => by
    simp only [Function.shiftAll, methodsFindings, methodBody_shift, function_shift ctx fs _ f,
      methodsFindings_shift ctx fs ms, List.map_append]

end

theorem program_shift (ss : List Stmt) :
    program (Stmt.shiftAll σ ss) = (program ss).map (Finding.shift σ) :=
  congrArg Prod.snd (stmts_shift σ {} [] ss)

theorem faults_shift (found : List Finding) :
    faults (found.map (Finding.shift σ)) = (faults found).map (Diagnostic.shift σ) := by
  unfold faults
  rw [List.filterMap_map, List.map_filterMap]
  congr
  funext g
  cases g <;> rfl

theorem lookups_shift (found : List Finding) :
    lookups (found.map (Finding.shift σ)) =
      (lookups found).map fun p => (p.1.shift σ, p.2) := by
  unfold lookups
  rw [List.filterMap_map, List.map_filterMap]
  congr
  funext g
  cases g <;> rfl

end Findings

section Twins

variable {known : Known} {link : Link} {σ : Shift} {rs : List Renaming} {fs : Frames}

/-- The link allows a known reference to be shifted. -/
structure Link.Allows (link : Link) (old : Known) (σ : Shift) : Prop where
  known (r : Reference) (d : Option Nat) : old r d → link.known r d
  id (r : Reference) (d : Option Nat) : old r d → link.id r.id (r.id + σ.ids)
  line (l : Nat) : link.line l (l + σ.lines)

variable (h : link.Allows known σ)

include h

theorem NameTwin.shift {name : String} {t t' : Token} (ht : NameTwin (.exact known) name t t') :
    NameTwin link name t (t'.shift σ) where
  kind := ht.kind
  lexeme := ht.lexeme
  line := by
    have hline : t'.line = t.line := ht.line
    rw [Token.shift_line, hline]
    exact h.line _

theorem RefTwin.shift {r r' : Reference} (hr : RefTwin (.exact known) rs fs r r') :
    RefTwin link rs fs r (r'.shift σ) where
  id := by
    have hid : r'.id = r.id := hr.id
    rw [Reference.shift_id, hid]
    exact h.id _ _ hr.known
  name := hr.name.shift h
  depth := hr.depth
  known := h.known _ _ hr.known

/-- A twin is shifted as a whole. -/
theorem Twin.shift {c c' : Code} (hc : Twin (.exact known) rs fs c c') :
    Twin link rs fs c (c'.shift σ) := by
  have hkeep {r : Renaming} (hr : r = .keep) : link.renames r := hr ▸ link.keep
  induction hc with
  | literal => exact .literal
  | grouping _ he => exact .grouping he
  | unary ho _ he => exact .unary (ho.shift h) he
  | binary ho _ _ hl hr => exact .binary (ho.shift h) hl hr
  | logical ho _ _ hl hr => exact .logical (ho.shift h) hl hr
  | var hr hd => exact .var (hr.shift h) hd
  | assign hr _ he => exact .assign (hr.shift h) he
  | call hp _ _ hf hes => exact .call (hp.shift h) hf hes
  | get hn _ he => exact .get (hn.shift h) he
  | set hn _ _ he hv => exact .set (hn.shift h) he hv
  | this hr hd => exact .this (hr.shift h) hd
  | super hr hn hd hs hm => exact .super (hr.shift h) hn hd hs (hm.shift h)
  | noExprs => exact .noExprs
  | moreExprs _ _ he hes => exact .moreExprs he hes
  | expression _ he => exact .expression he
  | print _ he => exact .print he
  | bareVar hx => exact .bareVar (hx.shift h)
  | varWith hx _ he => exact .varWith (hx.shift h) he
  | block hr _ hs => exact .block (hkeep hr) hs
  | ifThen _ _ hp he hy => exact .ifThen he hy hp
  | ifElse _ _ hp _ hq he hy hn => exact .ifElse he hy hp hn hq
  | «while» _ _ hp he hb => exact .while he hb hp
  | declared hn _ hf => exact .declared hn hf
  | bareReturn ht => exact .bareReturn (ht.shift h)
  | returnWith ht _ he => exact .returnWith (ht.shift h) he
  | rootClass hn hx _ hm => exact .rootClass hn (hx.shift h) hm
  | subclass hn hx hr hd hne hne' _ hm =>
    exact .subclass hn (hx.shift h) (hr.shift h) hd hne hne' hm
  | noStmts => exact .noStmts
  | moreStmts _ _ hs hss => exact .moreStmts hs hss
  | function hr hx hp _ hs =>
    exact .function (hkeep hr) (hx.shift h)
      (List.forall₂_map_right_iff.2 (hp.imp fun _ _ hp => hp.shift h)) hs
  | noFunctions => exact .noFunctions
  | moreFunctions _ _ hf hgs => exact .moreFunctions hf hgs

end Twins

end Lox.Scoping
