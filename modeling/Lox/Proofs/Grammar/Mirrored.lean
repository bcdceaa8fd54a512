import Lox.Proofs.Grammar.CorrectPrefix
import Lox.Proofs.Grammar.Mirror

/-!
# The grammar by position

Each reader by position mirrors the step for the same part of the grammar. A round of a loop
that goes on has consumed a token, so a bound above the number of tokens left is enough for all
rounds; a statement and the inside of a block take two levels of the depth for each token.
-/

set_option autoImplicit false

namespace Lox.Grammar

open Indexed (Walk)

section Rounds

variable {inner operand : Walk Expr} {n m : Nat}

theorem rounds_argumentRound (args : List Expr) :
    Indexed.rounds (Indexed.argumentRound inner) (n + 1) args = (do
      Indexed.limit .tooManyArguments args.length
      let e ← inner
      if ← Indexed.matching (.mark .comma) then
        Indexed.rounds (Indexed.argumentRound inner) n (args ++ [e])
      else
        return args ++ [e]) := by
  simp only [Indexed.rounds, Indexed.argumentRound, bind_assoc, walk_ite_bind, pure_bind]

theorem rounds_suffixRound (e : Expr) :
    Indexed.rounds (Indexed.suffixRound inner m) (n + 1) e = (do
      if ← Indexed.matching (.mark .leftParen) then
        Indexed.rounds (Indexed.suffixRound inner m) n (← Indexed.finishCall inner m e)
      else if ← Indexed.matching (.mark .dot) then
        Indexed.rounds (Indexed.suffixRound inner m) n (.get e (← Indexed.consume .propertyName))
      else
        return e) := by
  simp only [Indexed.rounds, Indexed.suffixRound, bind_assoc, walk_ite_bind, pure_bind]

theorem rounds_logicalRound (k : Kind) (e : Expr) :
    Indexed.rounds (Indexed.logicalRound k operand) (n + 1) e = (do
      if ← Indexed.matching k then
        let operator ← Indexed.previous
        Indexed.rounds (Indexed.logicalRound k operand) n (.logical e operator (← operand))
      else
        return e) := by
  simp only [Indexed.rounds, Indexed.logicalRound, bind_assoc, walk_ite_bind, pure_bind]

theorem rounds_binaryRound (ks : List Kind) (e : Expr) :
    Indexed.rounds (Indexed.binaryRound ks operand) (n + 1) e = (do
      if ← Indexed.checkAny ks then
        let operator ← Indexed.advance
        Indexed.rounds (Indexed.binaryRound ks operand) n (.binary e operator (← operand))
      else
        return e) := by
  simp only [Indexed.rounds, Indexed.binaryRound, bind_assoc, walk_ite_bind, pure_bind]

theorem rounds_parameterRound (params : List Token) :
    Indexed.rounds Indexed.parameterRound (n + 1) params = (do
      Indexed.limit .tooManyParameters params.length
      let p ← Indexed.consume .parameterName
      if ← Indexed.matching (.mark .comma) then
        Indexed.rounds Indexed.parameterRound n (params ++ [p])
      else
        return params ++ [p]) := by
  simp only [Indexed.rounds, Indexed.parameterRound, bind_assoc, walk_ite_bind, pure_bind]

theorem rounds_synchronizeRound :
    Indexed.rounds Indexed.synchronizeRound (n + 1) () = (do
      if ← Indexed.isAtEnd then return ()
      else if (← Indexed.previous).kind == .mark .semicolon then return ()
      else if startsStatement (← Indexed.peek).kind then return ()
      else
        let _ ← Indexed.advance
        Indexed.rounds Indexed.synchronizeRound n ()) := by
  simp only [Indexed.rounds, Indexed.synchronizeRound, bind_assoc, walk_ite_bind, pure_bind]

variable {block : Walk (List Stmt)} {declaration : Walk (Option Stmt)}

theorem rounds_methodRound (methods : List Function) :
    Indexed.rounds (Indexed.methodRound block m) (n + 1) methods = (do
      if ← Indexed.atClose then
        return methods
      else
        let f ← Indexed.routine .method block m
        Indexed.rounds (Indexed.methodRound block m) n (methods ++ [f])) := by
  simp only [Indexed.rounds, Indexed.methodRound, bind_assoc, walk_ite_bind, pure_bind]

theorem rounds_blockRound (stmts : List Stmt) :
    Indexed.rounds (Indexed.blockRound declaration) (n + 1) stmts = (do
      if ← Indexed.atClose then
        return stmts
      else
        let s ← declaration
        Indexed.rounds (Indexed.blockRound declaration) n (stmts ++ s.toList)) := by
  simp only [Indexed.rounds, Indexed.blockRound, bind_assoc, walk_ite_bind, pure_bind]

theorem rounds_programRound (stmts : List Stmt) :
    Indexed.rounds (Indexed.programRound m) (n + 1) stmts = (do
      if ← Indexed.isAtEnd then
        return stmts
      else
        let s ← Indexed.declaration m
        Indexed.rounds (Indexed.programRound m) n (stmts ++ s.toList)) := by
  simp only [Indexed.rounds, Indexed.programRound, bind_assoc, walk_ite_bind, pure_bind]

end Rounds

namespace MirrorsBy

section Expressions

variable {b m n : Nat} {wi wp : Walk Expr} {inner p : Step Expr}

theorem naming {t : Token} (f : Reference → Expr) :
    MirrorsBehind t id b (do return f (← Indexed.reference (← Indexed.previous)))
      (do return f (← Grammar.reference t)) := by
  refine previous ?_
  exact (reference t).bind fun r => pure (h := id) (f r)

theorem superAccess {t : Token} :
    MirrorsBehind t id b Indexed.superAccess (Grammar.superAccess t) := by
  refine previous ?_
  refine (consume .dotAfterSuper).bind fun _ => ?_
  refine (consume .superMethodName).bind fun method => ?_
  exact (reference t).bind fun r => pure (h := id) (Expr.super r method)

theorem group (hinner : Mirrors b wi inner) :
    Mirrors b (Indexed.group wi) (Grammar.group inner) :=
  hinner.bind fun e => (consume .closeGroup).bind fun _ => pure (h := id) (Expr.grouping e)

theorem primary (hinner : ∀ b', b = b' + 1 → Mirrors b' wi inner) :
    Mirrors b (Indexed.primary wi) (Grammar.primary inner) := by
  intro done after c hc hlen
  obtain ⟨rest, finish, i, reports⟩ := c
  cases rest with
  | nil =>
    have hf : finish.kind = .finish := hc.finish
    simp only [Indexed.primary, ite_matching_nil hc, peek_bind_indexed, Cursor.peek,
      List.headD_nil, hf, failing_indexed]
    exact .stop _
  | cons t ts =>
    obtain ⟨b', rfl⟩ : ∃ b', b = b' + 1 := ⟨b - 1, by simp at hlen; omega⟩
    have hnext {w : Walk Expr} {q : Step Expr} (hw : MirrorsBehind t id b' w q) :
        Echoes id done after ⟨t :: ts, finish, i, reports⟩
          (w (Cursor.indexed ⟨ts, finish, i, reports⟩ (done ++ [t]) after))
          (q ⟨ts, finish, i, reports⟩) :=
      .behindNext rfl (hw done after _ (hc.next rfl) (by simpa using hlen))
    have hvalue (v : Literal) := hnext ((pure (h := id) (Expr.literal v)).behind t)
    unfold Grammar.primary primaryOf
    simp only [Indexed.primary, ite_matching_cons hc, peek_bind_indexed, Cursor.peek,
      List.headD_cons]
    cases hk : t.kind with
    | finish => exact absurd hk (hc.rest t List.mem_cons_self)
    | number x =>
      simp only [walk_bind, advance_indexed hc, reduceCtorEq, if_false]
      exact hvalue _
    | string x =>
      simp only [walk_bind, advance_indexed hc, reduceCtorEq, if_false]
      exact hvalue _
    | identifier =>
      simp only [ite_matching_cons hc, hk, reduceCtorEq, if_false, if_true]
      exact hnext (naming Expr.var)
    | mark k =>
      cases k with
      | leftParen =>
        simp only [ite_matching_cons hc, hk, reduceCtorEq, if_false, if_true]
        exact hnext ((group (hinner b' rfl)).behind t)
      | _ =>
        simp only [ite_matching_cons hc, hk, reduceCtorEq, Kind.mark.injEq, if_false, failing_indexed]
        exact .stop _
    | word k =>
      cases k with
      | «false» | «true» | nil =>
        simp only [Kind.word.injEq, reduceCtorEq, if_false, if_true]
        exact hvalue _
      | super =>
        simp only [ite_matching_cons hc, hk, Kind.word.injEq, reduceCtorEq, if_false, if_true]
        exact hnext superAccess
      | this =>
        simp only [ite_matching_cons hc, hk, Kind.word.injEq, reduceCtorEq, if_false, if_true]
        exact hnext (naming Expr.this)
      | _ =>
        simp only [ite_matching_cons hc, hk, Kind.word.injEq, reduceCtorEq, if_false, failing_indexed]
        exact .stop _

theorem arguments (hinner : Mirrors b wi inner) (hn : b ≤ n) (hm : b < m) (args : List Expr) :
    MirrorsBy (args ++ ·) b (Indexed.rounds (Indexed.argumentRound wi) m args)
      (argumentsFrom inner n args.length) := by
  induction m generalizing b n args with
  | zero => cases hm
  | succ m ih =>
    rw [rounds_argumentRound]
    cases n with
    | zero =>
      obtain rfl := Nat.le_zero.1 hn
      refine (limit .tooManyArguments args.length).bind fun _ => hinner.bind fun e => ?_
      exact noneLeft (takes_matching _).failsAtEnd (pure [e])
    | succ n =>
      refine (limit .tooManyArguments args.length).bind fun _ => hinner.bind fun e => ?_
      refine accepting (fun b' hb => ?_) (pure [e])
      have hmore := ih (b := b') (n := n) (hinner.mono (by omega)) (by omega) (by omega) (args ++ [e])
      rw [List.length_append] at hmore
      exact hmore.mapped fun es => (List.append_cons args e es)

theorem callArguments (hinner : Mirrors b wi inner) (hn : b ≤ n) (hm : b < m) (e : Expr) :
    Mirrors b (Indexed.finishCall wi m e)
      (Grammar.callArguments inner n >>= fun a => Pure.pure (.call e a.2 a.1)) := by
  rw [callArguments_eq]
  simp only [bind_assoc, pure_bind]
  have hargs : Mirrors b (Indexed.arguments wi m)
      (do if ← nextIs (.mark .rightParen) then Pure.pure [] else argumentsFrom inner n 0) :=
    ifNext (pure (h := id) []) (arguments hinner hn hm [])
  exact hargs.bind fun args => (consume .closeArguments).bind fun paren =>
    pure (h := id) (Expr.call e paren args)

theorem suffixes {k : Nat} (hinner : ∀ b', b = b' + 1 → Mirrors b' wi inner) (hn : b ≤ n)
    (hm : b < m) (hk : b ≤ k) (e : Expr) :
    Mirrors b (Indexed.rounds (Indexed.suffixRound wi k) m e) (Grammar.suffixes inner n e) := by
  induction m generalizing b n e with
  | zero => cases hm
  | succ m ih =>
    rw [rounds_suffixRound]
    cases n with
    | zero =>
      obtain rfl := Nat.le_zero.1 hn
      exact noneLeft (takes_matching _).failsAtEnd (noneLeft (takes_matching _).failsAtEnd (pure (h := id) e))
    | succ n =>
      have hmore (b' : Nat) (hb : b = b' + 1) (e : Expr) :
          Mirrors b' (Indexed.rounds (Indexed.suffixRound wi k) m e) (Grammar.suffixes inner n e) :=
        ih (fun b'' hb' => (hinner b' hb).mono (by omega)) (by omega) (by omega) (by omega) e
      refine accepting (fun b' hb => ?_) (accepting (fun b' hb => ?_) (pure (h := id) e))
      · have hcall := callArguments (n := n) (m := k) (hinner b' hb) (by omega) (by omega) e
        have hall := hcall.bind (hmore b' hb)
        simpa only [bind_assoc, pure_bind] using hall
      · exact (consume .propertyName).bind fun name => hmore b' hb (.get e name)

theorem call {k : Nat} (hinner : ∀ b', b = b' + 1 → Mirrors b' wi inner) (hn : b ≤ n) (hk : b < k) :
    Mirrors b (Indexed.call wi k) (Grammar.call inner n) :=
  (primary hinner).bind fun e => suffixes hinner hn hk hk.le e

/-- An operand behind its operators, each of which has a bound of its own. -/
theorem unaryFrom {k l : Nat} (hinner : ∀ b', b = b' + 1 → Mirrors b' wi inner) (hn : b ≤ n)
    (hm : b < m) (hl : b ≤ l) (hk : b < k) :
    Mirrors b (Indexed.unary wi k m) (do
      let ops ← unaryOperators n
      let e ← Grammar.call inner l
      return ops.foldr Expr.unary e) := by
  induction m generalizing b n with
  | zero => cases hm
  | succ m ih =>
    have hcall : Mirrors b (Indexed.call wi k) (Grammar.call inner l) := call hinner hl hk
    cases n with
    | zero =>
      obtain rfl := Nat.le_zero.1 hn
      simp only [unaryOperators, pure_bind, List.foldr_nil, bind_pure]
      exact noneLeft takes_unaryOperator.failsAtEnd hcall
    | succ n =>
      have hstep : (do
          let ops ← unaryOperators (n + 1)
          let e ← Grammar.call inner l
          return ops.foldr Expr.unary e) = acceptIf isUnaryOperator >>= fun o =>
            o.elim (Grammar.call inner l) fun t => (do
              let ops ← unaryOperators n
              let e ← Grammar.call inner l
              return ops.foldr Expr.unary e) >>= fun e => Pure.pure (.unary t e) := by
        rw [unaryOperators, bind_assoc]
        congr
        funext o
        cases o <;> simp
      rw [hstep]
      refine taking takes_unaryOperator (fun t b' hb => previous ?_) hcall
      exact (ih (fun b'' hb' => (hinner b' hb).mono (by omega)) (by omega) (by omega) (by omega)
        (by omega)).bind fun e => pure (h := id) (Expr.unary t e)

theorem unary (hinner : ∀ b', b = b' + 1 → Mirrors b' wi inner) (hn : b ≤ n) (hm : b < m) :
    Mirrors b (Indexed.unary wi m m) (Grammar.unary inner n) :=
  unaryFrom hinner hn hm hn hm

theorem logicalOperands {k : Kind} (hp : ∀ b', b = b' + 1 → Mirrors b' wp p) (hn : b ≤ n)
    (hm : b < m) (e : Expr) :
    Mirrors b (Indexed.rounds (Indexed.logicalRound k wp) m e)
      (leftChain (· == k) .logical p n e) := by
  induction m generalizing b n e with
  | zero => cases hm
  | succ m ih =>
    rw [rounds_logicalRound]
    cases n with
    | zero =>
      obtain rfl := Nat.le_zero.1 hn
      exact noneLeft (takes_matching k).failsAtEnd (pure (h := id) e)
    | succ n =>
      refine taking (takes_matching k) (fun t b' hb => previous ?_) (pure (h := id) e)
      exact (hp b' hb).bind fun r => ih (fun b'' hb' => (hp b' hb).mono (by omega)) (by omega)
        (by omega) (.logical e t r)

theorem binaryOperands {ks : List Kind} {s : Kind → Bool} (hs : ∀ k, s k = true ↔ k ∈ ks)
    (hp : ∀ b', b = b' + 1 → Mirrors b' wp p) (hn : b ≤ n) (hm : b < m) (e : Expr) :
    Mirrors b (Indexed.rounds (Indexed.binaryRound ks wp) m e)
      (leftChain s .binary p n e) := by
  induction m generalizing b n e with
  | zero => cases hm
  | succ m ih =>
    rw [rounds_binaryRound]
    cases n with
    | zero =>
      obtain rfl := Nat.le_zero.1 hn
      exact noneLeft (failsAtEnd_checkAny ks) (pure (h := id) e)
    | succ n =>
      refine takingAny hs (fun t b' hb => ?_) (pure (h := id) e)
      exact (hp b' hb).bind fun r => ih (fun b'' hb' => (hp b' hb).mono (by omega)) (by omega)
        (by omega) (.binary e t r)

theorem chain {c : Chain} (hp : Mirrors b wp p) (hn : b ≤ n) (hm : b < m) :
    Mirrors b (Indexed.chain c wp m) (level c.operator c.join p n) := by
  have hless (b' : Nat) (hb : b = b' + 1) : Mirrors b' wp p := hp.mono (by omega)
  refine hp.bind fun e => ?_
  cases c with
  | or | and => exact logicalOperands hless hn hm e
  | _ => exact binaryOperands (fun k => Chain.operator_iff) hless hn hm e

theorem logicOr (hinner : ∀ b', b = b' + 1 → Mirrors b' wi inner) (hn : b ≤ n) (hm : b < m) :
    Mirrors b (Indexed.logicOr wi m) (Grammar.logicOr inner n) := by
  have hfactor := (unary hinner hn hm).chain (c := .factor) hn hm
  have hterm := hfactor.chain (c := .term) hn hm
  have hcomparison := hterm.chain (c := .comparison) hn hm
  have hequality := hcomparison.chain (c := .equality) hn hm
  exact (hequality.chain (c := .and) hn hm).chain (c := .or) hn hm

theorem assignTo (target : Expr) (equals : Token) (value : Expr) :
    Mirrors b (Indexed.assignTo target equals value) (Grammar.assignTo target equals value) := by
  cases target with
  | var r => exact (reference r.name).bind fun r => pure (h := id) (Expr.assign r value)
  | get object name => exact pure (h := id) (Expr.set object name value)
  | _ => exact (report (fault .invalidTarget equals)).bind fun _ => pure (h := id) _

theorem assignment (hinner : ∀ b', b = b' + 1 → Mirrors b' wi inner) (hn : b ≤ n) (hm : b < m) :
    Mirrors b (Indexed.assignment wi m) (Grammar.assignment inner n) := by
  refine (logicOr hinner hn hm).bind fun target => ?_
  refine taking (takes_matching _) (fun t b' hb => previous ?_) (pure (h := id) target)
  exact (hinner b' hb).bind fun value => assignTo target t value

theorem expression (hn : b ≤ n) (hm : b < m) :
    Mirrors b (Indexed.expression m) (Grammar.expression n) := by
  induction m generalizing b n with
  | zero => cases hm
  | succ m ih =>
    have hsucc {n : Nat} (hn : b ≤ n + 1) :
        Mirrors b (Indexed.expression (m + 1)) (Grammar.expression (n + 1)) :=
      assignment (fun b' hb => ih (by omega) (by omega)) hn hm
    cases n with
    | succ n => exact hsucc hn
    | zero =>
      refine (hsucc (n := 0) (by omega)).congr fun c hc => ?_
      have hnil : c.rest = [] := List.length_eq_zero_iff.1 (by omega)
      rw [expression_nil hnil, expression_nil hnil]

end Expressions

section Statements

variable {b m n : Nat} {wbody : Walk (List Stmt)} {body : Step (List Stmt)} {we : Walk Expr}
  {expr : Step Expr} {ws : Walk Stmt} {inner : Step Stmt}

theorem parametersFrom (hn : b ≤ n) (hm : b < m) (params : List Token) :
    MirrorsBy (params ++ ·) b (Indexed.rounds Indexed.parameterRound m params)
      (Grammar.parametersFrom n params.length) := by
  induction m generalizing b n params with
  | zero => cases hm
  | succ m ih =>
    rw [rounds_parameterRound]
    cases n with
    | zero =>
      obtain rfl := Nat.le_zero.1 hn
      refine (limit .tooManyParameters params.length).bind fun _ => ?_
      refine (consume .parameterName).bind fun p => ?_
      exact noneLeft (takes_matching _).failsAtEnd (pure [p])
    | succ n =>
      refine (limit .tooManyParameters params.length).bind fun _ => ?_
      refine (consume .parameterName).bind fun p => ?_
      refine accepting (fun b' hb => ?_) (pure [p])
      have hmore := ih (b := b') (n := n) (by omega) (by omega) (params ++ [p])
      rw [List.length_append] at hmore
      exact hmore.mapped fun ps => (List.append_cons params p ps)

theorem parameters (hn : b ≤ n) (hm : b < m) :
    Mirrors b (Indexed.parameters m)
      (do if ← nextIs (.mark .rightParen) then Pure.pure [] else Grammar.parametersFrom n 0) :=
  ifNext (pure (h := id) []) (parametersFrom hn hm [])

/-- A routine leaves a token fewer for what follows. -/
theorem routineThen {α β : Type} {h : β → α} (r : Routine) {f : Function → Walk α}
    {g : Function → Step β} (hbody : ∀ b', b = b' + 1 → Mirrors b' wbody (closedBy body))
    (hn : b ≤ n + 1) (hm : b < m) (hf : ∀ fn b', b = b' + 1 → MirrorsBy h b' (f fn) (g fn)) :
    MirrorsBy h b (Indexed.routine r wbody m >>= f) (Grammar.routine r body n >>= g) := by
  rw [routine_eq]
  simp only [Indexed.routine, bind_assoc, pure_bind]
  refine consuming fun name b' hb => (consume (.openParameters r)).bind fun _ => ?_
  refine (parameters (n := n) (m := m) (by omega) (by omega)).bind fun params => ?_
  refine (consume .closeParameters).bind fun _ => (consume (.openBody r)).bind fun _ => ?_
  exact (hbody b' hb).bind fun ss => hf (.mk name params ss) b' hb

theorem methods {k : Nat} (hbody : ∀ b', b = b' + 1 → Mirrors b' wbody (closedBy body))
    (hn : b ≤ n) (hm : b < m) (hk : b < k) (ms : List Function) :
    MirrorsBy (ms ++ ·) b (Indexed.rounds (Indexed.methodRound wbody k) m ms)
      (Grammar.methods body n) := by
  induction m generalizing b n ms with
  | zero => cases hm
  | succ m ih =>
    rw [rounds_methodRound]
    have hdone {b : Nat} : MirrorsBy (ms ++ ·) b (Pure.pure ms) (Pure.pure []) := by
      simpa using pure (h := (ms ++ ·)) (b := b) []
    cases n with
    | zero =>
      obtain rfl := Nat.le_zero.1 hn
      exact atClose_zero hdone
    | succ n =>
      refine atClose hdone (.of_mirrors (routineThen .method hbody hn hk fun f b' hb => ?_))
      have hmore := ih (b := b') (n := n) (fun b'' hb' => (hbody b' hb).mono (by omega)) (by omega)
        (by omega) (by omega) (ms ++ [f])
      exact hmore.mapped fun fs => (List.append_cons ms f fs)

theorem superclass : Mirrors b Indexed.superclass Grammar.superclass := by
  refine accepting (fun b' hb => ?_) (pure (h := id) none)
  refine (consume .superclassName).bind fun name => ?_
  exact (reference name).bind fun r => pure (h := id) (some r)

theorem classDeclaration (hbody : ∀ b', b = b' + 1 → Mirrors b' wbody (closedBy body))
    (hn : b ≤ n) (hm : b < m) :
    Mirrors b (Indexed.classDeclaration wbody m) (Grammar.classDeclaration body n) := by
  refine (consume .className).bind fun name => superclass.bind fun parent => ?_
  refine (consume .openClass).bind fun _ => (methods hbody hn hm hm []).bind fun ms => ?_
  exact (consume .closeClass).bind fun _ => pure (h := id) (Stmt.class name parent ms)

theorem varDeclaration (hexpr : Mirrors b we expr) :
    Mirrors b (Indexed.varDeclaration we) (Grammar.varDeclaration expr) := by
  rw [varDeclaration_eq]
  refine (consume .variableName).bind fun name => ?_
  have hvalue : Mirrors b (Indexed.initialValue we)
      (do if ← accept (.mark .equal) then some <$> expr else Pure.pure none) := by
    simp only [map_eq_pure_bind]
    exact accepting (fun b' hb => (hexpr.mono (by omega)).bind fun e => pure (h := id) (some e))
      (pure (h := id) none)
  refine hvalue.bind fun value => ?_
  exact (consume .endOfVariable).bind fun _ => pure (h := id) (Stmt.var name value)

theorem expressionStatement (hexpr : Mirrors b we expr) :
    Mirrors b (Indexed.expressionStatement we) (Grammar.expressionStatement expr) :=
  hexpr.bind fun e => (consume .endOfExpression).bind fun _ => pure (h := id) (Stmt.expression e)

theorem printStatement (hexpr : Mirrors b we expr) :
    Mirrors b (Indexed.printStatement we) (Grammar.printStatement expr) :=
  hexpr.bind fun e => (consume .endOfPrint).bind fun _ => pure (h := id) (Stmt.print e)

theorem unlessNext (k : Kind) (hexpr : Mirrors b we expr) :
    Mirrors b (Indexed.unlessNext k we) (Grammar.unlessNext k expr) :=
  ifNext (pure (h := id) none) (hexpr.bind fun e => pure (h := id) (some e))

theorem returnStatement {t : Token} (hexpr : Mirrors b we expr) :
    MirrorsBehind t id b (Indexed.returnStatement we) (Grammar.returnStatement t expr) := by
  refine previous ((unlessNext (.mark .semicolon) hexpr).bind fun value => ?_)
  exact (consume .endOfReturn).bind fun _ => pure (h := id) (Stmt.return t value)

theorem ifStatement (hexpr : Mirrors b we expr) (hinner : Mirrors b ws inner) :
    Mirrors b (Indexed.ifStatement we ws) (Grammar.ifStatement expr inner) := by
  rw [ifStatement_eq]
  have helse : Mirrors b (Indexed.elseBranch ws)
      (do if ← accept (.word .else) then some <$> inner else Pure.pure none) := by
    simp only [map_eq_pure_bind]
    exact accepting (fun b' hb => (hinner.mono (by omega)).bind fun s => pure (h := id) (some s))
      (pure (h := id) none)
  refine (consume .openIf).bind fun _ => hexpr.bind fun condition => ?_
  refine (consume .closeIf).bind fun _ => hinner.bind fun yes => helse.bind fun no => ?_
  exact pure (h := id) (Stmt.if condition yes no)

theorem whileStatement (hexpr : Mirrors b we expr) (hinner : Mirrors b ws inner) :
    Mirrors b (Indexed.whileStatement we ws) (Grammar.whileStatement expr inner) := by
  refine (consume .openWhile).bind fun _ => hexpr.bind fun condition => ?_
  refine (consume .closeWhile).bind fun _ => hinner.bind fun s => ?_
  exact pure (h := id) (Stmt.while condition s)

theorem forInitializer (hexpr : Mirrors b we expr) :
    Mirrors b (Indexed.forInitializer we) (Grammar.forInitializer expr) := by
  unfold Grammar.forInitializer
  simp only [map_eq_pure_bind]
  refine accepting (fun _ _ => pure (h := id) none) (accepting (fun b' hb => ?_) ?_)
  · exact (varDeclaration (hexpr.mono (by omega))).bind fun s => pure (h := id) (some s)
  · exact (expressionStatement hexpr).bind fun s => pure (h := id) (some s)

theorem forStatement (hexpr : Mirrors b we expr) (hinner : Mirrors b ws inner) :
    Mirrors b (Indexed.forStatement we ws) (Grammar.forStatement expr inner) := by
  refine (consume .openFor).bind fun _ => (forInitializer hexpr).bind fun initializer => ?_
  refine (unlessNext (.mark .semicolon) hexpr).bind fun condition => ?_
  refine (consume .endOfCondition).bind fun _ => ?_
  refine (unlessNext (.mark .rightParen) hexpr).bind fun increment => ?_
  refine (consume .closeFor).bind fun _ => hinner.bind fun s => ?_
  exact pure (h := id) (forLoop initializer condition increment s)

theorem statementWith (hexpr : Mirrors b we expr) (hinner : ∀ b', b = b' + 1 → Mirrors b' ws inner)
    (hbody : ∀ b', b = b' + 1 → Mirrors b' wbody (closedBy body)) :
    Mirrors b (Indexed.statementWith we ws wbody) (Grammar.statementWith expr inner body) := by
  have hless {b' : Nat} (hb : b = b' + 1) : Mirrors b' we expr := hexpr.mono (by omega)
  refine accepting (fun b' hb => forStatement (hless hb) (hinner b' hb)) ?_
  refine accepting (fun b' hb => ifStatement (hless hb) (hinner b' hb)) ?_
  refine accepting (fun b' hb => printStatement (hless hb)) ?_
  refine taking (takes_matching _) (fun t b' hb => returnStatement (hless hb)) ?_
  refine accepting (fun b' hb => whileStatement (hless hb) (hinner b' hb)) ?_
  refine accepting (fun b' hb => ?_) (expressionStatement hexpr)
  exact (hbody b' hb).bind fun ss => pure (h := id) (Stmt.block ss)

theorem routine (r : Routine) (hbody : ∀ b', b = b' + 1 → Mirrors b' wbody (closedBy body))
    (hn : b ≤ n + 1) (hm : b < m) :
    Mirrors b (Indexed.routine r wbody m) (Grammar.routine r body n) := by
  simpa using routineThen (f := Pure.pure) (g := Pure.pure) r hbody hn hm
    fun fn _ _ => pure (h := id) fn

/-- Passing over tokens by position comes to the same boundary. -/
theorem synchronizing {t : Token} (hm : b < m) :
    MirrorsBehind t id b (Indexed.rounds Indexed.synchronizeRound m ())
      (fun c => .ok () { c with rest := boundary t c.rest }) := by
  induction m generalizing b t with
  | zero => cases hm
  | succ m ih =>
    intro done after c hc hlen
    obtain ⟨rest, finish, i, reports⟩ := c
    rw [rounds_synchronizeRound, walk_bind, isAtEnd_indexed hc]
    cases rest with
    | nil => exact .here i reports
    | cons u us =>
      simp only [List.isEmpty_cons, Bool.false_eq_true, ↓reduceIte, walk_bind, previous_indexed,
        boundary]
      cases hsemi : t.kind == .mark .semicolon with
      | true => exact .here i reports
      | false =>
        simp only [Bool.false_eq_true, ↓reduceIte, walk_bind, peek_indexed, Cursor.peek,
          List.headD_cons, Bool.false_or]
        cases hstarts : startsStatement u.kind with
        | true => exact .here i reports
        | false =>
          simp only [Bool.false_eq_true, ↓reduceIte, walk_bind, advance_indexed hc]
          have hmore := ih (b := us.length) (t := u) (by simp at hlen; omega) (done ++ [t]) after
            ⟨us, finish, i, reports⟩ (hc.next rfl) le_rfl
          exact .behindNext rfl hmore

/-- Where the next token is passed over, or another one has been consumed, reading by position
goes on at the same boundary. -/
theorem synchronize {c : Cursor} {done : List Token} {after : Tail} (hc : c.Ended) (hm : c.rest.length < m)
    (hdone : c.rest = [] → done ≠ []) :
    Echoes id done after c (Indexed.synchronize m (c.indexed done after)) (Grammar.synchronize c) := by
  obtain ⟨rest, finish, i, reports⟩ := c
  cases rest with
  | nil =>
    obtain ⟨ts, t, rfl⟩ := (List.eq_nil_or_concat done).resolve_left (hdone rfl)
    rw [List.concat_eq_append, Indexed.synchronize, walk_bind, Indexed.advance, walk_bind,
      isAtEnd_indexed hc]
    simp only [List.isEmpty_nil, ↓reduceIte, previous_indexed]
    exact synchronizing hm ts after _ hc le_rfl
  | cons t ts =>
    rw [Indexed.synchronize, walk_bind, advance_indexed hc]
    exact .behindNext rfl (synchronizing (b := ts.length) (by simp at hm; omega) done after
      ⟨ts, finish, i, reports⟩ (hc.next rfl) le_rfl)

/-- A fault is reported, and reading goes on where the step goes on. -/
theorem recovering (hp : Mirrors b ws inner) (hm : b < m) :
    MirrorsSome id b (Indexed.recovering m ws) (Grammar.recovering inner) := by
  intro done after c hc hlen hne
  have hpc := hp done after c hc hlen
  rw [recovering_apply]
  unfold Indexed.recovering
  revert hpc
  generalize ws _ = r, inner c = r'
  rintro (@⟨s, taken, c', hr, hf⟩ | @⟨d, taken, c', hr, hf⟩)
  · exact .ok hr hf
  · have hle : c'.rest.length ≤ c.rest.length := by simp [hr]
    have hsome : c'.rest = [] → done ++ taken ≠ [] := by
      intro hnil
      rw [hnil, List.append_nil] at hr
      simp [← hr, hne]
    have hpass : Grammar.synchronize { c' with reports := c'.reports.push d } =
        .ok () (c'.passOver d) := by
      obtain ⟨rest, finish, i, reports⟩ := c'
      cases rest <;> rfl
    have hended : Cursor.Ended { c' with reports := c'.reports.push d } :=
      ⟨(hc.later hr hf).rest, (hc.later hr hf).finish⟩
    have hsync : Echoes id (done ++ taken) after { c' with reports := c'.reports.push d }
        (Indexed.synchronize m (Cursor.indexed { c' with reports := c'.reports.push d }
          (done ++ taken) after)) (Grammar.synchronize { c' with reports := c'.reports.push d }) :=
      synchronize hended ((hle.trans hlen).trans_lt hm) hsome
    rw [hpass] at hsync
    show Echoes id done after c ((Indexed.synchronize m >>= fun _ => Pure.pure none)
      (Cursor.indexed { c' with reports := c'.reports.push d } (done ++ taken) after)) _
    rw [walk_bind]
    refine .behind (by exact hr) (by exact hf) ?_
    revert hsync
    generalize Indexed.synchronize m _ = r
    rintro ⟨hr', hf'⟩
    exact .ok hr' hf'

theorem declaring (hexpr : Mirrors b (Indexed.expression m) (Grammar.expression n))
    (hbody : ∀ b', b = b' + 1 → Mirrors b' wbody (closedBy body))
    (hstatement : Mirrors b ws (Grammar.statementWith (Grammar.expression n) inner body))
    (hn : b ≤ n) (hm : b < m) :
    MirrorsSome id b (Indexed.declarationWith m ws wbody) (declarationWith n inner body) := by
  rw [declarationWith_eq]
  refine recovering ?_ hm
  unfold Grammar.declaring
  simp only [map_eq_pure_bind]
  have hbody' {b' : Nat} (hb : b = b' + 1) (b'' : Nat) (hb' : b' = b'' + 1) :
      Mirrors b'' wbody (closedBy body) := (hbody b' hb).mono (by omega)
  refine accepting (fun b' hb => classDeclaration (hbody' hb) (by omega) (by omega)) ?_
  refine accepting (fun b' hb => ?_) (accepting (fun b' hb => ?_) hstatement)
  · exact (routine .function (hbody' hb) (by omega) (by omega)).bind fun f =>
      pure (h := id) (Stmt.function f)
  · exact varDeclaration (hexpr.mono (by omega))

/-- The declarations of a block, if one of them is mirrored. -/
theorem declarations {declaration : Walk (Option Stmt)}
    (hdecl : ∀ b' n, b' ≤ b → b' ≤ n + 1 → MirrorsSome id b' declaration
      (declarationWith (n + 1) (Grammar.statement n) (Grammar.declarations n)))
    (hn : b ≤ n) (hm : b < m) (ss : List Stmt) :
    MirrorsBy (ss ++ ·) b (Indexed.rounds (Indexed.blockRound declaration) m ss)
      (Grammar.declarations n) := by
  induction m generalizing b n ss with
  | zero => cases hm
  | succ m ih =>
    rw [rounds_blockRound]
    have hdone {b : Nat} : MirrorsBy (ss ++ ·) b (Pure.pure ss) (Pure.pure []) := by
      simpa using pure (h := (ss ++ ·)) (b := b) []
    cases n with
    | zero =>
      obtain rfl := Nat.le_zero.1 hn
      exact atClose_zero hdone
    | succ n =>
      rw [Grammar.declarations]
      refine atClose hdone ((hdecl b n le_rfl hn).bind
        (fun hne hlen ho => length_of_declaration hne (hlen.trans hn) ho) fun s b' hb => ?_)
      have hmore := ih (b := b') (n := n) (fun b'' k hb' => hdecl b'' k (by omega)) (by omega)
        (by omega) (ss ++ s.toList)
      exact hmore.mapped fun ss' => (List.append_assoc ss s.toList ss').symm

theorem statement_block (m : Nat) : ∀ {b n : Nat}, b ≤ n →
    (2 * b < m → Mirrors b (Indexed.statement m) (Grammar.statement n)) ∧
      (2 * b + 1 < m → Mirrors b (Indexed.block m) (closedBy (Grammar.declarations n))) := by
  induction m with
  | zero => exact fun _ => ⟨nofun, nofun⟩
  | succ m ih =>
    have hsucc {b n : Nat} (hn : b ≤ n + 1) (hm : 2 * b < m + 1) :
        Mirrors b (Indexed.statement (m + 1)) (Grammar.statement (n + 1)) :=
      statementWith (expression hn (by omega))
        (fun b' hb => (ih (by omega)).1 (by omega)) (fun b' hb => (ih (by omega)).2 (by omega))
    intro b n hn
    refine ⟨fun hm => ?_, fun hm => ?_⟩
    · cases n with
      | succ n => exact hsucc hn hm
      | zero =>
        refine (hsucc (n := 0) (by omega) hm).congr fun c hc => ?_
        have hnil : c.rest = [] := List.length_eq_zero_iff.1 (by omega)
        rw [statement_nil hnil, statement_nil hnil]
    · have hdecl (b' k : Nat) (hb' : b' ≤ b) (hk : b' ≤ k + 1) :
          MirrorsSome id b' (Indexed.declarationWith m (Indexed.statement m) (Indexed.block m))
            (declarationWith (k + 1) (Grammar.statement k) (Grammar.declarations k)) :=
        declaring (expression hk (by omega)) (fun b'' hb => (ih (by omega)).2 (by omega))
          ((ih hk).1 (by omega)) hk (by omega)
      refine (declarations hdecl hn (by omega) []).bind fun ss => ?_
      exact (consume .closeBlock).bind fun _ => pure (h := id) ss

theorem declaration (hn : b ≤ n + 1) (hm : 2 * b < m) :
    MirrorsSome id b (Indexed.declaration m)
      (declarationWith (n + 1) (Grammar.statement n) (Grammar.declarations n)) :=
  declaring (expression hn (by omega)) (fun b' hb => (statement_block m (by omega)).2 (by omega))
    ((statement_block m hn).1 hm) hn (by omega)

theorem topLevel {k : Nat} (hn : b ≤ n) (hm : b < m) (hk : 2 * b < k) (ss : List Stmt) :
    MirrorsBy (ss ++ ·) b (Indexed.rounds (Indexed.programRound k) m ss) (Grammar.topLevel n) := by
  induction m generalizing b n ss with
  | zero => cases hm
  | succ m ih =>
    rw [rounds_programRound]
    have hdone {b : Nat} : MirrorsBy (ss ++ ·) b (Pure.pure ss) (Pure.pure []) := by
      simpa using pure (h := (ss ++ ·)) (b := b) []
    cases n with
    | zero =>
      obtain rfl := Nat.le_zero.1 hn
      exact atEnd_zero hdone
    | succ n =>
      rw [Grammar.topLevel]
      refine atEnd hdone ((declaration hn hk).bind
        (fun hne hlen ho => length_of_declaration hne (hlen.trans hn) ho) fun s b' hb => ?_)
      have hmore := ih (b := b') (n := n) (by omega) (by omega) (by omega) (ss ++ s.toList)
      exact hmore.mapped fun ss' => (List.append_assoc ss s.toList ss').symm

theorem program (hn : b ≤ n) (hm : 2 * b < m) : Mirrors b (Indexed.program m) (Grammar.topLevel n) :=
  topLevel hn (by omega) hm []

theorem wholeExpression (hn : b ≤ n) (hm : b < m) :
    Mirrors b (Indexed.wholeExpression m) (Grammar.wholeExpression n) := by
  refine (expression hn hm).bind fun e => ?_
  exact atEnd (pure (h := id) e) (.of_mirrors (fail .leftover))

end Statements

end MirrorsBy

/-- With every bound that suffices, the same is read. -/
theorem topLevel_eq {c : Cursor} {i j : Nat} (hc : c.Ended) (hi : c.rest.length ≤ i)
    (hj : c.rest.length ≤ j) : topLevel i c = topLevel j c :=
  ((MirrorsBy.program hi (Nat.lt_succ_self _)) [] ⟨[], 0⟩ c hc (Nat.le_refl _)).unique
    ((MirrorsBy.program hj (Nat.lt_succ_self _)) [] ⟨[], 0⟩ c hc (Nat.le_refl _))

end Lox.Grammar
