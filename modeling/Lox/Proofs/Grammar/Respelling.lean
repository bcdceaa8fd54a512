import Mathlib.Data.List.Forall2
import Lox.Proofs.Grammar.Derivation
import Lox.Proofs.Scoping.Restoring

/-!
# Deriving a tree with other names

The grammar does not look at how a name is spelled. Main statement: a tree that differs from
a derived one only in that some variables have a new name is derived from the same tokens,
some of them spelled anew.
-/

set_option autoImplicit false

namespace Lox.Grammar

open Scoping

/-- The same token, but an identifier may be spelled `y` instead. -/
def Respells (y : String) (t t' : Token) : Prop :=
  t' = t ∨ t.kind = .identifier ∧ t' = { t with lexeme := y }

namespace Respells

variable {x y : String} {t t' : Token}

theorem kind (h : Respells y t t') : t'.kind = t.kind := by
  rcases h with rfl | ⟨-, rfl⟩ <;> rfl

theorem of_mapName (hk : t.kind = .identifier) (h : t'.mapName (change y x) = t) :
    Respells y t t' := by
  subst h
  by_cases he : t'.lexeme = y
  · exact .inr ⟨hk, by cases t'; cases he; rfl⟩
  · left
    unfold Token.mapName change
    rw [if_neg he]

end Respells

/-- Some identifiers of the list are spelled `y`. -/
abbrev AllRespell (y : String) : List Token → List Token → Prop := List.Forall₂ (Respells y)

namespace AllRespell

variable {y : String} {t : Token} {ts ts' us us' : List Token}

theorem keep (t : Token) (h : AllRespell y ts ts') : AllRespell y (t :: ts) (t :: ts') :=
  .cons (.inl rfl) h

theorem more {t' : Token} (ht : Respells y t t') (h : AllRespell y ts ts') :
    AllRespell y (t :: ts) (t' :: ts') :=
  .cons ht h

theorem append (h : AllRespell y ts ts') (h' : AllRespell y us us') :
    AllRespell y (ts ++ us) (ts' ++ us') :=
  List.rel_append h h'

theorem beyond {cause : ParseCause} {count : Nat} (h : AllRespell y ts ts')
    (hb : beyond cause count ts = []) : Grammar.beyond cause count ts' = [] := by
  unfold Grammar.beyond at hb ⊢
  split
  · rename_i hc
    rw [if_pos hc] at hb
    cases h with
    | nil => rfl
    | cons => cases hb
  · rfl

end AllRespell

section

variable (before : Bool → Prop) (x y : String) (ts : List Token) (n k : Nat)

/-- With `y` for `x` in some variables the tokens, respelled, still derive the phrase. -/
def Follows {α : Type} (phrase : α → Phrase) (restore : α → α) (a : α) : Prop :=
  ∀ a', restore a' = a → ∃ ts', AllRespell y ts ts' ∧ Derives before (phrase a') ts' n k []

/-- The same for a phrase that goes on from an expression. -/
def FollowsFrom (phrase : Expr → Expr → Phrase) (first e : Expr) : Prop :=
  ∀ e' : Expr, e'.mapNames (change y x) = e → ∃ first' ts',
    first'.mapNames (change y x) = first ∧ AllRespell y ts ts' ∧
      Derives before (phrase first' e') ts' n k []

def Phrase.Respelled : Phrase → Prop
  | .expr l e => Follows before y ts n k (.expr l) (Expr.mapNames (change y x)) e
  | .operands c first e => FollowsFrom before x y ts n k (.operands c) first e
  | .suffixes first e => FollowsFrom before x y ts n k .suffixes first e
  | .arguments count es => Follows before y ts n k (.arguments count)
      (Expr.mapAllNames (change y x)) es
  | .optional e => Follows before y ts n k .optional (Option.map (Expr.mapNames (change y x))) e
  | .varDeclaration s => Follows before y ts n k .varDeclaration (Stmt.mapNames (change y x)) s
  | .initializer s => Follows before y ts n k .initializer (Stmt.mapOptionNames (change y x)) s
  | .statement d s => Follows before y ts n k (.statement d) (Stmt.mapNames (change y x)) s
  | .declaration s => Follows before y ts n k .declaration (Stmt.mapNames (change y x)) s
  | .declarations ss => Follows before y ts n k .declarations (Stmt.mapAllNames (change y x)) ss
  | .superclass r => Follows before y ts n k .superclass
      (Option.map (Reference.mapName (change y x))) r
  | .parameters count ps => Follows before y ts n k (.parameters count)
      (List.map (Token.mapName (change y x))) ps
  | .someParameters ps => Follows before y ts n k .someParameters
      (List.map (Token.mapName (change y x))) ps
  | .function f => Follows before y ts n k .function (Function.mapNames (change y x)) f
  | .functions fs => Follows before y ts n k .functions (Function.mapAllNames (change y x)) fs

end

variable {before : Bool → Prop} {x y : String} {p : Phrase} {ts : List Token} {n k : Nat}
  {ds : List Diagnostic}

/-- A tree with the old names of a joined one is joined. -/
theorem restores_join {f : String → String} {c : Chain} {l r : Expr} {op : Token} {e' : Expr}
    (h : e'.mapNames f = c.join l op r) :
    ∃ l' r', e' = c.join l' op r' ∧ l'.mapNames f = l ∧ r'.mapNames f = r := by
  cases c with
  | or | and =>
    cases e' with
    | logical l' op' r' =>
      obtain ⟨hl, rfl, hr⟩ := Expr.logical.inj h
      exact ⟨l', r', rfl, hl, hr⟩
    | _ => cases h
  | _ =>
    cases e' with
    | binary l' op' r' =>
      obtain ⟨hl, rfl, hr⟩ := Expr.binary.inj h
      exact ⟨l', r', rfl, hl, hr⟩
    | _ => cases h

theorem restores_block {f : String → String} {ss : List Stmt} {s' : Stmt}
    (h : s'.mapNames f = .block ss) : ∃ ss', s' = .block ss' ∧ Stmt.mapAllNames f ss' = ss := by
  cases s' with
  | block ss' => exact ⟨ss', rfl, Stmt.block.inj h⟩
  | _ => cases h

theorem restores_pair {f : String → String} {a b : Stmt} {s' : Stmt}
    (h : s'.mapNames f = .block [a, b]) :
    ∃ a' b', s' = .block [a', b'] ∧ a'.mapNames f = a ∧ b'.mapNames f = b := by
  obtain ⟨ss', rfl, hss⟩ := restores_block h
  cases ss' with
  | nil => cases hss
  | cons a' ss' =>
    obtain ⟨ha, hss⟩ := List.cons.inj hss
    cases ss' with
    | nil => cases hss
    | cons b' ss' =>
      obtain ⟨hb, hss⟩ := List.cons.inj hss
      cases ss' with
      | nil => exact ⟨a', b', rfl, ha, hb⟩
      | cons => cases hss

theorem restores_loop {f : String → String} {condition : Option Expr} {body s' : Stmt}
    (h : s'.mapNames f = .while (condition.getD (.literal (.bool true))) body) :
    ∃ (c' : Option Expr) (body' : Stmt), s' = .while (c'.getD (.literal (.bool true))) body' ∧
      c'.map (Expr.mapNames f) = condition ∧ body'.mapNames f = body := by
  cases s' with
  | «while» e' body' =>
    obtain ⟨he, hb⟩ := Stmt.while.inj h
    cases condition with
    | none =>
      cases e' with
      | literal v =>
        cases he
        exact ⟨none, body', rfl, rfl, hb⟩
      | _ => cases he
    | some c => exact ⟨some e', body', rfl, congrArg some he, hb⟩
  | _ => cases h

theorem restores_forLoop {f : String → String} {i : Option Stmt} {condition increment : Option Expr}
    {body s' : Stmt} (h : s'.mapNames f = forLoop i condition increment body) :
    ∃ (i' : Option Stmt) (c' n' : Option Expr) (body' : Stmt), s' = forLoop i' c' n' body' ∧
      Stmt.mapOptionNames f i' = i ∧ c'.map (Expr.mapNames f) = condition ∧
      n'.map (Expr.mapNames f) = increment ∧ body'.mapNames f = body := by
  have hloop {s' : Stmt} (h : s'.mapNames f = forLoop none condition increment body) :
      ∃ (c' n' : Option Expr) (body' : Stmt), s' = forLoop none c' n' body' ∧
        c'.map (Expr.mapNames f) = condition ∧ n'.map (Expr.mapNames f) = increment ∧
        body'.mapNames f = body := by
    obtain ⟨c', b', rfl, hc, hb⟩ := restores_loop h
    cases increment with
    | none => exact ⟨c', none, b', rfl, hc, rfl, hb⟩
    | some n =>
      obtain ⟨body', last', rfl, hbody, hlast⟩ := restores_pair hb
      cases last' with
      | expression n' => exact ⟨c', some n', body', rfl, hc, congrArg some (Stmt.expression.inj hlast), hbody⟩
      | _ => cases hlast
  cases i with
  | none =>
    obtain ⟨c', n', body', rfl, hc, hn, hb⟩ := hloop h
    exact ⟨none, c', n', body', rfl, rfl, hc, hn, hb⟩
  | some s =>
    obtain ⟨first', loop', rfl, hfirst, hl⟩ := restores_pair h
    obtain ⟨c', n', body', rfl, hc, hn, hb⟩ := hloop hl
    exact ⟨some first', c', n', body', rfl, congrArg some hfirst, hc, hn, hb⟩

/-- A tree with other names is derived from the tokens with these names. -/
theorem Derives.respelled (h : Derives before p ts n k ds) (hds : ds = []) :
    p.Respelled before x y ts n k := by
  induction h with
  | literal ht =>
    intro e' he
    cases e' with
    | literal => cases he; exact ⟨_, .keep _ .nil, .literal ht⟩
    | _ => cases he
  | this ht =>
    intro e' he
    cases e' with
    | this => cases he; exact ⟨_, .keep _ .nil, .this ht⟩
    | _ => cases he
  | @var t n ht =>
    intro e' he
    cases e' with
    | var r =>
      obtain ⟨id, t'⟩ := r
      obtain ⟨rfl, ht'⟩ := Reference.mk.inj (Expr.var.inj he)
      have hr := Respells.of_mapName ht ht'
      exact ⟨[t'], .more hr .nil, .var (hr.kind.trans ht)⟩
    | _ => cases he
  | super ht hd hx =>
    intro e' he
    cases e' with
    | super => cases he; exact ⟨_, .keep _ (.keep _ (.keep _ .nil)), .super ht hd hx⟩
    | _ => cases he
  | grouping ho he hc ih =>
    intro e' he'
    cases e' with
    | grouping e' =>
      obtain ⟨ts', hts, hd⟩ := ih hds e' (Expr.grouping.inj he')
      exact ⟨_, .keep _ (hts.append (.keep _ .nil)), .grouping ho hd hc⟩
    | _ => cases he'
  | call hp hs ihp ihs =>
    obtain ⟨rfl, rfl⟩ := List.append_eq_nil_iff.1 hds
    intro e' he'
    obtain ⟨p', us', hp', hus, hd⟩ := ihs rfl e' he'
    obtain ⟨ts', hts, hd'⟩ := ihp rfl p' hp'
    exact ⟨_, hts.append hus, .call hd' hd⟩
  | noSuffix => exact fun e' he' => ⟨e', [], he', .nil, .noSuffix⟩
  | emptyCall ho hc hs ih =>
    intro e' he'
    obtain ⟨g', us', hg, hus, hd⟩ := ih hds e' he'
    cases g' with
    | call f' c' args' =>
      obtain ⟨hf, rfl, hargs⟩ := Expr.call.inj hg
      cases args' with
      | nil => exact ⟨f', _, hf, .keep _ (.keep _ hus), .emptyCall ho hc hd⟩
      | cons => cases hargs
    | _ => cases hg
  | argumentCall ho ha hc hs iha ihs =>
    obtain ⟨rfl, rfl⟩ := List.append_eq_nil_iff.1 hds
    intro e' he'
    obtain ⟨g', us', hg, hus, hd⟩ := ihs rfl e' he'
    cases g' with
    | call f' c' args' =>
      obtain ⟨hf, rfl, hargs⟩ := Expr.call.inj hg
      obtain ⟨ts', hts, hd'⟩ := iha rfl args' hargs
      exact ⟨f', _, hf, .keep _ (hts.append (.keep _ hus)), .argumentCall ho hd' hc hd⟩
    | _ => cases hg
  | property hd hx hs ih =>
    intro e' he'
    obtain ⟨g', us', hg, hus, hd'⟩ := ih hds e' he'
    cases g' with
    | get o' x' =>
      obtain ⟨ho, rfl⟩ := Expr.get.inj hg
      exact ⟨o', _, ho, .keep _ (.keep _ hus), .property hd hx hd'⟩
    | _ => cases hg
  | @argument count e ts n k ds he ih =>
    obtain ⟨hb, rfl⟩ := List.append_eq_nil_iff.1 hds
    intro es' hes'
    cases es' with
    | nil => cases hes'
    | cons e' es' =>
      obtain ⟨he', hrest⟩ := List.cons.inj hes'
      cases es' with
      | nil =>
        obtain ⟨ts', hts, hd⟩ := ih rfl e' he'
        have hone : Derives before (.arguments count [e']) ts' n k _ := .argument hd
        rw [hts.beyond hb] at hone
        exact ⟨ts', hts, hone⟩
      | cons => cases hrest
  | moreArguments he hc ha ihe iha =>
    obtain ⟨hfirst, rfl⟩ := List.append_eq_nil_iff.1 hds
    obtain ⟨hb, rfl⟩ := List.append_eq_nil_iff.1 hfirst
    intro es' hes'
    cases es' with
    | nil => cases hes'
    | cons e' es' =>
      obtain ⟨he', hrest⟩ := List.cons.inj hes'
      obtain ⟨ts', hts, hd⟩ := ihe rfl e' he'
      obtain ⟨us', hus, hd'⟩ := iha rfl es' hrest
      have hd := Derives.moreArguments hd hc hd'
      rw [hts.beyond hb] at hd
      exact ⟨_, hts.append (.keep _ hus), hd⟩
  | operator ho he ih =>
    intro e' he'
    cases e' with
    | unary op r' =>
      obtain ⟨rfl, hr'⟩ := Expr.unary.inj he'
      obtain ⟨ts', hts, hd⟩ := ih hds r' hr'
      exact ⟨_, .keep _ hts, .operator ho hd⟩
    | _ => cases he'
  | noOperator he ih =>
    intro e' he'
    obtain ⟨ts', hts, hd⟩ := ih hds e' he'
    exact ⟨ts', hts, .noOperator hd⟩
  | chain hl ho ihl iho =>
    obtain ⟨rfl, rfl⟩ := List.append_eq_nil_iff.1 hds
    intro e' he'
    obtain ⟨l', us', hl', hus, hd⟩ := iho rfl e' he'
    obtain ⟨ts', hts, hd'⟩ := ihl rfl l' hl'
    exact ⟨_, hts.append hus, .chain hd' hd⟩
  | noOperand => exact fun e' he' => ⟨e', [], he', .nil, .noOperand⟩
  | operand ho hr hs ihr ihs =>
    obtain ⟨rfl, rfl⟩ := List.append_eq_nil_iff.1 hds
    intro e' he'
    obtain ⟨g', us', hg, hus, hd⟩ := ihs rfl e' he'
    obtain ⟨l', r', rfl, hl', hr'⟩ := restores_join hg
    obtain ⟨ts', hts, hd'⟩ := ihr rfl r' hr'
    exact ⟨l', _, hl', .keep _ (hts.append hus), .operand ho hd' hd⟩
  | noAssignment he ih =>
    intro e' he'
    obtain ⟨ts', hts, hd⟩ := ih hds e' he'
    exact ⟨ts', hts, .noAssignment hd⟩
  | assignVar hx hq hv ih =>
    intro e' he'
    cases e' with
    | assign r v' =>
      obtain ⟨hr, hv'⟩ := Expr.assign.inj he'
      obtain ⟨id, t'⟩ := r
      obtain ⟨rfl, ht'⟩ := Reference.mk.inj hr
      have hr := Respells.of_mapName hx ht'
      obtain ⟨ts', hts, hd⟩ := ih hds v' hv'
      exact ⟨_, .more hr (.keep _ hts), .assignVar (hr.kind.trans hx) hq hd⟩
    | _ => cases he'
  | assignProperty ho hd hx hq hv iho ihv =>
    obtain ⟨rfl, rfl⟩ := List.append_eq_nil_iff.1 hds
    intro e' he'
    cases e' with
    | set o' x' v' =>
      obtain ⟨ho', rfl, hv'⟩ := Expr.set.inj he'
      obtain ⟨ts', hts, hd'⟩ := iho rfl o' ho'
      obtain ⟨us', hus, hd''⟩ := ihv rfl v' hv'
      exact ⟨_, hts.append (.keep _ (.keep _ (.keep _ hus))), .assignProperty hd' hd hx hq hd''⟩
    | _ => cases he'
  | invalidTarget => exact absurd (List.append_eq_nil_iff.1 hds).2 (List.cons_ne_nil _ _)
  | noExpression =>
    intro e' he'
    cases e' with
    | none => exact ⟨[], .nil, .noExpression⟩
    | some => cases he'
  | someExpression he ih =>
    intro e' he'
    cases e' with
    | none => cases he'
    | some e' =>
      obtain ⟨ts', hts, hd⟩ := ih hds e' (Option.some.inj he')
      exact ⟨ts', hts, .someExpression hd⟩
  | expression he hs ih =>
    intro s' hs'
    cases s' with
    | expression e' =>
      obtain ⟨ts', hts, hd⟩ := ih hds e' (Stmt.expression.inj hs')
      exact ⟨_, hts.append (.keep _ .nil), .expression hd hs⟩
    | _ => cases hs'
  | print hw he hs ih =>
    intro s' hs'
    cases s' with
    | print e' =>
      obtain ⟨ts', hts, hd⟩ := ih hds e' (Stmt.print.inj hs')
      exact ⟨_, .keep _ (hts.append (.keep _ .nil)), .print hw hd hs⟩
    | _ => cases hs'
  | returns hw he hs ih =>
    intro s' hs'
    cases s' with
    | «return» w e' =>
      obtain ⟨rfl, he'⟩ := Stmt.return.inj hs'
      obtain ⟨ts', hts, hd⟩ := ih hds e' he'
      exact ⟨_, .keep _ (hts.append (.keep _ .nil)), .returns hw hd hs⟩
    | _ => cases hs'
  | block ho hs hc ih =>
    intro s' hs'
    cases s' with
    | block ss' =>
      obtain ⟨ts', hts, hd⟩ := ih hds ss' (Stmt.block.inj hs')
      exact ⟨_, .keep _ (hts.append (.keep _ .nil)), .block ho hd hc⟩
    | _ => cases hs'
  | ifThen hw ho he hc hy ihe ihy =>
    obtain ⟨rfl, rfl⟩ := List.append_eq_nil_iff.1 hds
    intro s' hs'
    cases s' with
    | «if» e' yes' no' =>
      obtain ⟨he', hyes', hno'⟩ := Stmt.if.inj hs'
      cases no' with
      | none =>
        obtain ⟨ts', hts, hd⟩ := ihe rfl e' he'
        obtain ⟨us', hus, hd'⟩ := ihy rfl yes' hyes'
        exact ⟨_, .keep _ (.keep _ (hts.append (.keep _ hus))), .ifThen hw ho hd hc hd'⟩
      | some => cases hno'
    | _ => cases hs'
  | ifElse hw ho he hc hy hb hl hn ihe ihy ihn =>
    obtain ⟨hboth, rfl⟩ := List.append_eq_nil_iff.1 hds
    obtain ⟨rfl, rfl⟩ := List.append_eq_nil_iff.1 hboth
    intro s' hs'
    cases s' with
    | «if» e' yes' no' =>
      obtain ⟨he', hyes', hno'⟩ := Stmt.if.inj hs'
      cases no' with
      | none => cases hno'
      | some no' =>
        obtain ⟨ts', hts, hd⟩ := ihe rfl e' he'
        obtain ⟨us', hus, hd'⟩ := ihy rfl yes' hyes'
        obtain ⟨vs', hvs, hd''⟩ := ihn rfl no' (Option.some.inj hno')
        exact ⟨_, .keep _ (.keep _ ((hts.append (.keep _ hus)).append (.keep _ hvs))),
          .ifElse hw ho hd hc hd' hb hl hd''⟩
    | _ => cases hs'
  | whileDo hw ho he hc hb ihe ihb =>
    obtain ⟨rfl, rfl⟩ := List.append_eq_nil_iff.1 hds
    intro s' hs'
    cases s' with
    | «while» e' body' =>
      obtain ⟨he', hbody'⟩ := Stmt.while.inj hs'
      obtain ⟨ts', hts, hd⟩ := ihe rfl e' he'
      obtain ⟨us', hus, hd'⟩ := ihb rfl body' hbody'
      exact ⟨_, .keep _ (.keep _ (hts.append (.keep _ hus))), .whileDo hw ho hd hc hd'⟩
    | _ => cases hs'
  | forDo hw ho hi he hs hn hc hb ihi ihe ihn ihb =>
    obtain ⟨hhead, rfl⟩ := List.append_eq_nil_iff.1 hds
    obtain ⟨hboth, rfl⟩ := List.append_eq_nil_iff.1 hhead
    obtain ⟨rfl, rfl⟩ := List.append_eq_nil_iff.1 hboth
    intro s' hs'
    obtain ⟨i', e', n', body', rfl, hi', he', hn', hb'⟩ := restores_forLoop hs'
    obtain ⟨ts', hts, hd⟩ := ihi rfl i' hi'
    obtain ⟨us', hus, hd₁⟩ := ihe rfl e' he'
    obtain ⟨vs', hvs, hd₂⟩ := ihn rfl n' hn'
    obtain ⟨ws', hws, hd₃⟩ := ihb rfl body' hb'
    exact ⟨_, .keep _ (.keep _ (((hts.append hus).append (.keep _ hvs)).append (.keep _ hws))),
      .forDo hw ho hd hd₁ hs hd₂ hc hd₃⟩
  | noInitializer hs =>
    intro s' hs'
    cases s' with
    | none => exact ⟨_, .keep _ .nil, .noInitializer hs⟩
    | some => cases hs'
  | variableInitializer hs ih =>
    intro s' hs'
    cases s' with
    | none => cases hs'
    | some s' =>
      obtain ⟨ts', hts, hd⟩ := ih hds s' (Option.some.inj hs')
      exact ⟨ts', hts, .variableInitializer hd⟩
  | expressionInitializer he hs ih =>
    intro s' hs'
    cases s' with
    | none => cases hs'
    | some s' =>
      cases s' with
      | expression e' =>
        obtain ⟨ts', hts, hd⟩ := ih hds e' (Stmt.expression.inj (Option.some.inj hs'))
        exact ⟨_, hts.append (.keep _ .nil), .expressionInitializer hd hs⟩
      | _ => cases hs'
  | bareVariable hw hx hs =>
    intro s' hs'
    cases s' with
    | var x' e' =>
      obtain ⟨hx', he'⟩ := Stmt.var.inj hs'
      have hr := Respells.of_mapName hx hx'
      cases e' with
      | none => exact ⟨_, .keep _ (.more hr (.keep _ .nil)), .bareVariable hw (hr.kind.trans hx) hs⟩
      | some => cases he'
    | _ => cases hs'
  | initialized hw hx hq he hs ih =>
    intro s' hs'
    cases s' with
    | var x' e' =>
      obtain ⟨hx', he'⟩ := Stmt.var.inj hs'
      have hr := Respells.of_mapName hx hx'
      cases e' with
      | none => cases he'
      | some e' =>
        obtain ⟨ts', hts, hd⟩ := ih hds e' (Option.some.inj he')
        exact ⟨_, .keep _ (.more hr (.keep _ (hts.append (.keep _ .nil)))),
          .initialized hw (hr.kind.trans hx) hq hd hs⟩
    | _ => cases hs'
  | declaredStatement hs ih =>
    intro s' hs'
    obtain ⟨ts', hts, hd⟩ := ih hds s' hs'
    exact ⟨ts', hts, .declaredStatement hd⟩
  | declaredVariable hs ih =>
    intro s' hs'
    obtain ⟨ts', hts, hd⟩ := ih hds s' hs'
    exact ⟨ts', hts, .declaredVariable hd⟩
  | declaredFunction hw hf ih =>
    intro s' hs'
    cases s' with
    | function f' =>
      obtain ⟨ts', hts, hd⟩ := ih hds f' (Stmt.function.inj hs')
      exact ⟨_, .keep _ hts, .declaredFunction hw hd⟩
    | _ => cases hs'
  | declaredClass hw hx hr ho hf hc ihr ihf =>
    obtain ⟨rfl, rfl⟩ := List.append_eq_nil_iff.1 hds
    intro s' hs'
    cases s' with
    | «class» x' r' fs' =>
      obtain ⟨rfl, hr', hfs'⟩ := Stmt.class.inj hs'
      obtain ⟨ts', hts, hd⟩ := ihr rfl r' hr'
      obtain ⟨us', hus, hd'⟩ := ihf rfl fs' hfs'
      exact ⟨_, .keep _ (.keep _ ((hts.append (.keep _ hus)).append (.keep _ .nil))),
        .declaredClass hw hx hd ho hd' hc⟩
    | _ => cases hs'
  | noDeclaration =>
    intro ss' hss'
    cases ss' with
    | nil => exact ⟨[], .nil, .noDeclaration⟩
    | cons => cases hss'
  | moreDeclarations hs hss ihs ihss =>
    obtain ⟨rfl, rfl⟩ := List.append_eq_nil_iff.1 hds
    intro ss' hss'
    cases ss' with
    | nil => cases hss'
    | cons s' ss' =>
      obtain ⟨hs', hrest⟩ := List.cons.inj hss'
      obtain ⟨ts', hts, hd⟩ := ihs rfl s' hs'
      obtain ⟨us', hus, hd'⟩ := ihss rfl ss' hrest
      exact ⟨_, hts.append hus, .moreDeclarations hd hd'⟩
  | noSuperclass =>
    intro r' hr'
    cases r' with
    | none => exact ⟨[], .nil, .noSuperclass⟩
    | some => cases hr'
  | someSuperclass hl hx =>
    intro r' hr'
    cases r' with
    | none => cases hr'
    | some r' =>
      obtain ⟨id, t'⟩ := r'
      obtain ⟨rfl, ht'⟩ := Reference.mk.inj (Option.some.inj hr')
      have hr := Respells.of_mapName hx ht'
      exact ⟨_, .keep _ (.more hr .nil), .someSuperclass hl (hr.kind.trans hx)⟩
  | function hx ho hp hc hb hs hd ihp ihs =>
    obtain ⟨rfl, rfl⟩ := List.append_eq_nil_iff.1 hds
    intro f' hf'
    cases f' with
    | mk x' ps' ss' =>
      obtain ⟨rfl, hps', hss'⟩ := Function.mk.inj hf'
      obtain ⟨ts', hts, hd₁⟩ := ihp rfl ps' hps'
      obtain ⟨us', hus, hd₂⟩ := ihs rfl ss' hss'
      exact ⟨_, .keep _ (.keep _ ((hts.append (.keep _ (.keep _ hus))).append (.keep _ .nil))),
        .function hx ho hd₁ hc hb hd₂ hd⟩
  | noFunction =>
    intro fs' hfs'
    cases fs' with
    | nil => exact ⟨[], .nil, .noFunction⟩
    | cons => cases hfs'
  | moreFunctions hf hfs ihf ihfs =>
    obtain ⟨rfl, rfl⟩ := List.append_eq_nil_iff.1 hds
    intro fs' hfs'
    cases fs' with
    | nil => cases hfs'
    | cons f' fs' =>
      obtain ⟨hf', hrest⟩ := List.cons.inj hfs'
      obtain ⟨ts', hts, hd⟩ := ihf rfl f' hf'
      obtain ⟨us', hus, hd'⟩ := ihfs rfl fs' hrest
      exact ⟨_, hts.append hus, .moreFunctions hd hd'⟩
  | noParameter =>
    intro ps' hps'
    cases ps' with
    | nil => exact ⟨[], .nil, .noParameter⟩
    | cons => cases hps'
  | someParameter hp ih =>
    intro ps' hps'
    obtain ⟨ts', hts, hd⟩ := ih hds ps' hps'
    exact ⟨ts', hts, .someParameter hd⟩
  | @parameter count p n hp =>
    intro ps' hps'
    cases ps' with
    | nil => cases hps'
    | cons p' ps' =>
      obtain ⟨hp', hrest⟩ := List.cons.inj hps'
      have hr := Respells.of_mapName hp hp'
      cases ps' with
      | nil =>
        have hts : AllRespell y _ [p'] := .more hr .nil
        have hone : Derives before (.parameters count [p']) [p'] n n _ := .parameter (hr.kind.trans hp)
        rw [hts.beyond hds] at hone
        exact ⟨_, hts, hone⟩
      | cons => cases hrest
  | moreParameters hp hc hs ih =>
    obtain ⟨hb, rfl⟩ := List.append_eq_nil_iff.1 hds
    intro ps' hps'
    cases ps' with
    | nil => cases hps'
    | cons p' ps' =>
      obtain ⟨hp', hrest⟩ := List.cons.inj hps'
      have hr := Respells.of_mapName hp hp'
      obtain ⟨ts', hts, hd⟩ := ih rfl ps' hrest
      have hone : AllRespell y _ [p'] := .more hr .nil
      have hd := Derives.moreParameters (hr.kind.trans hp) hc hd
      rw [hone.beyond hb] at hd
      exact ⟨_, .more hr (.keep _ hts), hd⟩

end Lox.Grammar
