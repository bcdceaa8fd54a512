import Lox.Proofs.Grammar.Ebnf
import Lox.Proofs.Grammar.Growing

/-!
# Where a step first fails

A step is prompt for an expression of the grammar if it either consumes what derives from
the expression, or its first failure is blamed on a token up to which, but for itself, the
tokens can be extended to something that derives from it. In either case it looks no
further than the next token: with others behind that one, or a larger bound, it does the
same up to there. There is one rule for each way in which steps are put together.
-/

set_option autoImplicit false

namespace Lox

/-- Whether the rest of the declaration is given up. -/
def ParseCause.unwinds : ParseCause → Bool
  | tooManyParameters | tooManyArguments | invalidTarget => false
  | missing _ | noExpression | leftover => true

def Diagnostic.unwinds : Diagnostic → Bool
  | parse _ _ cause => cause.unwinds
  | _ => true

end Lox

namespace Lox.Grammar

variable {α β : Type}

/-- The same place with other tokens left. -/
def Cursor.over (c : Cursor) (ts : List Token) : Cursor := { c with rest := ts }

/-- Of what is reported after `c`, this is the first diagnostic that unwinds. -/
def Blames (c : Cursor) (d : Diagnostic) (r : EStateM.Result Diagnostic Cursor α) : Prop :=
  ∃ mild more, reported r = c.reports.toList ++ (mild ++ d :: more) ∧
    (∀ e ∈ mild, e.unwinds = false) ∧ d.unwinds = true

/-- What a step has done from the cursor `c`, `p'` being the same step with a bound on the
tokens left that is larger by `spare`. -/
inductive Reaches (spare k n : Nat) (e : Ebnf) (p' : Step α) (c : Cursor) :
    EStateM.Result Diagnostic Cursor α → Prop
  | ok {a : α} {d : Cursor} {us : List Token} {mild : List Diagnostic}
      (hrest : c.rest = us ++ d.rest) (hk : k ≤ us.length) (hus : Matches e us)
      (hreports : d.reports.toList = c.reports.toList ++ mild)
      (hmild : ∀ e ∈ mild, e.unwinds = false) (hfinish : d.finish = c.finish)
      (hsame : ∀ rest, (us ++ rest).length ≤ n + spare → rest.head? = d.rest.head? →
        p' (c.over (us ++ rest)) = .ok a (d.over rest)) :
      Reaches spare k n e p' c (.ok a d)
  | stuck {r : EStateM.Result Diagnostic Cursor α} {us rest : List Token} {cause : ParseCause}
      (hrest : c.rest = us ++ rest) (hus : Viable e us)
      (hr : Blames c (fault cause (rest.headD c.finish)) r)
      (hsame : ∀ rest', (us ++ rest').length ≤ n + spare → rest'.head? = rest.head? →
        Blames c (fault cause (rest.headD c.finish)) (p' (c.over (us ++ rest')))) :
      Reaches spare k n e p' c r

/-- From at most `n` tokens the step `p` is prompt, and `p'` like it. A step that yields a
result has consumed at least `k` tokens. -/
structure Prompt (spare k n : Nat) (e : Ebnf) (p p' : Step α) : Prop where
  grows : Grows p
  grows' : Grows p'
  reaches (c : Cursor) : c.rest.length ≤ n → Reaches spare k n e p' c (p c)

namespace Blames

variable {c c' : Cursor} {d : Diagnostic} {p : Step α} {u : α → Step β}

/-- What is reported later does not count. -/
theorem bind (h : Blames c d (p c')) (hu : ∀ a, Grows (u a)) : Blames c d ((p >>= u) c') := by
  obtain ⟨mild, more, hr, hmild, hd⟩ := h
  rw [bind_apply]
  cases hp : p c' with
  | error d' c'' =>
    rw [hp] at hr
    exact ⟨mild, more, hr, hmild, hd⟩
  | ok a c'' =>
    rw [hp] at hr
    have hr : c''.reports.toList = c.reports.toList ++ (mild ++ d :: more) := hr
    obtain ⟨new, hnew, -⟩ := hu a c''
    exact ⟨mild, more ++ new, by simp [hnew, hr], hmild, hd⟩

/-- What was reported before must not unwind. -/
theorem after {r : EStateM.Result Diagnostic Cursor α} {mild : List Diagnostic}
    (h : Blames c' d r) (hreports : c'.reports.toList = c.reports.toList ++ mild)
    (hmild : ∀ e ∈ mild, e.unwinds = false) : Blames c d r := by
  obtain ⟨mild', more, hr, hmild', hd⟩ := h
  refine ⟨mild ++ mild', more, ?_, List.forall_mem_append.2 ⟨hmild, hmild'⟩, hd⟩
  rw [hr, hreports, List.append_assoc, List.append_assoc]

theorem recovering (h : Blames c d (p c')) : Blames c d (Grammar.recovering p c') := by
  unfold Blames at h ⊢
  rwa [Grows.reported_recovering]

end Blames

theorem head?_append_congr {ts us vs : List Token} (h : us.head? = vs.head?) :
    (ts ++ us).head? = (ts ++ vs).head? := by
  cases ts with
  | nil => exact h
  | cons t ts => rfl

theorem acceptIf_some {t : Kind → Bool} {x : Token} {ts : List Token} {c : Cursor}
    (hc : c.rest = x :: ts) (hx : t x.kind = true) (u : Option Token → Step α) :
    (acceptIf t >>= u) c = u (some x) (c.over ts) := by
  rw [bind_apply, acceptIf, hc]
  simp only [hx, if_true]
  rfl

theorem acceptIf_none {t : Kind → Bool} {c : Cursor} (hc : ∀ x ∈ c.rest.head?, t x.kind = false)
    (u : Option Token → Step α) : (acceptIf t >>= u) c = u none c := by
  rw [bind_apply, acceptIf]
  cases hrest : c.rest with
  | nil => rfl
  | cons x ts =>
    have hx : t x.kind = false := hc x (by rw [hrest]; rfl)
    simp only [hx, Bool.false_eq_true, if_false]

theorem next_cases (t : Kind → Bool) (c : Cursor) :
    (∀ x ∈ c.rest.head?, t x.kind = false) ∨ ∃ x ts, c.rest = x :: ts ∧ t x.kind = true := by
  cases hrest : c.rest with
  | nil => exact .inl nofun
  | cons x ts =>
    cases hx : t x.kind with
    | false =>
      left
      intro y hy
      cases hy
      exact hx
    | true => exact .inr ⟨x, ts, rfl, hx⟩

theorem atEnd_eq (c : Cursor) : atEnd c = .ok c.rest.isEmpty c := rfl

namespace Prompt

variable {s k n : Nat} {e a b : Ebnf} {p p' q q' : Step α} {u u' : α → Step β}

theorem mono (h : Prompt s k n a p p') (hab : ∀ ts, Matches a ts → Matches b ts) :
    Prompt s k n b p p' where
  grows := h.grows
  grows' := h.grows'
  reaches c hc := by
    have hr := h.reaches c hc
    generalize p c = r at hr
    cases hr with
    | ok hrest hk hus hreports hmild hfinish hsame =>
      exact .ok hrest hk (hab _ hus) hreports hmild hfinish hsame
    | stuck hrest hus hr hsame => exact .stuck hrest (hus.mono hab) hr hsame

theorem lax (h : Prompt s k n e p p') : Prompt s 0 n e p p' where
  grows := h.grows
  grows' := h.grows'
  reaches c hc := by
    have hr := h.reaches c hc
    generalize p c = r at hr
    cases hr with
    | ok hrest hk hus hreports hmild hfinish hsame =>
      exact .ok hrest (Nat.zero_le _) hus hreports hmild hfinish hsame
    | stuck hrest hus hr hsame => exact .stuck hrest hus hr hsame

theorem within {m : Nat} (h : Prompt s k n e p p') (hm : m ≤ n) : Prompt s k m e p p' where
  grows := h.grows
  grows' := h.grows'
  reaches c hc := by
    have hr := h.reaches c (Nat.le_trans hc hm)
    generalize p c = r at hr
    cases hr with
    | ok hrest hk hus hreports hmild hfinish hsame =>
      exact .ok hrest hk hus hreports hmild hfinish fun rest hlen => hsame rest (by omega)
    | stuck hrest hus hr hsame =>
      exact .stuck hrest hus hr fun rest hlen => hsame rest (by omega)

/-- Where the first step must consume `j` tokens, the second one has so many fewer left. -/
theorem andThen {j : Nat} (hp : Prompt s j n a p p')
    (hu : ∀ x, Prompt s k (n - j) b (u x) (u' x)) :
    Prompt s (j + k) n (.seq a b) (p >>= u) (p' >>= u') where
  grows := hp.grows.bind fun x => (hu x).grows
  grows' := hp.grows'.bind fun x => (hu x).grows'
  reaches c hc := by
    have hr := hp.reaches c hc
    cases hpc : p c with
    | error d c' =>
      rw [hpc] at hr
      cases hr with
      | @stuck _ us rest cause hrest hus hr hsame =>
        rw [bind_apply, hpc]
        exact .stuck hrest (hus.seq b) hr fun rest' hlen hhead =>
          (hsame rest' hlen hhead).bind fun x => (hu x).grows'
    | ok x d =>
      rw [hpc] at hr
      cases hr with
      | @stuck _ us rest cause hrest hus hr hsame =>
        refine .stuck hrest (hus.seq b) ?_ fun rest' hlen hhead =>
          (hsame rest' hlen hhead).bind fun x => (hu x).grows'
        rw [← hpc] at hr
        exact hr.bind fun x => (hu x).grows
      | @ok _ _ us mild hrest hj hus hreports hmild hfinish hsame =>
        have hlen : c.rest.length = us.length + d.rest.length := by
          rw [hrest, List.length_append]
        have hr' := (hu x).reaches d (by omega)
        rw [bind_apply, hpc]
        dsimp only
        generalize u x d = r' at hr'
        cases hr' with
        | @ok y d' vs mild' hrest' hk hvs hreports' hmild' hfinish' hsame' =>
          have hboth : c.rest = us ++ vs ++ d'.rest := by rw [hrest, hrest', List.append_assoc]
          have hreports : d'.reports.toList = c.reports.toList ++ (mild ++ mild') := by
            rw [hreports', hreports, List.append_assoc]
          refine .ok hboth ?_ (.seq hus hvs) hreports
            (List.forall_mem_append.2 ⟨hmild, hmild'⟩) (hfinish'.trans hfinish) ?_
          · rw [List.length_append]
            omega
          · intro rest hlen' hhead
            rw [List.append_assoc] at hlen' ⊢
            have hvs : (vs ++ rest).length ≤ n - j + s := by
              rw [List.length_append] at hlen'
              omega
            rw [bind_apply, hsame _ hlen' (hrest' ▸ head?_append_congr hhead)]
            exact hsame' rest hvs hhead
        | @stuck _ vs rest cause hrest' hvs hr' hsame' =>
          rw [hfinish] at hr' hsame'
          have hboth : c.rest = us ++ vs ++ rest := by rw [hrest, hrest', List.append_assoc]
          refine .stuck hboth (hus.seq_viable hvs) (hr'.after hreports hmild) ?_
          intro rest' hlen' hhead
          rw [List.append_assoc] at hlen' ⊢
          have hvs : (vs ++ rest').length ≤ n - j + s := by
            rw [List.length_append] at hlen'
            omega
          rw [bind_apply, hsame _ hlen' (hrest' ▸ head?_append_congr hhead)]
          exact (hsame' rest' hvs hhead).after hreports hmild

theorem bind (hp : Prompt s 0 n a p p') (hu : ∀ x, Prompt s k n b (u x) (u' x)) :
    Prompt s k n (.seq a b) (p >>= u) (p' >>= u') := by
  have h := hp.andThen hu
  rwa [Nat.zero_add] at h

/-- The first step consumes a token. -/
theorem consuming (hp : Prompt s 1 n a p p') (hu : ∀ x, Prompt s 0 (n - 1) b (u x) (u' x)) :
    Prompt s 1 n (.seq a b) (p >>= u) (p' >>= u') := hp.andThen hu

/-- A step that consumes and reports nothing, and of what is left sees the next token only. -/
theorem looking {f : Cursor → α} {g : Cursor → Cursor} (hp : ∀ c, p c = .ok (f c) (g c))
    (hrest : ∀ c, (g c).rest = c.rest) (hreports : ∀ c, (g c).reports = c.reports)
    (hfinish : ∀ c, (g c).finish = c.finish)
    (hsame : ∀ c ts, ts.head? = c.rest.head? → f (c.over ts) = f c ∧ g (c.over ts) = (g c).over ts) :
    Prompt s 0 n .empty p p where
  grows c := Grows.silent (by rw [hp, reported, hreports])
  grows' c := Grows.silent (by rw [hp, reported, hreports])
  reaches c _ := by
    rw [hp]
    have hnone : (g c).reports.toList = c.reports.toList ++ [] := by
      rw [hreports, List.append_nil]
    have hnil : c.rest = [] ++ (g c).rest := (hrest c).symm
    refine .ok hnil (Nat.le_refl 0) .empty hnone nofun (hfinish c) ?_
    intro rest _ hhead
    rw [hrest] at hhead
    obtain ⟨hf, hg⟩ := hsame c rest hhead
    rw [List.nil_append, hp, hf, hg]

theorem pure (s n : Nat) (x : α) : Prompt s 0 n .empty (Pure.pure x) (Pure.pure x) :=
  looking (f := fun _ => x) (g := id) (fun _ => rfl) (fun _ => rfl) (fun _ => rfl) (fun _ => rfl)
    fun _ _ _ => ⟨rfl, rfl⟩

theorem reference (s n : Nat) (t : Token) :
    Prompt s 0 n .empty (Grammar.reference t) (Grammar.reference t) :=
  looking (f := fun c => ⟨c.nextId, t⟩) (g := fun c => { c with nextId := c.nextId + 1 })
    (fun _ => rfl) (fun _ => rfl) (fun _ => rfl) (fun _ => rfl) fun _ _ _ => ⟨rfl, rfl⟩

theorem ite {c : Prop} [Decidable c] (hp : c → Prompt s k n e p p')
    (hq : ¬ c → Prompt s k n e q q') :
    Prompt s k n e (if c then p else q) (if c then p' else q') := by
  split
  · rename_i h
    exact hp h
  · rename_i h
    exact hq h

/-- A choice by what the next token is. -/
theorem ifLooking {f : Option Token → Bool} {look : Step Bool}
    (hlook : ∀ c, look c = .ok (f c.rest.head?) c) (hp : Prompt s k n e p p')
    (hq : Prompt s k n e q q') :
    Prompt s k n e (do if ← look then p else q) (do if ← look then p' else q') := by
  have hlooking : Prompt s 0 n .empty look look :=
    looking (f := fun c => f c.rest.head?) (g := id) hlook (fun _ => rfl) (fun _ => rfl)
      (fun _ => rfl) fun c ts hhead => ⟨congrArg f hhead, rfl⟩
  have h := hlooking.bind fun b => ite (c := b = true) (fun _ => hp) fun _ => hq
  apply h.mono
  intro ts hts
  cases hts with
  | seq hnil he =>
    cases hnil
    exact he

theorem ifNext (j : Kind) (hp : Prompt s k n e p p') (hq : Prompt s k n e q q') :
    Prompt s k n e (do if ← nextIs j then p else q) (do if ← nextIs j then p' else q') :=
  ifLooking (f := fun o => o.any (·.kind == j)) (fun _ => rfl) hp hq

theorem ifAtEnd (hp : Prompt s k n e p p') (hq : Prompt s k n e q q') :
    Prompt s k n e (do if ← atEnd then p else q) (do if ← atEnd then p' else q') := by
  refine ifLooking (f := Option.isNone) ?_ hp hq
  intro c
  rw [atEnd_eq]
  cases c.rest <;> rfl

theorem ifEndsBlock (hp : Prompt s k n e p p') (hq : Prompt s k n e q q') :
    Prompt s k n e (do if ← endsBlock then p else q) (do if ← endsBlock then p' else q') := by
  refine ifLooking (f := fun o => o.any (·.kind == .mark .rightBrace) || o.isNone) ?_ hp hq
  intro c
  rw [endsBlock_apply]
  cases c.rest <;> rfl

/-- Where nothing is left, what a larger bound allows makes no difference. -/
theorem atZero {p'' : Step α} (h : Prompt s k 0 e p p'') (hgrows : Grows p')
    (hsame : ∀ c, c.rest = [] → p' c = p'' c) : Prompt s k 0 e p p' where
  grows := h.grows
  grows' := hgrows
  reaches c hc := by
    have hnil : c.rest = [] := List.length_eq_zero_iff.1 (Nat.le_zero.1 hc)
    have hr := h.reaches c hc
    generalize p c = r at hr
    have hempty {us rest rest' : List Token} (hrest : c.rest = us ++ rest)
        (hhead : rest'.head? = rest.head?) : (c.over (us ++ rest')).rest = [] := by
      obtain ⟨rfl, rfl⟩ := List.append_eq_nil_iff.1 (hrest.symm.trans hnil)
      exact List.head?_eq_none_iff.1 hhead
    cases hr with
    | ok hrest hk hus hreports hmild hfinish hother =>
      refine .ok hrest hk hus hreports hmild hfinish fun rest hlen hhead => ?_
      rw [hsame _ (hempty hrest hhead)]
      exact hother rest hlen hhead
    | stuck hrest hus hr hother =>
      refine .stuck hrest hus hr fun rest hlen hhead => ?_
      rw [hsame _ (hempty hrest hhead)]
      exact hother rest hlen hhead

/-- A failure is blamed on the next token, and nothing is wrong up to there. -/
theorem fail (s k n : Nat) (e : Ebnf) {cause : ParseCause} (hcause : cause.unwinds = true) :
    Prompt s k n e (Grammar.fail cause : Step α) (Grammar.fail cause) where
  grows := .fail cause
  grows' := .fail cause
  reaches c _ := by
    have hblames (c' : Cursor) (h : c'.peek = c.peek) (hreports : c'.reports = c.reports) :
        Blames c (fault cause (c.rest.headD c.finish)) (Grammar.fail cause c' :
          EStateM.Result Diagnostic Cursor α) := by
      refine ⟨[], [], ?_, nofun, hcause⟩
      show c'.reports.toList ++ [fault cause c'.peek] = _
      rw [h, hreports]
      rfl
    have hnil : c.rest = [] ++ c.rest := rfl
    refine .stuck hnil (viable_nil e) (hblames c rfl rfl) fun rest _ hhead => ?_
    refine hblames (c.over ([] ++ rest)) ?_ rfl
    show rest.headD c.finish = c.rest.headD c.finish
    rw [List.headD_eq_head?_getD, List.headD_eq_head?_getD, hhead]

/-- What is reported without stopping makes no difference. -/
theorem reporting {cause : ParseCause} {t : Cursor → Token} {x : α}
    (hcause : cause.unwinds = false) (hsame : ∀ c ts, ts.head? = c.rest.head? → t (c.over ts) = t c)
    (hp : ∀ c, p c = .ok x { c with reports := c.reports.push (fault cause (t c)) }) :
    Prompt s 0 n .empty p p where
  grows c := ⟨[_], by rw [hp]; exact Array.toList_push, faults_singleton _ _⟩
  grows' c := ⟨[_], by rw [hp]; exact Array.toList_push, faults_singleton _ _⟩
  reaches c _ := by
    rw [hp]
    have hnil : c.rest = [] ++ c.rest := rfl
    have hmild : ∀ e ∈ [fault cause (t c)], e.unwinds = false := by
      intro e he
      rw [List.mem_singleton.1 he]
      exact hcause
    refine .ok hnil (Nat.le_refl 0) .empty Array.toList_push hmild rfl ?_
    · intro rest _ hhead
      rw [List.nil_append, hp, hsame c rest hhead]
      rfl

theorem report (s n : Nat) {cause : ParseCause} (hcause : cause.unwinds = false) (t : Token) :
    Prompt s 0 n .empty (Grammar.report (fault cause t)) (Grammar.report (fault cause t)) :=
  reporting hcause (fun _ _ _ => rfl) fun _ => rfl

theorem limit (s n : Nat) {cause : ParseCause} (hcause : cause.unwinds = false) (count : Nat) :
    Prompt s 0 n .empty (Grammar.limit cause count) (Grammar.limit cause count) := by
  apply ite
  · intro _
    apply reporting hcause _ fun _ => rfl
    intro c ts hhead
    show ts.headD c.finish = c.rest.headD c.finish
    rw [List.headD_eq_head?_getD, List.headD_eq_head?_getD, hhead]
  · exact fun _ => pure s n ()

section Taking

variable {t : Kind → Bool} {v v' : Option Token → Step α}

theorem grows_taking (hyes : ∀ x, t x.kind = true → Grows (v (some x))) (hno : Grows (v none)) :
    Grows (acceptIf t >>= v) := by
  intro c
  rcases next_cases t c with hc | ⟨x, ts, hrest, ht⟩
  · rw [acceptIf_none hc]
    exact hno c
  · rw [acceptIf_some hrest ht]
    exact hyes x ht (c.over ts)

/-- A choice by the next token, which is consumed if it suits. -/
theorem taking
    (hyes : ∀ x, t x.kind = true → ∃ b, Prompt s (k - 1) (n - 1) b (v (some x)) (v' (some x)) ∧
      ∀ ts, Matches b ts → Matches e (x :: ts))
    (hno : Prompt s k n e (v none) (v' none)) :
    Prompt s k n e (acceptIf t >>= v) (acceptIf t >>= v') where
  grows := grows_taking (fun x hx => (hyes x hx).choose_spec.1.grows) hno.grows
  grows' := grows_taking (fun x hx => (hyes x hx).choose_spec.1.grows') hno.grows'
  reaches c hc := by
    rcases next_cases t c with hhead | ⟨x, ts, hrest, ht⟩
    · have hnone {us rest rest' : List Token} (hrest : c.rest = us ++ rest)
          (h : rest'.head? = rest.head?) :
          (acceptIf t >>= v') (c.over (us ++ rest')) = v' none (c.over (us ++ rest')) := by
        apply acceptIf_none
        intro x hx
        have hx : x ∈ (us ++ rest').head? := hx
        rw [head?_append_congr h, ← hrest] at hx
        exact hhead x hx
      rw [acceptIf_none hhead]
      have hr := hno.reaches c hc
      generalize v none c = r at hr
      cases hr with
      | ok hrest hk hus hreports hmild hfinish hsame =>
        refine .ok hrest hk hus hreports hmild hfinish fun rest hlen h => ?_
        rw [hnone hrest h]
        exact hsame rest hlen h
      | stuck hrest hus hr hsame =>
        refine .stuck hrest hus hr fun rest hlen h => ?_
        rw [hnone hrest h]
        exact hsame rest hlen h
    · obtain ⟨b, hb, he⟩ := hyes x ht
      rw [acceptIf_some hrest ht]
      have hlen : ts.length + 1 ≤ n := by rwa [hrest] at hc
      have hr := hb.reaches (c.over ts) (Nat.le_sub_one_of_lt hlen)
      generalize v (some x) (c.over ts) = r at hr
      cases hr with
      | @ok y d us mild hts hk hus hreports hmild hfinish hsame =>
        have hts : c.rest = x :: us ++ d.rest := hrest.trans (congrArg (x :: ·) hts)
        refine .ok hts ?_ (he _ hus) hreports hmild hfinish fun rest hlen' h => ?_
        · rw [List.length_cons]
          omega
        · have hmore : (c.over (x :: us ++ rest)).rest = x :: (us ++ rest) := rfl
          rw [acceptIf_some hmore ht]
          rw [List.cons_append, List.length_cons] at hlen'
          exact hsame rest (by omega) h
      | @stuck _ us rest cause hts hus hr hsame =>
        have hts : c.rest = x :: us ++ rest := hrest.trans (congrArg (x :: ·) hts)
        obtain ⟨vs, hvs⟩ := hus
        refine .stuck hts ⟨vs, he _ hvs⟩ hr fun rest' hlen' h => ?_
        have hmore : (c.over (x :: us ++ rest')).rest = x :: (us ++ rest') := rfl
        rw [acceptIf_some hmore ht]
        rw [List.cons_append, List.length_cons] at hlen'
        exact hsame rest' (by omega) h

/-- A choice between two ways to go on, one of them behind a token of the kind. -/
theorem accepting {j : Kind} (hp : Prompt s (k - 1) (n - 1) a p p') (hq : Prompt s k n b q q')
    (ha : ∀ t ts, t.kind = j → Matches a ts → Matches e (t :: ts))
    (hb : ∀ ts, Matches b ts → Matches e ts) :
    Prompt s k n e (do if ← accept j then p else q) (do if ← accept j then p' else q') := by
  simp only [accept, accept?, bind_assoc, pure_bind]
  exact taking (fun x hx => ⟨a, hp, fun ts => ha x ts (beq_iff_eq.1 hx)⟩) (hq.mono hb)

theorem expect (s n : Nat) (x : Expectation) :
    Prompt s 1 n (.kind x.kind) (Grammar.expect x) (Grammar.expect x) := by
  apply taking
  · intro t ht
    refine ⟨.empty, pure s _ t, fun ts hts => ?_⟩
    cases hts
    exact .kind (beq_iff_eq.1 ht)
  · exact fail s 1 n _ rfl

end Taking

theorem map {f : α → β} (hp : Prompt s k n e p p') : Prompt s k n e (f <$> p) (f <$> p') := by
  rw [map_eq_pure_bind, map_eq_pure_bind]
  exact (hp.andThen (k := 0) fun x => pure s _ (f x)).mono fun _ => matches_seq_empty.1

/-- What is passed over was blamed before. -/
theorem recovering (hp : Prompt s k n e p p') :
    Prompt s k n e (Grammar.recovering p) (Grammar.recovering p') where
  grows := hp.grows.recovering
  grows' := hp.grows'.recovering
  reaches c hc := by
    have hr := hp.reaches c hc
    cases hpc : p c with
    | ok x d =>
      rw [hpc] at hr
      rw [recovering_apply, hpc]
      cases hr with
      | ok hrest hk hus hreports hmild hfinish hsame =>
        refine .ok hrest hk hus hreports hmild hfinish fun rest hlen hhead => ?_
        rw [recovering_apply, hsame rest hlen hhead]
      | stuck hrest hus hr hsame =>
        exact .stuck hrest hus hr fun rest hlen hhead => (hsame rest hlen hhead).recovering
    | error d c' =>
      rw [hpc] at hr
      cases hr with
      | stuck hrest hus hr hsame =>
        refine .stuck hrest hus ?_ fun rest hlen hhead => (hsame rest hlen hhead).recovering
        rw [← hpc] at hr
        exact hr.recovering

end Prompt

end Lox.Grammar
