import Lox.Proofs.Grammar.Indexed
import Lox.Proofs.Grammar.Step

/-!
# Reading by position is reading

A reader by position mirrors a step if it comes to the same wherever it stands before the first
end of the input, whatever is behind that, and ends where the step does. So it asks for no
token outside of the list, and with a bound above the number of tokens that are left it does
not reach the bound. There is one rule for each way in which steps are put together.
-/

set_option autoImplicit false

namespace Lox.Grammar

open Indexed (Walk Halt)

/-- What is behind the end of the input: tokens, and how far from that end the fence is. -/
structure Tail where
  tokens : List Token
  room : Nat

/-- The state of a reader by position that stands behind the tokens `done`. -/
def Cursor.indexed (c : Cursor) (done : List Token) (after : Tail) : Indexed.State where
  tokens := done ++ c.rest ++ c.finish :: after.tokens
  fence := done.length + c.rest.length + after.room
  current := done.length
  nextId := c.nextId
  reports := c.reports

/-- The end of the input is where the cursor has it. -/
structure Cursor.Ended (c : Cursor) : Prop where
  rest : ∀ t ∈ c.rest, t.kind ≠ .finish
  finish : c.finish.kind = .finish

variable {α β γ δ : Type}

/-- What a reader by position comes to is what the step comes to, up to `h`, and it ends where
the step ends, not before where they started. -/
inductive Echoes (h : β → α) (done : List Token) (after : Tail) (c : Cursor) :
    EStateM.Result Halt Indexed.State α → EStateM.Result Diagnostic Cursor β → Prop
  | ok {b : β} {taken : List Token} {c' : Cursor} (hr : c.rest = taken ++ c'.rest)
      (hf : c'.finish = c.finish) :
      Echoes h done after c (.ok (h b) (c'.indexed (done ++ taken) after)) (.ok b c')
  | fault {d : Diagnostic} {taken : List Token} {c' : Cursor} (hr : c.rest = taken ++ c'.rest)
      (hf : c'.finish = c.finish) :
      Echoes h done after c (.error (.fault d) (c'.indexed (done ++ taken) after)) (.error d c')

/-- With at most `b` tokens left, reading by position comes to what the step comes to. -/
def MirrorsBy (h : β → α) (b : Nat) (w : Walk α) (p : Step β) : Prop :=
  ∀ done after c, c.Ended → c.rest.length ≤ b →
    Echoes h done after c (w (c.indexed done after)) (p c)

abbrev Mirrors (b : Nat) (w : Walk α) (p : Step α) : Prop := MirrorsBy id b w p

/-- As `MirrorsBy`, with at least one token left. -/
def MirrorsSome (h : β → α) (b : Nat) (w : Walk α) (p : Step β) : Prop :=
  ∀ done after c, c.Ended → c.rest.length ≤ b → c.rest ≠ [] →
    Echoes h done after c (w (c.indexed done after)) (p c)

/-- As `MirrorsBy`, right behind the token `t`. -/
def MirrorsBehind (t : Token) (h : β → α) (b : Nat) (w : Walk α) (p : Step β) : Prop :=
  ∀ done after c, c.Ended → c.rest.length ≤ b →
    Echoes h (done ++ [t]) after c (w (c.indexed (done ++ [t]) after)) (p c)

theorem Cursor.Ended.later {c c' : Cursor} (h : c.Ended) {taken : List Token}
    (hr : c.rest = taken ++ c'.rest) (hf : c'.finish = c.finish) : c'.Ended where
  rest t ht := h.rest t (hr ▸ List.mem_append_right taken ht)
  finish := hf ▸ h.finish

theorem Cursor.Ended.next {c : Cursor} (h : c.Ended) {t : Token} {ts : List Token}
    (hr : c.rest = t :: ts) : Cursor.Ended { c with rest := ts } :=
  ⟨fun u hu => h.rest u (hr ▸ List.mem_cons_of_mem t hu), h.finish⟩

section Positions

variable {c : Cursor} {done : List Token} {after : Tail}

theorem walk_bind (w : Walk α) (f : α → Walk β) (s : Indexed.State) :
    (w >>= f) s = match w s with
      | .ok a s' => f a s'
      | .error halt s' => .error halt s' := by
  simp only [bind, EStateM.bind]
  cases w s <;> rfl

theorem walk_ite_bind (test : Bool) (wp wq : Walk α) (f : α → Walk β) :
    (if test = true then wp else wq) >>= f = if test = true then wp >>= f else wq >>= f := by
  cases test <;> rfl

theorem walk_pure (a : α) (s : Indexed.State) : (pure a : Walk α) s = .ok a s := rfl

theorem peek_indexed : Indexed.peek (c.indexed done after) = .ok c.peek (c.indexed done after) := by
  obtain ⟨rest, finish, n, reports⟩ := c
  cases rest <;> simp [Indexed.peek, Cursor.indexed, Cursor.peek]

theorem previous_indexed (t : Token) :
    Indexed.previous (c.indexed (done ++ [t]) after) = .ok t (c.indexed (done ++ [t]) after) := by
  simp [Indexed.previous, Cursor.indexed]

theorem isAtEnd_indexed (h : c.Ended) :
    Indexed.isAtEnd (c.indexed done after) = .ok c.rest.isEmpty (c.indexed done after) := by
  simp only [Indexed.isAtEnd, walk_bind, peek_indexed, walk_pure]
  obtain ⟨rest, finish, n, reports⟩ := c
  cases rest with
  | nil =>
    have hf : finish.kind = .finish := h.finish
    simp [Cursor.peek, hf]
  | cons t ts =>
    have ht : t.kind ≠ .finish := h.rest t List.mem_cons_self
    simp [Cursor.peek, ht]

theorem check_indexed (h : c.Ended) (k : Kind) : Indexed.check k (c.indexed done after) =
    .ok (c.rest.head?.any (·.kind == k)) (c.indexed done after) := by
  simp only [Indexed.check, walk_bind, isAtEnd_indexed h]
  obtain ⟨rest, finish, n, reports⟩ := c
  cases rest with
  | nil => rfl
  | cons t ts => simp [walk_bind, peek_indexed, walk_pure, Cursor.peek]

theorem checkAny_indexed (h : c.Ended) (ks : List Kind) :
    Indexed.checkAny ks (c.indexed done after) =
      .ok (c.rest.head?.any fun t => decide (t.kind ∈ ks)) (c.indexed done after) := by
  induction ks with
  | nil =>
    cases hr : c.rest.head? <;> simp [Indexed.checkAny, walk_pure]
  | cons k ks ih =>
    simp only [Indexed.checkAny, walk_bind, check_indexed h]
    cases hr : c.rest.head? with
    | none => simpa [hr] using ih
    | some t =>
      by_cases ht : t.kind = k
      · simp [ht, walk_pure]
      · simpa [hr, ht] using ih

variable {t : Token} {ts : List Token} {finish : Token} {n : Nat} {reports : Array Diagnostic}

theorem advance_indexed (h : (Cursor.mk (t :: ts) finish n reports).Ended) :
    Indexed.advance ((Cursor.mk (t :: ts) finish n reports).indexed done after) =
      .ok t ((Cursor.mk ts finish n reports).indexed (done ++ [t]) after) := by
  have hmove : Indexed.move ((Cursor.mk (t :: ts) finish n reports).indexed done after) =
      .ok () ((Cursor.mk ts finish n reports).indexed (done ++ [t]) after) := by
    simp [Indexed.move, Cursor.indexed, Nat.add_right_comm, Nat.add_assoc]
  simp only [Indexed.advance, walk_bind, isAtEnd_indexed h, hmove, List.isEmpty_cons,
    Bool.false_eq_true, if_false, previous_indexed]

theorem atClose_indexed (h : c.Ended) : Indexed.atClose (c.indexed done after) =
    .ok (c.rest.head?.any (·.kind == .mark .rightBrace) || c.rest.isEmpty) (c.indexed done after) := by
  simp only [Indexed.atClose, walk_bind, check_indexed h]
  cases c.rest.head?.any (·.kind == .mark .rightBrace) with
  | true => rfl
  | false => exact isAtEnd_indexed h

theorem failing_indexed (cause : ParseCause) :
    (Indexed.failing cause : Walk α) (c.indexed done after) =
      .error (.fault (fault cause c.peek)) (c.indexed done after) := by
  simp only [Indexed.failing, walk_bind, peek_indexed]
  rfl

theorem Cursor.indexed_inj {c₁ c₂ : Cursor} {taken₁ taken₂ : List Token}
    (hr₁ : c.rest = taken₁ ++ c₁.rest) (hr₂ : c.rest = taken₂ ++ c₂.rest)
    (hf₁ : c₁.finish = c.finish) (hf₂ : c₂.finish = c.finish)
    (h : c₁.indexed (done ++ taken₁) after = c₂.indexed (done ++ taken₂) after) : c₁ = c₂ := by
  have hlen : (done ++ taken₁).length = (done ++ taken₂).length := congrArg Indexed.State.current h
  have hrest : c₁.rest = c₂.rest := (List.append_inj (hr₁.symm.trans hr₂) (by simpa using hlen)).2
  have hid : c₁.nextId = c₂.nextId := congrArg Indexed.State.nextId h
  have hreports : c₁.reports = c₂.reports := congrArg Indexed.State.reports h
  obtain ⟨rest₁, finish₁, n₁, reports₁⟩ := c₁
  obtain ⟨rest₂, finish₂, n₂, reports₂⟩ := c₂
  simp_all

end Positions

namespace Echoes

variable {h : β → α} {done : List Token} {after : Tail} {c : Cursor}

/-- Nothing is consumed. -/
theorem here {b : β} (nextId : Nat) (reports : Array Diagnostic) :
    Echoes h done after c
      (.ok (h b) ({ c with nextId, reports }.indexed done after)) (.ok b { c with nextId, reports }) := by
  have hf : Echoes h done after c (.ok (h b) (Cursor.indexed { c with nextId, reports } (done ++ []) after))
      (.ok b { c with nextId, reports }) := .ok rfl rfl
  rwa [List.append_nil] at hf

theorem stop (d : Diagnostic) :
    Echoes h done after c (.error (.fault d) (c.indexed done after)) (.error d c) := by
  have hf : Echoes h done after c (.error (.fault d) (c.indexed (done ++ []) after)) (.error d c) :=
    .fault rfl rfl
  rwa [List.append_nil] at hf

/-- What follows behind tokens that were consumed. -/
theorem behind {r : EStateM.Result Halt Indexed.State α} {q : EStateM.Result Diagnostic Cursor β}
    {c' : Cursor} {taken : List Token} (hr : c.rest = taken ++ c'.rest) (hf : c'.finish = c.finish)
    (hrq : Echoes h (done ++ taken) after c' r q) : Echoes h done after c r q := by
  cases hrq with
  | ok hr' hf' =>
    rw [List.append_assoc]
    exact .ok (by rw [hr, hr', List.append_assoc]) (hf'.trans hf)
  | fault hr' hf' =>
    rw [List.append_assoc]
    exact .fault (by rw [hr, hr', List.append_assoc]) (hf'.trans hf)

/-- What is echoed is determined. -/
theorem unique {w : EStateM.Result Halt Indexed.State α} {r r' : EStateM.Result Diagnostic Cursor α}
    (h : Echoes id done after c w r) (h' : Echoes id done after c w r') : r = r' := by
  cases h with
  | ok hr hf =>
    generalize hw : EStateM.Result.ok _ _ = w at h'
    cases h' with
    | ok hr' hf' =>
      obtain ⟨rfl, hc⟩ := EStateM.Result.ok.inj hw
      rw [Cursor.indexed_inj hr hr' hf hf' hc]
      rfl
    | fault => cases hw
  | fault hr hf =>
    generalize hw : EStateM.Result.error _ _ = w at h'
    cases h' with
    | ok => cases hw
    | fault hr' hf' =>
      obtain ⟨hd, hc⟩ := EStateM.Result.error.inj hw
      cases hd
      rw [Cursor.indexed_inj hr hr' hf hf' hc]

end Echoes

section Rules

variable {h : β → α} {h' : δ → γ} {b : Nat} {w wp wq : Walk α} {p q : Step β}

namespace MirrorsBy

theorem mono {b' : Nat} (hp : MirrorsBy h b w p) (hb : b' ≤ b) : MirrorsBy h b' w p :=
  fun done after c hc hlen => hp done after c hc (hlen.trans hb)

theorem congr (hp : MirrorsBy h b w p) (hq : ∀ c : Cursor, c.rest.length ≤ b → p c = q c) :
    MirrorsBy h b w q :=
  fun done after c hc hlen => hq c hlen ▸ hp done after c hc hlen

theorem behind (hp : MirrorsBy h b w p) (t : Token) : MirrorsBehind t h b w p :=
  fun done after => hp (done ++ [t]) after

theorem pure (a : β) : MirrorsBy h b (Pure.pure (h a)) (Pure.pure a) :=
  fun _ _ c _ _ => .here c.nextId c.reports

theorem fail (cause : ParseCause) : MirrorsBy h b (Indexed.failing cause) (Grammar.fail cause) := by
  intro done after c _ _
  rw [failing_indexed]
  exact .stop _

theorem bind {f : α → Walk γ} {g : β → Step δ} (hp : MirrorsBy h b w p)
    (hf : ∀ a, MirrorsBy h' b (f (h a)) (g a)) : MirrorsBy h' b (w >>= f) (p >>= g) := by
  intro done after c hc hlen
  rw [walk_bind, bind_apply]
  have hpc := hp done after c hc hlen
  revert hpc
  generalize w _ = r, p c = r'
  rintro (@⟨a, taken, c', hr, hfin⟩ | @⟨d, taken, c', hr, hfin⟩)
  · have hle : c'.rest.length ≤ c.rest.length := by simp [hr]
    exact .behind hr hfin (hf a _ _ c' (hc.later hr hfin) (hle.trans hlen))
  · exact .fault hr hfin

/-- A step whose result is put behind what was there already. -/
theorem mapped {h'' : δ → α} {k : β → δ} (hp : MirrorsBy h b w p) (hk : ∀ a, h'' (k a) = h a) :
    MirrorsBy h'' b w (p >>= fun a => Pure.pure (k a)) := by
  intro done after c hc hlen
  rw [bind_apply]
  have hpc := hp done after c hc hlen
  revert hpc
  generalize w _ = r, p c = r'
  rintro (@⟨a, taken, c', hr, hfin⟩ | @⟨d, taken, c', hr, hfin⟩)
  · rw [← hk]
    exact .ok hr hfin
  · exact .fault hr hfin

theorem report (d : Diagnostic) : Mirrors b (Indexed.report d) (Grammar.report d) :=
  fun _ _ c _ _ => .here c.nextId (c.reports.push d)

theorem reportHere (cause : ParseCause) :
    Mirrors b (Indexed.reportHere cause) (Grammar.reportHere cause) := by
  intro done after c _ _
  simp only [Indexed.reportHere, walk_bind, peek_indexed]
  exact .here c.nextId (c.reports.push (fault cause c.peek))

theorem limit (cause : ParseCause) (count : Nat) :
    Mirrors b (Indexed.limit cause count) (Grammar.limit cause count) := by
  unfold Indexed.limit Grammar.limit
  split
  · exact reportHere cause
  · exact pure ()

theorem reference (t : Token) : Mirrors b (Indexed.reference t) (Grammar.reference t) :=
  fun _ _ c _ _ => .here (c.nextId + 1) c.reports

/-- The token before the next one is the one right behind which reading is. -/
theorem previous {t : Token} {f : Token → Walk α} (hp : MirrorsBy h b (f t) p) :
    MirrorsBehind t h b (Indexed.previous >>= f) p := by
  intro done after c hc hlen
  rw [walk_bind, previous_indexed]
  exact hp (done ++ [t]) after c hc hlen

end MirrorsBy

/-- A test by which reading goes on behind a token if its kind satisfies `s`. -/
def Takes (s : Kind → Bool) (test : Walk Bool) : Prop :=
  ∀ done after (c : Cursor), c.Ended → test (c.indexed done after) =
    match c.rest with
    | [] => .ok false (c.indexed done after)
    | t :: ts =>
      if s t.kind then .ok true ({ c with rest := ts }.indexed (done ++ [t]) after)
      else .ok false (c.indexed done after)

/-- A test that fails without a token left. -/
def FailsAtEnd (test : Walk Bool) : Prop :=
  ∀ done after (c : Cursor), c.Ended → c.rest = [] →
    test (c.indexed done after) = .ok false (c.indexed done after)

theorem Takes.failsAtEnd {s : Kind → Bool} {test : Walk Bool} (h : Takes s test) :
    FailsAtEnd test := by
  intro done after c hc hr
  rw [h done after c hc, hr]

theorem failsAtEnd_checkAny (ks : List Kind) : FailsAtEnd (Indexed.checkAny ks) := by
  intro done after c hc hr
  rw [checkAny_indexed hc, hr]
  rfl

theorem takes_matching (k : Kind) : Takes (· == k) (Indexed.matching k) := by
  intro done after c hc
  simp only [Indexed.matching, walk_bind, check_indexed hc]
  obtain ⟨rest, finish, n, reports⟩ := c
  cases rest with
  | nil => rfl
  | cons t ts =>
    by_cases ht : t.kind = k
    · simp [ht, walk_bind, advance_indexed hc, walk_pure]
    · simp [ht, walk_pure]

theorem takes_unaryOperator : Takes isUnaryOperator (do
    if ← Indexed.matching (.mark .bang) then return true else Indexed.matching (.mark .minus)) := by
  intro done after c hc
  rw [walk_bind, takes_matching _ done after c hc]
  cases hr : c.rest with
  | nil => simpa [hr] using takes_matching (.mark .minus) done after c hc
  | cons t ts =>
    by_cases ht : t.kind = .mark .bang
    · simp [ht, isUnaryOperator, walk_pure]
    · simpa [hr, ht, isUnaryOperator] using takes_matching (.mark .minus) done after c hc

section Matching

variable {t finish : Token} {ts done : List Token} {n : Nat} {reports : Array Diagnostic}
  {after : Tail}

theorem peek_bind_indexed {c : Cursor} (f : Token → Walk α) :
    (Indexed.peek >>= f) (c.indexed done after) = f c.peek (c.indexed done after) := by
  rw [walk_bind, peek_indexed]

theorem ite_matching_nil (hc : (Cursor.mk [] finish n reports).Ended) (k : Kind)
    (wp wq : Walk α) : (do if ← Indexed.matching k then wp else wq)
      ((Cursor.mk [] finish n reports).indexed done after) =
        wq ((Cursor.mk [] finish n reports).indexed done after) := by
  rw [walk_bind, (takes_matching k).failsAtEnd done after _ hc rfl]
  rfl

theorem ite_matching_cons (hc : (Cursor.mk (t :: ts) finish n reports).Ended) (k : Kind)
    (wp wq : Walk α) : (do if ← Indexed.matching k then wp else wq)
      ((Cursor.mk (t :: ts) finish n reports).indexed done after) =
        if t.kind = k then wp ((Cursor.mk ts finish n reports).indexed (done ++ [t]) after)
        else wq ((Cursor.mk (t :: ts) finish n reports).indexed done after) := by
  rw [walk_bind, takes_matching k done after _ hc]
  by_cases ht : t.kind = k <;> simp [ht]

end Matching

/-- What follows behind the next token. -/
theorem Echoes.behindNext {c : Cursor} {t : Token} {ts done : List Token} {after : Tail}
    {r : EStateM.Result Halt Indexed.State α} {q : EStateM.Result Diagnostic Cursor β}
    (hr : c.rest = t :: ts) (hrq : Echoes h (done ++ [t]) after { c with rest := ts } r q) :
    Echoes h done after c r q :=
  .behind (by exact hr) (by rfl) hrq

namespace MirrorsBy

theorem noneLeft {test : Walk Bool} (hs : FailsAtEnd test) (hq : MirrorsBy h 0 wq q) :
    MirrorsBy h 0 (do if ← test then wp else wq) q := by
  intro done after c hc hlen
  rw [walk_bind, hs done after c hc (List.length_eq_zero_iff.1 (Nat.le_zero.1 hlen))]
  exact hq done after c hc hlen

/-- Two ways to go on, behind a token that suits and without one. -/
theorem taking {s : Kind → Bool} {test : Walk Bool} {u : Option Token → Step β} (hs : Takes s test)
    (hp : ∀ t b', b = b' + 1 → MirrorsBehind t h b' wp (u (some t))) (hq : MirrorsBy h b wq (u none)) :
    MirrorsBy h b (do if ← test then wp else wq) (acceptIf s >>= u) := by
  intro done after c hc hlen
  rw [walk_bind, bind_apply, hs done after c hc]
  have hq' := hq done after c hc hlen
  unfold acceptIf
  cases hr : c.rest with
  | nil => exact hq'
  | cons t ts =>
    cases ht : s t.kind with
    | false => simpa [ht] using hq'
    | true =>
      have hlater : Cursor.Ended { c with rest := ts } := hc.next hr
      rw [hr] at hlen
      obtain ⟨b', rfl⟩ : ∃ b', b = b' + 1 := ⟨b - 1, by simp at hlen; omega⟩
      simp only [ht, if_true]
      exact .behindNext hr (hp t b' rfl done after _ hlater (by simpa using hlen))

theorem accepting {k : Kind} (hp : ∀ b', b = b' + 1 → MirrorsBy h b' wp p)
    (hq : MirrorsBy h b wq q) :
    MirrorsBy h b (do if ← Indexed.matching k then wp else wq) (do if ← accept k then p else q) := by
  have haccept : (do if ← accept k then p else q) =
      acceptIf (· == k) >>= fun o => if o.isSome then p else q := by
    simp only [accept, accept?, bind_assoc, pure_bind]
  rw [haccept]
  exact taking (takes_matching k) (fun t b' hb => (hp b' hb).behind t) hq

/-- Two ways to go on, behind a token of one of several kinds and without one. -/
theorem takingAny {s : Kind → Bool} {ks : List Kind} {f : Token → Walk α} {u : Option Token → Step β}
    (hs : ∀ k, s k = true ↔ k ∈ ks) (hp : ∀ t b', b = b' + 1 → MirrorsBy h b' (f t) (u (some t)))
    (hq : MirrorsBy h b wq (u none)) :
    MirrorsBy h b (do if ← Indexed.checkAny ks then Indexed.advance >>= f else wq)
      (acceptIf s >>= u) := by
  intro done after c hc hlen
  rw [walk_bind, bind_apply, checkAny_indexed hc]
  have hq' := hq done after c hc hlen
  obtain ⟨rest, finish, n, reports⟩ := c
  cases rest with
  | nil => exact hq'
  | cons t ts =>
    by_cases ht : t.kind ∈ ks
    · obtain ⟨b', rfl⟩ : ∃ b', b = b' + 1 := ⟨b - 1, by simp at hlen; omega⟩
      have hst := (hs t.kind).2 ht
      simp only [List.head?_cons, Option.any_some, ht, decide_true, if_true, walk_bind,
        advance_indexed hc, acceptIf_yes hst]
      exact .behindNext rfl (hp t b' rfl _ after _ (hc.next rfl)
        (by simpa using hlen))
    · have hst : s t.kind = false := by simpa [ht] using mt (hs t.kind).1
      simpa [acceptIf, hst, ht] using hq'

/-- Behind a token that has to be there. -/
theorem consuming {e : Expectation} {f : Token → Walk α} {g : Token → Step β}
    (hf : ∀ t b', b = b' + 1 → MirrorsBy h b' (f t) (g t)) :
    MirrorsBy h b (Indexed.consume e >>= f) (expect e >>= g) := by
  intro done after c hc hlen
  rw [walk_bind, bind_apply, Indexed.consume, walk_bind, check_indexed hc, expect, bind_apply]
  obtain ⟨rest, finish, n, reports⟩ := c
  cases rest with
  | nil =>
    rw [accept?_no (by simp)]
    simp only [List.head?_nil, Option.any_none, Bool.false_eq_true, ↓reduceIte, failing_indexed]
    exact .stop _
  | cons t ts =>
    by_cases ht : t.kind = e.kind
    · obtain ⟨b', rfl⟩ : ∃ b', b = b' + 1 := ⟨b - 1, by simp at hlen; omega⟩
      rw [accept?_yes ht]
      simp only [List.head?_cons, Option.any_some, ht, BEq.rfl, if_true, advance_indexed hc]
      exact .behindNext rfl (hf t b' rfl _ after _ (hc.next rfl)
        (by simpa using hlen))
    · rw [accept?_no (by simpa using ht)]
      simp only [List.head?_cons, Option.any_some, beq_false_of_ne ht, Bool.false_eq_true, if_false,
        failing_indexed]
      exact .stop _

theorem consume (e : Expectation) : Mirrors b (Indexed.consume e) (expect e) := by
  simpa using consuming (e := e) (f := Pure.pure) (g := Pure.pure) fun t _ _ => pure (h := id) t

theorem ifNext {k : Kind} (hp : MirrorsBy h b wp p) (hq : MirrorsBy h b wq q) :
    MirrorsBy h b (do if ← Indexed.check k then wp else wq) (do if ← nextIs k then p else q) := by
  intro done after c hc hlen
  rw [walk_bind, bind_apply, check_indexed hc]
  simp only [nextIs]
  split
  · exact hp done after c hc hlen
  · exact hq done after c hc hlen

theorem atEnd (hp : MirrorsBy h b wp p)
    (hq : MirrorsSome h b wq q) :
    MirrorsBy h b (do if ← Indexed.isAtEnd then wp else wq) (do if ← Grammar.atEnd then p else q) := by
  intro done after c hc hlen
  rw [walk_bind, bind_apply, isAtEnd_indexed hc]
  simp only [Grammar.atEnd]
  cases hr : c.rest with
  | nil => exact hp done after c hc hlen
  | cons t ts => exact hq done after c hc hlen (by simp [hr])

theorem atClose (hp : MirrorsBy h b wp p)
    (hq : MirrorsSome h b wq q) :
    MirrorsBy h b (do if ← Indexed.atClose then wp else wq) (do if ← endsBlock then p else q) := by
  intro done after c hc hlen
  rw [walk_bind, bind_apply, atClose_indexed hc, endsBlock_apply]
  cases hend : c.rest.head?.any (·.kind == .mark .rightBrace) || c.rest.isEmpty with
  | true => exact hp done after c hc hlen
  | false => exact hq done after c hc hlen fun hnil => by simp [hnil] at hend

theorem atEnd_zero (hp : MirrorsBy h 0 wp p) :
    MirrorsBy h 0 (do if ← Indexed.isAtEnd then wp else wq) p := by
  intro done after c hc hlen
  rw [walk_bind, isAtEnd_indexed hc, List.length_eq_zero_iff.1 (Nat.le_zero.1 hlen)]
  exact hp done after c hc hlen

theorem atClose_zero (hp : MirrorsBy h 0 wp p) :
    MirrorsBy h 0 (do if ← Indexed.atClose then wp else wq) p := by
  intro done after c hc hlen
  rw [walk_bind, atClose_indexed hc, List.length_eq_zero_iff.1 (Nat.le_zero.1 hlen)]
  exact hp done after c hc hlen

end MirrorsBy

namespace MirrorsSome

theorem of_mirrors (hp : MirrorsBy h b w p) : MirrorsSome h b w p :=
  fun done after c hc hlen _ => hp done after c hc hlen

/-- A step that consumes a token if it comes to a result leaves fewer for what follows. -/
theorem bind {f : α → Walk γ} {g : β → Step δ} (hp : MirrorsSome h b w p)
    (hless : ∀ {c c' : Cursor} {a : β}, c.rest ≠ [] → c.rest.length ≤ b → p c = .ok a c' →
      c'.rest.length < c.rest.length)
    (hf : ∀ a b', b = b' + 1 → MirrorsBy h' b' (f (h a)) (g a)) :
    MirrorsSome h' b (w >>= f) (p >>= g) := by
  intro done after c hc hlen hne
  rw [walk_bind, bind_apply]
  have hpc := hp done after c hc hlen hne
  have hlt {a : β} {c' : Cursor} : p c = .ok a c' → c'.rest.length < c.rest.length := hless hne hlen
  revert hpc hlt
  generalize w _ = r, p c = r'
  rintro (@⟨a, taken, c', hr, hfin⟩ | @⟨d, taken, c', hr, hfin⟩) hlt
  · have hlt : c'.rest.length < c.rest.length := hlt rfl
    obtain ⟨b', rfl⟩ : ∃ b', b = b' + 1 := ⟨b - 1, by omega⟩
    exact .behind hr hfin (hf a b' rfl _ _ c' (hc.later hr hfin) (by omega))
  · exact .fault hr hfin

end MirrorsSome

end Rules

end Lox.Grammar
