import Lox.Proofs.Grammar.Mirrored

/-!
# Any tokens with an end are read

Main statement: over a list of tokens with an end in it, reading by position comes to what
reading comes to, under every bound that is large enough. It does not move beyond the first end
and asks for no token outside of the list, each round of a loop that goes on has moved on, and
what fails fails with a diagnostic.
-/

set_option autoImplicit false

namespace Lox.Grammar

open Indexed (Walk State)

variable {α β γ σ : Type}

/-- The position of the first end of the input. -/
def firstEnd (tokens : List Token) : Nat := tokens.findIdx (·.kind == .finish)

namespace Indexed

/-- With a bound above twice the position `k`, and with no move beyond `k`, reading by position
comes to `r` and ends at `k` or before it. -/
def Reads (p : Nat → Walk α) (nextId : Nat) (tokens : List Token) (k : Nat) (r : Reading α) : Prop :=
  ∀ bound fence, 2 * k < bound → k ≤ fence →
    ∃ i ≤ k, reading (p bound) fence nextId tokens = .ok (r, i)

/-- A round that goes on from the state `s` has moved on, and not beyond `k`. -/
def Progresses (k : Nat) (s : State) (round : σ → Walk (σ ⊕ β)) : Prop :=
  ∀ a a' s', round a s = .ok (.inl a') s' → s.current < s'.current ∧ s'.current ≤ k

/-- Every loop progresses from `s`. -/
structure LoopsProgress (k : Nat) (s : State) (bound : Nat) : Prop where
  programLoop : Progresses k s (programRound bound)
  blockLoop : Progresses k s (blockRound (declaration bound))
  classLoop : Progresses k s (methodRound (block bound) bound)
  parameterLoop : Progresses k s parameterRound
  argumentLoop : Progresses k s (argumentRound (expression bound))
  synchronizeLoop : Progresses k s synchronizeRound

end Indexed

section Standing

/-- A list with an end in it, divided at the first one. -/
theorem exists_firstEnd {tokens : List Token} (h : ∃ t ∈ tokens, t.kind = .finish) :
    ∃ before finish after, tokens = before ++ finish :: after ∧
      (∀ t ∈ before, t.kind ≠ .finish) ∧ finish.kind = .finish ∧
        firstEnd tokens = before.length := by
  induction tokens with
  | nil => simp at h
  | cons t ts ih =>
    by_cases ht : t.kind = .finish
    · exact ⟨[], t, ts, rfl, by simp, ht, by simp [firstEnd, List.findIdx_cons, ht]⟩
    · obtain ⟨before, finish, after, rfl, hb, hf, hk⟩ := ih (by simpa [ht] using h)
      refine ⟨t :: before, finish, after, rfl, ?_, hf, ?_⟩
      · simpa [ht] using hb
      · have ht' : (t.kind == .finish) = false := by simpa using ht
        rw [firstEnd, List.findIdx_cons, ht', List.length_cons, ← hk]
        rfl

variable {before after : List Token} {finish : Token}

/-- A state that stands before the first end is one that a cursor stands for. -/
theorem exists_indexed (hb : ∀ t ∈ before, t.kind ≠ .finish) (hf : finish.kind = .finish) {s : State}
    (hs : s.tokens = before ++ finish :: after) (hk : s.current ≤ before.length)
    (hfence : before.length ≤ s.fence) :
    ∃ (c : Cursor) (done : List Token) (tail : Tail), s = c.indexed done tail ∧ c.Ended ∧
      done.length = s.current ∧ c.rest.length = before.length - s.current := by
  obtain ⟨tokens, fence, current, nextId, reports⟩ := s
  obtain rfl : tokens = before ++ finish :: after := hs
  refine ⟨⟨before.drop current, finish, nextId, reports⟩, before.take current,
    ⟨after, fence - before.length⟩, ?_, ⟨fun t ht => hb t (List.mem_of_mem_drop ht), hf⟩, ?_, ?_⟩
  · simp only [Cursor.indexed, List.take_append_drop, List.length_take, List.length_drop]
    dsimp only at hk hfence
    congr <;> omega
  · simpa using hk
  · simp

end Standing

section Rounds

variable {h : β → α} {b : Nat} {w : Walk α} {p : Step β}

/-- The state `s` is one along the tokens of `c`, behind one of them at least if `moved`. -/
def Along (moved : Prop) (done : List Token) (after : Tail) (c : Cursor) (s : State) : Prop :=
  ∃ (taken : List Token) (c' : Cursor), c.rest = taken ++ c'.rest ∧ c'.finish = c.finish ∧
    s = c'.indexed (done ++ taken) after ∧ (moved → taken ≠ [])

theorem Along.here {moved : Prop} {done : List Token} {after : Tail} {c : Cursor} (h : ¬ moved) :
    Along moved done after c (c.indexed done after) :=
  ⟨[], c, rfl, rfl, by rw [List.append_nil], fun hm => absurd hm h⟩

/-- With at most `b` tokens left, a reader that comes to a result has gone on along them, and by
a token at least if `P` holds of the result. -/
def Moves (b : Nat) (P : α → Prop) (w : Walk α) : Prop :=
  ∀ done after (c : Cursor), c.Ended → c.rest.length ≤ b → ∀ a s, w (c.indexed done after) = .ok a s →
    Along (P a) done after c s

theorem MirrorsBy.moves (hw : MirrorsBy h b w p) : Moves b (fun _ => False) w := by
  intro done after c hc hlen a s hok
  have hr := hw done after c hc hlen
  rw [hok] at hr
  generalize p c = q at hr
  cases hr with
  | ok hr hf => exact ⟨_, _, hr, hf, rfl, False.elim⟩

namespace Moves

variable {P : α → Prop} {Q : γ → Prop} {f : α → Walk γ}

theorem bind (hw : Moves b P w) (hf : ∀ a, Moves b Q (f a)) : Moves b Q (w >>= f) := by
  intro done after c hc hlen x s hok
  rw [walk_bind] at hok
  cases hwc : w (c.indexed done after) with
  | error halt s' => simp [hwc] at hok
  | ok a s' =>
    rw [hwc] at hok
    obtain ⟨taken, c', hr, hfin, rfl, -⟩ := hw done after c hc hlen a s' hwc
    have hle : c'.rest.length ≤ c.rest.length := by simp [hr]
    obtain ⟨more, c'', hr', hfin', rfl, hmore⟩ :=
      hf a (done ++ taken) after c' (hc.later hr hfin) (hle.trans hlen) x s hok
    exact ⟨taken ++ more, c'', by rw [hr, hr', List.append_assoc], hfin'.trans hfin,
      by rw [List.append_assoc], fun hx => by simp [hmore hx]⟩

/-- A round that goes on behind a token. -/
theorem ifMatching (k : Kind) (x : σ) (y : γ) :
    Moves b (·.isLeft)
      (do if ← Indexed.matching k then return .inl x else return .inr y : Walk (σ ⊕ γ)) := by
  intro done after c hc hlen a s hok
  obtain ⟨rest, finish, n, reports⟩ := c
  cases rest with
  | nil =>
    rw [ite_matching_nil hc] at hok
    cases hok
    exact .here Bool.false_ne_true
  | cons t ts =>
    rw [ite_matching_cons hc] at hok
    split at hok
    · cases hok
      exact ⟨[t], ⟨ts, finish, n, reports⟩, rfl, rfl, rfl, fun _ => List.cons_ne_nil t []⟩
    · cases hok
      exact .here Bool.false_ne_true

/-- A round that goes on behind something read, unless it is where the loop stops. -/
theorem unlessStopped {test : Walk Bool} {stops : Cursor → Bool}
    (ht : ∀ done after (c : Cursor), c.Ended →
      test (c.indexed done after) = .ok (stops c) (c.indexed done after))
    (hstops : ∀ c, c.rest = [] → stops c = true) (hw : MirrorsSome h b w p)
    (hless : ∀ {c c' : Cursor} {a : β}, c.rest ≠ [] → c.rest.length ≤ b → p c = .ok a c' →
      c'.rest.length < c.rest.length) (g : α → σ) (y : γ) :
    Moves b (·.isLeft)
      (do if ← test then return .inr y else return .inl (g (← w)) : Walk (σ ⊕ γ)) := by
  intro done after c hc hlen a s hok
  rw [walk_bind, ht done after c hc] at hok
  cases hstop : stops c with
  | true =>
    rw [hstop] at hok
    cases hok
    exact .here Bool.false_ne_true
  | false =>
    have hne : c.rest ≠ [] := fun hnil => by simp [hstops c hnil] at hstop
    have hr := hw done after c hc hlen hne
    simp only [hstop, Bool.false_eq_true, ↓reduceIte, walk_bind] at hok
    revert hr hok
    generalize hwc : w _ = r
    generalize hpc : p c = r'
    rintro (@⟨x, taken, c', hr, hfin⟩ | @⟨d, taken, c', hr, hfin⟩) hok
    · cases hok
      have hlt := hless hne hlen hpc
      refine ⟨taken, c', hr, hfin, rfl, fun _ hnil => ?_⟩
      simp [hr, hnil] at hlt
    · cases hok

end Moves

section Loops

variable {m : Nat}

/-- Reading a method consumes a token. -/
theorem length_of_routine {c d : Cursor} {f : Function} {n : Nat} (r : Routine)
    (hc : c.rest.length ≤ n + 1) (h : Grammar.routine r (declarations n) (n + 1) c = .ok f d) :
    d.rest.length < c.rest.length := by
  let S : Setting := ⟨⟨0, 0⟩, [], c.finish.shift ⟨0, 0⟩, #[], 0, True, fun _ => ⟨rfl, rfl⟩⟩
  have hbody := (Setting.Tracks.statement_declarations (S := S) n).2
  have hr := Setting.Tracks.routine (m := n + 1) (j := n + 1) r (by omega) hbody c (S.follower c) hc
    ⟨rfl, rfl, fun _ => rfl, rfl, rfl⟩
  rw [h] at hr
  generalize Grammar.routine r _ _ (S.follower c) = q at hr
  cases hr with
  | ok hd _ =>
    have hlen := hd.length
    omega
  | spent _ hx => exact absurd trivial hx

theorem moves_argumentRound (hm : b < m) (args : List Expr) :
    Moves b (·.isLeft) (Indexed.argumentRound (Indexed.expression m) args) := by
  refine (MirrorsBy.limit _ _).moves.bind fun _ => ?_
  exact (MirrorsBy.expression (n := b) le_rfl hm).moves.bind fun e => .ifMatching _ _ _

theorem moves_parameterRound (params : List Token) :
    Moves b (·.isLeft) (Indexed.parameterRound params) := by
  refine (MirrorsBy.limit _ _).moves.bind fun _ => ?_
  exact (MirrorsBy.consume _).moves.bind fun p => .ifMatching _ _ _

theorem moves_methodRound (hm : 2 * b < m) (methods : List Function) :
    Moves b (·.isLeft) (Indexed.methodRound (Indexed.block m) m methods) := by
  have hroutine : Mirrors b (Indexed.routine .method (Indexed.block m) m)
      (Grammar.routine .method (declarations b) (b + 1)) :=
    .routine .method (fun b' hb => (MirrorsBy.statement_block m (by omega)).2 (by omega))
      (by omega) (by omega)
  exact .unlessStopped (fun _ _ _ hc => atClose_indexed hc) (fun c hc => by simp [hc])
    (.of_mirrors hroutine) (fun _ hlen hf => length_of_routine .method (by omega) hf) _ methods

theorem moves_blockRound (hm : 2 * b < m) (stmts : List Stmt) :
    Moves b (·.isLeft) (Indexed.blockRound (Indexed.declaration m) stmts) :=
  .unlessStopped (fun _ _ _ hc => atClose_indexed hc) (fun c hc => by simp [hc])
    (MirrorsBy.declaration (n := b) (by omega) hm)
    (fun hne hlen ho => length_of_declaration hne (by omega) ho) _ stmts

theorem moves_programRound (hm : 2 * b < m) (stmts : List Stmt) :
    Moves b (·.isLeft) (Indexed.programRound m stmts) :=
  .unlessStopped (fun _ _ _ hc => isAtEnd_indexed hc) (fun c hc => by simp [hc])
    (MirrorsBy.declaration (n := b) (by omega) hm)
    (fun hne hlen ho => length_of_declaration hne (by omega) ho) _ stmts

/-- To look at the token before the next one is no move. -/
theorem previous_eq_ok {t : Token} {s s' : State} (h : Indexed.previous s = .ok t s') : s' = s := by
  unfold Indexed.previous at h
  split at h
  · cases h
  · split at h <;> cases h
    rfl

theorem moves_synchronizeRound (a : Unit) : Moves b (·.isLeft) (Indexed.synchronizeRound a) := by
  intro done after c hc hlen a s hok
  rw [Indexed.synchronizeRound, walk_bind, isAtEnd_indexed hc] at hok
  obtain ⟨rest, finish, n, reports⟩ := c
  cases rest with
  | nil =>
    cases hok
    exact .here Bool.false_ne_true
  | cons u us =>
    simp only [List.isEmpty_cons, Bool.false_eq_true, ↓reduceIte, walk_bind] at hok
    cases ht : Indexed.previous (Cursor.indexed ⟨u :: us, finish, n, reports⟩ done after) with
    | error halt s' => simp [ht] at hok
    | ok t s' =>
      obtain rfl := previous_eq_ok ht
      simp only [ht] at hok
      split at hok
      · cases hok
        exact .here Bool.false_ne_true
      · simp only [walk_bind, peek_indexed] at hok
        split at hok
        · cases hok
          exact .here Bool.false_ne_true
        · simp only [walk_bind, advance_indexed hc] at hok
          cases hok
          exact ⟨[u], ⟨us, finish, n, reports⟩, rfl, rfl, rfl, fun _ => by simp⟩

/-- What is said of rounds from where cursors stand, said of positions. -/
theorem Moves.progresses {round : σ → Walk (σ ⊕ γ)} (hr : ∀ a, Moves b (·.isLeft) (round a))
    {c : Cursor} (hc : c.Ended) (hlen : c.rest.length ≤ b) (done : List Token) (tail : Tail) :
    Indexed.Progresses (done.length + c.rest.length) (c.indexed done tail) round := by
  intro a a' s' hok
  obtain ⟨taken, c', hrest, -, rfl, hne⟩ := hr a done tail c hc hlen _ _ hok
  have hpos := List.length_pos_iff.2 (hne rfl)
  simp only [Cursor.indexed, hrest, List.length_append]
  omega

end Loops

end Rounds

section Readings

/-- Reading by position comes to what the step it mirrors comes to. -/
theorem MirrorsBy.reading {w : Walk α} {p : Nat → Step α} {before after : List Token}
    {finish : Token} (hb : ∀ t ∈ before, t.kind ≠ .finish) (hf : finish.kind = .finish)
    (hw : Mirrors before.length w (p before.length)) {fence : Nat} (hfence : before.length ≤ fence)
    (n : Nat) :
    ∃ i ≤ before.length, Indexed.reading w fence n (before ++ finish :: after) =
      .ok (Reading.ofStep p n (before ++ finish :: after), i) := by
  have hstart : (⟨before ++ finish :: after, fence, 0, n, #[]⟩ : State) =
      Cursor.indexed ⟨before, finish, n, #[]⟩ [] ⟨after, fence - before.length⟩ := by
    simp [Cursor.indexed]
    omega
  have hr := hw [] ⟨after, fence - before.length⟩ ⟨before, finish, n, #[]⟩ ⟨hb, hf⟩ le_rfl
  unfold Indexed.reading Reading.ofStep
  simp only [hstart, ofTokens_eq hb hf]
  revert hr
  generalize w _ = r, p before.length _ = r'
  rintro (@⟨a, taken, c', hr, -⟩ | @⟨d, taken, c', hr, -⟩)
  · exact ⟨taken.length, by simp [show before = _ from hr], rfl⟩
  · exact ⟨taken.length, by simp [show before = _ from hr], rfl⟩

/-- What fails fails with a diagnostic. -/
theorem ofStep_error_ne_nil (p : Nat → Step α) (n : Nat) (tokens : List Token) {ds : List Diagnostic}
    (h : (Reading.ofStep p n tokens).result = .error ds) : ds ≠ [] := by
  unfold Reading.ofStep at h
  dsimp only at h
  split at h
  · dsimp only at h
    split at h
    · cases h
    · rename_i hr
      cases h
      simpa using hr
  · cases h
    simp

end Readings

/-- Reading a list of tokens with an end in it, whatever stands before and behind the first end
and in which order, ends there or before, with a result or with at least one diagnostic. On the
way a round of a loop goes on only behind a token it has consumed. -/
theorem reads_any_tokens {tokens : List Token} (h : ∃ t ∈ tokens, t.kind = .finish) (n : Nat) :
    Indexed.Reads Indexed.program n tokens (firstEnd tokens) (readProgram n tokens) ∧
    Indexed.Reads Indexed.wholeExpression n tokens (firstEnd tokens) (readExpression n tokens) ∧
    (∀ (s : State) (bound : Nat), s.tokens = tokens → s.current ≤ firstEnd tokens →
      firstEnd tokens ≤ s.fence → 2 * (firstEnd tokens - s.current) < bound →
        Indexed.LoopsProgress (firstEnd tokens) s bound) ∧
    (∀ ds, (readProgram n tokens).result = .error ds → ds ≠ []) ∧
    (∀ ds, (readExpression n tokens).result = .error ds → ds ≠ []) := by
  obtain ⟨before, finish, after, rfl, hb, hf, hk⟩ := exists_firstEnd h
  rw [hk]
  refine ⟨fun m fence hm hfence => ?_, fun m fence hm hfence => ?_, fun s m hs hcur hfence hm => ?_,
    fun _ => ofStep_error_ne_nil _ n _, fun _ => ofStep_error_ne_nil _ n _⟩
  · exact MirrorsBy.reading hb hf (MirrorsBy.program le_rfl hm) hfence n
  · exact MirrorsBy.reading hb hf (MirrorsBy.wholeExpression le_rfl (by omega)) hfence n
  · obtain ⟨c, done, tail, rfl, hc, hdone, hrest⟩ := exists_indexed hb hf hs hcur hfence
    have hprogress {σ β : Type} {round : σ → Walk (σ ⊕ β)}
        (hr : ∀ a, Moves c.rest.length (·.isLeft) (round a)) :
        Indexed.Progresses before.length (c.indexed done tail) round := by
      have hend : done.length + c.rest.length = before.length := by omega
      exact hend ▸ Moves.progresses hr hc le_rfl done tail
    exact {
      programLoop := hprogress (moves_programRound (by omega))
      blockLoop := hprogress (moves_blockRound (by omega))
      classLoop := hprogress (moves_methodRound (by omega))
      parameterLoop := hprogress moves_parameterRound
      argumentLoop := hprogress (moves_argumentRound (by omega))
      synchronizeLoop := hprogress moves_synchronizeRound }

/-- A brace that closes nothing, a class without a name, and a word behind the end. -/
def garbage : List Token :=
  [⟨.mark .rightBrace, "\x7d", 1⟩, ⟨.word .class, "class", 1⟩, ⟨.mark .comma, ",", 1⟩,
    ⟨.finish, "", 2⟩, ⟨.word .print, "print", 3⟩]

theorem reads_garbage :
    (∃ i ≤ 3, Indexed.reading (Indexed.program 7) 3 0 garbage = .ok (readProgram 0 garbage, i)) ∧
      (readProgram 0 garbage).result = .error
        [fault .noExpression ⟨.mark .rightBrace, "\x7d", 1⟩,
          fault (.missing .className) ⟨.mark .comma, ",", 1⟩] := by
  have hend : ∃ t ∈ garbage, t.kind = .finish := ⟨⟨.finish, "", 2⟩, by simp [garbage], rfl⟩
  have hk : firstEnd garbage = 3 := by decide
  obtain ⟨i, hi, hr⟩ := (reads_any_tokens hend 0).1 7 3 (by rw [hk]; decide) hk.le
  exact ⟨⟨i, hk ▸ hi, hr⟩, rfl⟩

end Lox.Grammar
