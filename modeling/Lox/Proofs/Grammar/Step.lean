import Lox.Proofs.Grammar.Derivation

/-!
# Running and bounding single steps

The first half executes the elementary steps on a cursor that is given by its parts.
The second half says of a step what it can have consumed: `Sound p L` bounds the result
of `p` by a relation `L` between the value, the tokens consumed, the tokens left and the
identities taken. Nothing is said of what was consumed if something was reported, but
reports and identities never become fewer. There is one rule for each way in which steps
are put together.
-/

set_option autoImplicit false

namespace Lox.Grammar

variable {α β : Type}

theorem bind_apply (p : Step α) (f : α → Step β) (c : Cursor) :
    (p >>= f) c = match p c with
      | .ok a c' => f a c'
      | .error d c' => .error d c' := by
  simp only [bind, EStateM.bind]
  cases p c <;> rfl

theorem map_apply (f : α → β) (p : Step α) (c : Cursor) :
    (f <$> p) c = match p c with
      | .ok a c' => .ok (f a) c'
      | .error d c' => .error d c' := by
  simp only [Functor.map, EStateM.map]
  cases p c <;> rfl

theorem pure_apply (a : α) (c : Cursor) : (pure a : Step α) c = .ok a c := rfl

/-- A choice in front of a step can be made on its own. -/
theorem ifM_bind (b : Step Bool) (p q : Step α) (f : α → Step β) :
    (do
      let a ← if ← b then p else q
      f a) = (do if ← b then p else q) >>= f := by
  rw [bind_assoc]
  congr
  funext b
  cases b <;> rfl

theorem callArguments_eq (inner : Step Expr) (n : Nat) :
    callArguments inner n = (do
      let args ← (do if ← nextIs (.mark .rightParen) then pure [] else argumentsFrom inner n 0)
      let c ← expect .closeArguments
      return (args, c)) :=
  ifM_bind ..

theorem varDeclaration_eq (expr : Step Expr) :
    varDeclaration expr = (do
      let x ← expect .variableName
      let i ← (do if ← accept (.mark .equal) then some <$> expr else pure none)
      let _ ← expect .endOfVariable
      return .var x i) := by
  unfold varDeclaration
  congr
  funext x
  exact ifM_bind ..

theorem ifStatement_eq (expr : Step Expr) (inner : Step Stmt) :
    ifStatement expr inner = (do
      let _ ← expect .openIf
      let e ← expr
      let _ ← expect .closeIf
      let yes ← inner
      let no ← (do if ← accept (.word .else) then some <$> inner else pure none)
      return .if e yes no) := by
  unfold ifStatement
  congr
  funext _
  congr
  funext _
  congr
  funext _
  congr
  funext _
  exact ifM_bind ..

theorem routine_eq (r : Routine) (body : Step (List Stmt)) (n : Nat) :
    routine r body n = (do
      let x ← expect (.routineName r)
      let _ ← expect (.openParameters r)
      let ps ← (do if ← nextIs (.mark .rightParen) then pure [] else parametersFrom n 0)
      let _ ← expect .closeParameters
      let _ ← expect (.openBody r)
      return .mk x ps (← closedBy body)) := by
  unfold routine
  congr
  funext x
  congr
  funext _
  exact ifM_bind ..

/-- A declaration, read without going on behind a fault. -/
def declaring (n : Nat) (inner : Step Stmt) (body : Step (List Stmt)) : Step Stmt := do
  if ← accept (.word .class) then classDeclaration body n
  else if ← accept (.word .fun) then Stmt.function <$> routine .function body n
  else if ← accept (.word .var) then varDeclaration (expression n)
  else statementWith (expression n) inner body

theorem declarationWith_eq (n : Nat) (inner : Step Stmt) (body : Step (List Stmt)) :
    declarationWith n inner body = recovering (declaring n inner body) := rfl

section Running

variable {t : Token} {ts : List Token} {finish : Token} {n : Nat} {reports : Array Diagnostic}

theorem acceptIf_yes {p : Kind → Bool} (ht : p t.kind = true) :
    acceptIf p ⟨t :: ts, finish, n, reports⟩ = .ok (some t) ⟨ts, finish, n, reports⟩ := by
  simp [acceptIf, ht]

theorem acceptIf_no {p : Kind → Bool} (ht : ∀ t ∈ ts.head?, p t.kind = false) :
    acceptIf p ⟨ts, finish, n, reports⟩ = .ok none ⟨ts, finish, n, reports⟩ := by
  cases ts with
  | nil => rfl
  | cons t ts => simp [acceptIf, ht t rfl]

theorem accept?_yes {k : Kind} (ht : t.kind = k) :
    accept? k ⟨t :: ts, finish, n, reports⟩ = .ok (some t) ⟨ts, finish, n, reports⟩ :=
  acceptIf_yes (by simp [ht])

theorem accept?_no {k : Kind} (ht : ∀ t ∈ ts.head?, t.kind ≠ k) :
    accept? k ⟨ts, finish, n, reports⟩ = .ok none ⟨ts, finish, n, reports⟩ :=
  acceptIf_no (by simpa using ht)

theorem accept_yes {k : Kind} (ht : t.kind = k) :
    accept k ⟨t :: ts, finish, n, reports⟩ = .ok true ⟨ts, finish, n, reports⟩ := by
  simp [accept, bind_apply, accept?_yes ht, pure_apply]

theorem accept_no {k : Kind} (ht : ∀ t ∈ ts.head?, t.kind ≠ k) :
    accept k ⟨ts, finish, n, reports⟩ = .ok false ⟨ts, finish, n, reports⟩ := by
  simp [accept, bind_apply, accept?_no ht, pure_apply]

theorem expect_yes {e : Expectation} (ht : t.kind = e.kind) :
    expect e ⟨t :: ts, finish, n, reports⟩ = .ok t ⟨ts, finish, n, reports⟩ := by
  simp [expect, bind_apply, accept?_yes ht, pure_apply]

theorem nextIs_yes {k : Kind} (ht : t.kind = k) :
    nextIs k ⟨t :: ts, finish, n, reports⟩ = .ok true ⟨t :: ts, finish, n, reports⟩ := by
  simp [nextIs, ht]

theorem nextIs_no {k : Kind} (ht : ∀ t ∈ ts.head?, t.kind ≠ k) :
    nextIs k ⟨ts, finish, n, reports⟩ = .ok false ⟨ts, finish, n, reports⟩ := by
  cases ts with
  | nil => rfl
  | cons t ts => simpa [nextIs] using ht t rfl

theorem atEnd_apply :
    atEnd ⟨ts, finish, n, reports⟩ = .ok ts.isEmpty ⟨ts, finish, n, reports⟩ := rfl

theorem endsBlock_apply (c : Cursor) :
    endsBlock c = .ok (c.rest.head?.any (·.kind == .mark .rightBrace) || c.rest.isEmpty) c := rfl

theorem reference_apply :
    reference t ⟨ts, finish, n, reports⟩ = .ok ⟨n, t⟩ ⟨ts, finish, n + 1, reports⟩ := rfl

/-- The cursor with which reading goes on after a fault. -/
def Cursor.passOver (c : Cursor) (d : Diagnostic) : Cursor where
  rest := match c.rest with
    | [] => []
    | t :: ts => boundary t ts
  finish := c.finish
  nextId := c.nextId
  reports := c.reports.push d

@[simp] theorem Cursor.passOver_reports (c : Cursor) (d : Diagnostic) :
    (c.passOver d).reports = c.reports.push d := rfl

theorem recovering_apply (p : Step α) (c : Cursor) :
    recovering p c = match p c with
      | .ok a c' => .ok (some a) c'
      | .error d c' => .ok none (c'.passOver d) := by
  have h : recovering p c = match (some <$> p) c with
      | .ok a c' => .ok a c'
      | .error d c' => (do report d; synchronize; return none : Step (Option α)) c' := by
    simp only [recovering, tryCatch, tryCatchThe, MonadExceptOf.tryCatch]
    delta EStateM.tryCatch
    simp only [EStateM.Backtrackable.save]
    cases (some <$> p) c <;> rfl
  rw [h, map_apply]
  cases p c with
  | ok a c' => rfl
  | error d c' =>
    obtain ⟨rest, finish, n, reports⟩ := c'
    cases rest <;> rfl

end Running

/-- A relation between a value, the tokens consumed for it, the tokens left, and the
first identity free before and after. -/
abbrev Language (α : Type) := α → List Token → List Token → Nat → Nat → Prop

/-- Reports and identities never become fewer. -/
def Cursor.Before (c c' : Cursor) : Prop :=
  c.reports.size ≤ c'.reports.size ∧ c.nextId ≤ c'.nextId

theorem Cursor.Before.refl (c : Cursor) : c.Before c := ⟨Nat.le_refl _, Nat.le_refl _⟩

theorem Cursor.Before.trans {c d e : Cursor} (h : c.Before d) (h' : d.Before e) : c.Before e :=
  ⟨Nat.le_trans h.1 h'.1, Nat.le_trans h.2 h'.2⟩

structure Sound (p : Step α) (L : Language α) : Prop where
  ok {c c' : Cursor} {a : α} : p c = .ok a c' → c.Before c' ∧
    (c'.reports.size = c.reports.size →
      ∃ ts, c.rest = ts ++ c'.rest ∧ L a ts c'.rest c.nextId c'.nextId)
  error {c c' : Cursor} {d : Diagnostic} : p c = .error d c' → c.Before c'

namespace Sound

variable {p q : Step α} {f : α → Step β} {L M : Language α}

theorem mono (hp : Sound p L) (h : ∀ a ts rest n k, L a ts rest n k → M a ts rest n k) :
    Sound p M where
  ok hc := by
    obtain ⟨hb, hl⟩ := hp.ok hc
    refine ⟨hb, fun hr => ?_⟩
    obtain ⟨ts, hts, ha⟩ := hl hr
    exact ⟨ts, hts, h _ _ _ _ _ ha⟩
  error := hp.error

theorem bind {M : α → Language β} (hp : Sound p L) (hf : ∀ a, Sound (f a) (M a)) :
    Sound (p >>= f) fun b ts rest n k => ∃ a us vs m, ts = us ++ vs ∧
      L a us (vs ++ rest) n m ∧ M a b vs rest m k where
  ok {c c'' b} hc := by
    rw [bind_apply] at hc
    cases hpc : p c with
    | error d c' => simp [hpc] at hc
    | ok a c' =>
      rw [hpc] at hc
      obtain ⟨hb, hl⟩ := hp.ok hpc
      obtain ⟨hb', hl'⟩ := (hf a).ok hc
      refine ⟨hb.trans hb', fun hr => ?_⟩
      obtain ⟨us, hus, ha⟩ := hl (by have := hb.1; have := hb'.1; omega)
      obtain ⟨vs, hvs, hm⟩ := hl' (by have := hb.1; have := hb'.1; omega)
      rw [hvs] at ha
      exact ⟨us ++ vs, by rw [hus, hvs, List.append_assoc], a, us, vs, _, rfl, ha, hm⟩
  error {c c'' d} hc := by
    rw [bind_apply] at hc
    cases hpc : p c with
    | error d' c' =>
      rw [hpc] at hc
      obtain ⟨rfl, rfl⟩ := EStateM.Result.error.inj hc
      exact hp.error hpc
    | ok a c' =>
      rw [hpc] at hc
      exact (hp.ok hpc).1.trans ((hf a).error hc)

theorem pure (a : α) :
    Sound (Pure.pure a) fun b ts _ n k => b = a ∧ ts = [] ∧ k = n where
  ok {c c' b} hc := by
    rw [pure_apply] at hc
    obtain ⟨rfl, rfl⟩ := EStateM.Result.ok.inj hc
    exact ⟨.refl _, fun _ => ⟨[], rfl, rfl, rfl, rfl⟩⟩
  error hc := by simp [pure_apply] at hc

theorem map (f : α → β) (hp : Sound p L) :
    Sound (f <$> p) fun b ts rest n k => ∃ a, b = f a ∧ L a ts rest n k := by
  rw [map_eq_pure_bind]
  refine (hp.bind fun a => Sound.pure (f a)).mono ?_
  rintro b ts rest n k ⟨a, us, vs, m, rfl, ha, rfl, rfl, rfl⟩
  exact ⟨a, rfl, by simpa using ha⟩

theorem fail (cause : ParseCause) (L : Language α) : Sound (Grammar.fail cause) L where
  ok hc := by simp [Grammar.fail] at hc
  error hc := by
    obtain ⟨-, rfl⟩ := EStateM.Result.error.inj hc
    exact .refl _

/-- A step that reports says nothing of what it consumes. -/
theorem report (d : Cursor → Diagnostic) (g : Cursor → α) (L : Language α) :
    Sound (fun c => .ok (g c) { c with reports := c.reports.push (d c) }) L where
  ok hc := by
    obtain ⟨-, rfl⟩ := EStateM.Result.ok.inj hc
    exact ⟨⟨by simp, Nat.le_refl _⟩, fun hr => by simp at hr⟩
  error hc := by simp at hc

theorem reference (t : Token) :
    Sound (Grammar.reference t) fun r ts _ n k => r = ⟨n, t⟩ ∧ ts = [] ∧ k = n + 1 where
  ok {c c' r} hc := by
    obtain ⟨rfl, rfl⟩ := EStateM.Result.ok.inj (hc.symm.trans reference_apply).symm
    exact ⟨⟨Nat.le_refl _, Nat.le_succ _⟩, fun _ => ⟨[], rfl, rfl, rfl, rfl⟩⟩
  error {c c' d} hc := by
    have h : Grammar.reference t c = .ok ⟨c.nextId, t⟩ { c with nextId := c.nextId + 1 } := rfl
    simp [h] at hc

theorem acceptIf (s : Kind → Bool) :
    Sound (Grammar.acceptIf s) fun o ts rest n k => k = n ∧
      match o with
      | some t => ts = [t] ∧ s t.kind = true
      | none => ts = [] ∧ ∀ t ∈ rest.head?, s t.kind = false where
  ok {c c' o} hc := by
    obtain ⟨ts, finish, n, reports⟩ := c
    cases ts with
    | nil =>
      rw [acceptIf_no (by simp)] at hc
      obtain ⟨rfl, rfl⟩ := EStateM.Result.ok.inj hc
      exact ⟨.refl _, fun _ => ⟨[], rfl, rfl, rfl, by simp⟩⟩
    | cons t ts =>
      cases ht : s t.kind with
      | true =>
        rw [acceptIf_yes ht] at hc
        obtain ⟨rfl, rfl⟩ := EStateM.Result.ok.inj hc
        exact ⟨⟨Nat.le_refl _, Nat.le_refl _⟩, fun _ => ⟨[t], rfl, rfl, rfl, ht⟩⟩
      | false =>
        have hno : ∀ u ∈ (t :: ts).head?, s u.kind = false := by simpa using ht
        rw [acceptIf_no hno] at hc
        obtain ⟨rfl, rfl⟩ := EStateM.Result.ok.inj hc
        exact ⟨.refl _, fun _ => ⟨[], rfl, rfl, rfl, hno⟩⟩
  error {c c' d} hc := by
    obtain ⟨ts, finish, n, reports⟩ := c
    simp only [Grammar.acceptIf] at hc
    split at hc
    · split at hc <;> cases hc
    · cases hc

theorem accept? (k : Kind) :
    Sound (Grammar.accept? k) fun o ts rest n m => m = n ∧
      match o with
      | some t => ts = [t] ∧ t.kind = k
      | none => ts = [] ∧ ∀ t ∈ rest.head?, t.kind ≠ k := by
  refine (Sound.acceptIf (· == k)).mono fun o ts rest n m h => ?_
  cases o <;> simpa using h

theorem accept (k : Kind) :
    Sound (Grammar.accept k) fun b ts rest n m => m = n ∧
      ((b = true ∧ ∃ t, ts = [t] ∧ t.kind = k) ∨
        (b = false ∧ ts = [] ∧ ∀ t ∈ rest.head?, t.kind ≠ k)) := by
  refine ((Sound.accept? k).bind fun o => Sound.pure o.isSome).mono ?_
  rintro b ts rest n m ⟨o, us, vs, j, rfl, ⟨rfl, ho⟩, rfl, rfl, rfl⟩
  cases o with
  | none => exact ⟨rfl, .inr ⟨rfl, by simpa using ho⟩⟩
  | some t => exact ⟨rfl, .inl ⟨rfl, t, by simpa using ho⟩⟩

theorem ifTaking_eq (s : Kind → Bool) (f : Token → Step α) (q : Step α) :
    (do if let some t ← Grammar.acceptIf s then f t else q) = (do
      match ← Grammar.acceptIf s with
      | some t => f t
      | none => q) := by
  congr
  funext o
  cases o <;> rfl

/-- Two ways to go on, with a token that suits and without one. -/
theorem taking (s : Kind → Bool) {f : Token → Step α} {L : Token → Language α}
    (hf : ∀ t, Sound (f t) (L t)) (hq : Sound q M) :
    Sound (do
        match ← Grammar.acceptIf s with
        | some t => f t
        | none => q) fun a ts rest n m =>
      (∃ t us, ts = t :: us ∧ s t.kind = true ∧ L t a us rest n m) ∨ M a ts rest n m := by
  have hm (o : Option Token) : Sound
      (match o with
        | some t => f t
        | none => q) fun a ts rest n m =>
      (∃ t, o = some t ∧ L t a ts rest n m) ∨ (o = none ∧ M a ts rest n m) := by
    cases o with
    | some t => exact (hf t).mono fun a ts rest n m h => .inl ⟨t, rfl, h⟩
    | none => exact hq.mono fun a ts rest n m h => .inr ⟨rfl, h⟩
  refine ((Sound.acceptIf s).bind hm).mono ?_
  rintro a ts rest n m ⟨o, us, vs, j, rfl, ⟨rfl, ho⟩, ⟨t, rfl, h⟩ | ⟨rfl, h⟩⟩
  · obtain ⟨rfl, ht⟩ := ho
    exact .inl ⟨t, vs, rfl, ht, h⟩
  · obtain ⟨rfl, -⟩ := ho
    exact .inr h

theorem expect (e : Expectation) :
    Sound (Grammar.expect e) fun t ts _ n k => k = n ∧ ts = [t] ∧ t.kind = e.kind := by
  have h : ∀ o : Option Token, Sound
      (match o with
        | some t => Pure.pure t
        | none => Grammar.fail (.missing e) : Step Token)
      fun t ts _ n k => o = some t ∧ ts = [] ∧ k = n := by
    rintro (_ | t)
    · exact Sound.fail _ _
    · exact (Sound.pure t).mono fun a ts rest n k ⟨ha, hts⟩ => ⟨by rw [ha], hts⟩
  refine ((Sound.accept? e.kind).bind h).mono ?_
  rintro t ts rest n k ⟨o, us, vs, m, rfl, ⟨rfl, ho⟩, rfl, rfl, rfl⟩
  exact ⟨rfl, by simpa using ho⟩

theorem nextIs (k : Kind) :
    Sound (Grammar.nextIs k) fun b ts rest n m => m = n ∧ ts = [] ∧
      (b = true ↔ ∃ t us, rest = t :: us ∧ t.kind = k) where
  ok {c c' b} hc := by
    obtain ⟨rfl, rfl⟩ := EStateM.Result.ok.inj hc
    refine ⟨.refl _, fun _ => ⟨[], rfl, rfl, rfl, ?_⟩⟩
    cases c.rest <;> simp
  error hc := by simp [Grammar.nextIs] at hc

theorem atEnd :
    Sound Grammar.atEnd fun b ts rest n m => m = n ∧ ts = [] ∧ b = rest.isEmpty where
  ok {c c' b} hc := by
    obtain ⟨rfl, rfl⟩ := EStateM.Result.ok.inj hc
    exact ⟨.refl _, fun _ => ⟨[], rfl, rfl, rfl, rfl⟩⟩
  error hc := by simp [Grammar.atEnd] at hc

/-- Two ways to go on, with and without a token of kind `k`. -/
theorem accepting (k : Kind) (hp : Sound p L) (hq : Sound q M) :
    Sound (do if ← Grammar.accept k then p else q) fun a ts rest n m =>
      (∃ t us, ts = t :: us ∧ t.kind = k ∧ L a us rest n m) ∨
        ((∀ t ∈ (ts ++ rest).head?, t.kind ≠ k) ∧ M a ts rest n m) := by
  have hb (b : Bool) : Sound (if b = true then p else q) fun a ts rest n m =>
      (b = true ∧ L a ts rest n m) ∨ (b = false ∧ M a ts rest n m) := by
    cases b with
    | true => exact hp.mono fun a ts rest n m h => .inl ⟨rfl, h⟩
    | false => exact hq.mono fun a ts rest n m h => .inr ⟨rfl, h⟩
  refine ((Sound.accept k).bind hb).mono ?_
  rintro a ts rest n m ⟨b, us, vs, j, rfl, ⟨rfl, ⟨rfl, t, rfl, ht⟩ | ⟨rfl, rfl, ht⟩⟩, h⟩
  · rcases h with ⟨-, h⟩ | ⟨h, -⟩
    · exact .inl ⟨t, vs, rfl, ht, h⟩
    · cases h
  · rcases h with ⟨h, -⟩ | ⟨-, h⟩
    · cases h
    · exact .inr ⟨ht, h⟩

/-- Two ways to go on, depending on what is seen without consuming anything. -/
theorem ifM {c : Step Bool} {B : Bool → List Token → Prop}
    (hc : Sound c fun b ts rest n m => m = n ∧ ts = [] ∧ B b rest) (hp : Sound p L)
    (hq : Sound q M) :
    Sound (do if ← c then p else q) fun a ts rest n m =>
      (B true (ts ++ rest) ∧ L a ts rest n m) ∨ (B false (ts ++ rest) ∧ M a ts rest n m) := by
  have hb (b : Bool) : Sound (if b = true then p else q) fun a ts rest n m =>
      (b = true ∧ L a ts rest n m) ∨ (b = false ∧ M a ts rest n m) := by
    cases b with
    | true => exact hp.mono fun a ts rest n m h => .inl ⟨rfl, h⟩
    | false => exact hq.mono fun a ts rest n m h => .inr ⟨rfl, h⟩
  refine (hc.bind hb).mono ?_
  rintro a ts rest n m ⟨b, us, vs, j, rfl, ⟨rfl, rfl, hb⟩, ⟨rfl, h⟩ | ⟨rfl, h⟩⟩
  · exact .inl ⟨hb, h⟩
  · exact .inr ⟨hb, h⟩

theorem ifNext (k : Kind) (hp : Sound p L) (hq : Sound q M) :
    Sound (do if ← Grammar.nextIs k then p else q) fun a ts rest n m =>
      L a ts rest n m ∨ M a ts rest n m := by
  refine (Sound.ifM (Sound.nextIs k) hp hq).mono ?_
  rintro a ts rest n m (⟨-, h⟩ | ⟨-, h⟩)
  · exact .inl h
  · exact .inr h

end Sound

end Lox.Grammar
