import Lox.Proofs.Layout.World
import Lox.Proofs.Simulation.Effect

/-!
# Machines that match

Two machines match if scopes that correspond have twins under the same names, and all else is
the same up to twins. Two computations are in step if they end in the same way, both with a
value, both with the same fault or both at the bound, and on matching machines. The operations
on machines are in step wherever the scopes at hand stand around the same place.
-/

set_option autoImplicit false

namespace Lox.Layout

open Scoping
open Simulation (Sealed Outcome)

/-- Identities from `next` on are not taken yet. -/
structure Match (l : Layout) (next : Nat) (w : World) (m m' : Machine) : Prop where
  outer (i p : Nat) : w.outer i p → m.scopes.enclosing? i = some p
  outer' (i p : Nat) : w.outer' i p → m'.scopes.enclosing? i = some p
  lt (i i' : Nat) : w.pair i i' → i < m.scopes.next ∧ i' < m'.scopes.next
  unique (i i' j j' : Nat) : w.pair i i' → w.pair j j' → (i = j ↔ i' = j')
  global : w.pair Machine.global Machine.global
  own (i i' : Nat) : w.pair i i' → ∀ name,
    Option.Rel (ValueTwin l w) (m.scopes.own? i name) (m'.scopes.own? i' name)
  size : m'.instances.size = m.instances.size
  field (id : Nat) (name : String) :
    Option.Rel (ValueTwin l w) (m.field? id name) (m'.field? id name)
  serial : m'.serial = m.serial
  known (r : Reference) (d : Option Nat) : w.known r d → m.depths.get? r.id = d
  known' (r : Reference) (d : Option Nat) : w.known' r d → m'.depths.get? r.id = d
  taken (r : Reference) (d : Option Nat) : w.known r d ∨ w.known' r d → r.id < next
  unused (id : Nat) : next ≤ id → m.depths.get? id = none ∧ m'.depths.get? id = none
  hosts : m'.hosts = m.hosts
  closed : ∀ f ∈ m.hosts, Sealed f
  sink : m'.sink = m.sink
  clock : m'.clock = m.clock

variable {l : Layout} {next : Nat} {w : World} {m m' : Machine}

namespace Match

variable (hm : Match l next w m m') {fs fs' : Frames} {i i' : Nat}

include hm

theorem scope_lt (h : Around w fs fs' i i') : i < m.scopes.next ∧ i' < m'.scopes.next := by
  induction h with
  | global => exact hm.lt _ _ hm.global
  | both hp => exact hm.lt _ _ hp
  | left ho _ ih => exact ⟨Scopes.lt_next_of_enclosing (hm.outer _ _ ho), ih.2⟩
  | right ho' _ ih => exact ⟨ih.1, Scopes.lt_next_of_enclosing (hm.outer' _ _ ho')⟩

theorem pair (h : Level w fs fs' i i') : w.pair i i' := by
  cases h with
  | global => exact hm.global
  | both hp => exact hp

/-- Depths in the scopes around a place lead to scopes that correspond. -/
theorem find (h : Around w fs fs' i i') (name : String) :
    Option.Rel (fun d d' => ∃ a a', m.scopes.ancestor? d i = some a ∧
      m'.scopes.ancestor? d' i' = some a' ∧ w.pair a a') (depth? fs name) (depth? fs' name) := by
  induction h with
  | global => exact .none
  | @both f fs fs' i i' p p' hp ho ho' _ ih =>
    rw [depth?_cons, depth?_cons]
    split
    · exact .some ⟨i, i', rfl, rfl, hp⟩
    · generalize depth? fs name = o, depth? fs' name = o' at ih
      cases ih with
      | none => exact .none
      | some h =>
        obtain ⟨a, a', ha, ha', hpair⟩ := h
        exact .some ⟨a, a', by simpa only [Scopes.ancestor?, hm.outer _ _ ho] using ha,
          by simpa only [Scopes.ancestor?, hm.outer' _ _ ho'] using ha', hpair⟩
  | @left fs fs' i i' p ho _ ih =>
    rw [depth?_cons, if_neg (by simp [Frame.binds])]
    generalize depth? fs name = o, depth? fs' name = o' at ih
    cases ih with
    | none => exact .none
    | some h =>
      obtain ⟨a, a', ha, ha', hpair⟩ := h
      exact .some ⟨a, a', by simpa only [Scopes.ancestor?, hm.outer _ _ ho] using ha, ha', hpair⟩
  | @right fs fs' i i' p' ho' _ ih =>
    rw [depth?_cons, if_neg (by simp [Frame.binds])]
    generalize depth? fs name = o, depth? fs' name = o' at ih
    cases ih with
    | none => exact .none
    | some h =>
      obtain ⟨a, a', ha, ha', hpair⟩ := h
      exact .some ⟨a, a', ha, by simpa only [Scopes.ancestor?, hm.outer' _ _ ho'] using ha', hpair⟩

/-- A new scope of the first side. -/
theorem after_link {p : Nat} (hp : p < m.scopes.next) :
    Match l next (w.link m.scopes.next p) { m with scopes := m.scopes.push (some p) } m' :=
  { hm with
    outer := by
      rintro j q (ho | ⟨rfl, rfl⟩)
      · have hold := hm.outer j q ho
        exact (Scopes.enclosing?_push_of_lt _ _ (Scopes.lt_next_of_enclosing hold)).trans hold
      · exact Scopes.enclosing?_push_self _ hp
    lt := fun j j' hj => by
      rw [Scopes.next_push]
      exact ⟨Nat.lt_succ_of_lt (hm.lt j j' hj).1, (hm.lt j j' hj).2⟩
    own := fun j j' hj name => by
      rw [Scopes.own?_push]
      exact (hm.own j j' hj name).imp fun _ _ h => h.mono (w.extends_link _ _)
    field := fun id name => (hm.field id name).imp fun _ _ h => h.mono (w.extends_link _ _) }

/-- A new scope of the second side. -/
theorem after_link' {p : Nat} (hp : p < m'.scopes.next) :
    Match l next (w.link' m'.scopes.next p) m { m' with scopes := m'.scopes.push (some p) } :=
  { hm with
    outer' := by
      rintro j q (ho | ⟨rfl, rfl⟩)
      · have hold := hm.outer' j q ho
        exact (Scopes.enclosing?_push_of_lt _ _ (Scopes.lt_next_of_enclosing hold)).trans hold
      · exact Scopes.enclosing?_push_self _ hp
    lt := fun j j' hj => by
      rw [Scopes.next_push]
      exact ⟨(hm.lt j j' hj).1, Nat.lt_succ_of_lt (hm.lt j j' hj).2⟩
    own := fun j j' hj name => by
      rw [Scopes.own?_push]
      exact (hm.own j j' hj name).imp fun _ _ h => h.mono (w.extends_link' _ _)
    field := fun id name => (hm.field id name).imp fun _ _ h => h.mono (w.extends_link' _ _) }

/-- Two scopes in which nothing is bound may correspond. -/
theorem after_join (hi : i < m.scopes.next) (hi' : i' < m'.scopes.next)
    (hnew : ∀ j, ¬ w.pair i j) (hnew' : ∀ j, ¬ w.pair j i')
    (hown : ∀ name, m.scopes.own? i name = none) (hown' : ∀ name, m'.scopes.own? i' name = none) :
    Match l next (w.join i i') m m' :=
  { hm with
    lt := by
      rintro j j' (hj | ⟨rfl, rfl⟩)
      · exact hm.lt j j' hj
      · exact ⟨hi, hi'⟩
    unique := by
      rintro j j' k k' (hj | ⟨rfl, rfl⟩) (hk | ⟨rfl, rfl⟩)
      · exact hm.unique j j' k k' hj hk
      · exact iff_of_false (fun he => hnew j' (he ▸ hj)) fun he => hnew' j (he ▸ hj)
      · exact iff_of_false (fun he => hnew k' (he ▸ hk)) fun he => hnew' k (he ▸ hk)
      · exact iff_of_true rfl rfl
    global := .inl hm.global
    own := by
      rintro j j' (hj | ⟨rfl, rfl⟩) name
      · exact (hm.own j j' hj name).imp fun _ _ h => h.mono (w.extends_join _ _)
      · rw [hown, hown']
        exact .none
    field := fun id name => (hm.field id name).imp fun _ _ h => h.mono (w.extends_join _ _) }

theorem after_define (hp : w.pair i i') (name : String) {v v' : Value} (hv : ValueTwin l w v v') :
    Match l next w { m with scopes := m.scopes.define i name v }
      { m' with scopes := m'.scopes.define i' name v' } :=
  { hm with
    outer := fun j q ho => by
      rw [Scopes.enclosing?_define]
      exact hm.outer j q ho
    outer' := fun j q ho => by
      rw [Scopes.enclosing?_define]
      exact hm.outer' j q ho
    lt := by simpa only [Scopes.next_define] using hm.lt
    own := fun j j' hj other => by
      have hiff := hm.unique j j' i i' hj hp
      by_cases h : j = i ∧ other = name
      · obtain ⟨rfl, rfl⟩ := h
        obtain rfl := hiff.1 rfl
        obtain ⟨hlt, hlt'⟩ := hm.lt j j' hp
        rw [Scopes.own?_define_self _ _ _ hlt, Scopes.own?_define_self _ _ _ hlt']
        exact .some hv
      · have hne : j ≠ i ∨ other ≠ name := by tauto
        have hne' : j' ≠ i' ∨ other ≠ name := by tauto
        rw [Scopes.own?_define_of_ne _ _ hne, Scopes.own?_define_of_ne _ _ hne']
        exact hm.own j j' hj other }

end Match

/-- Both sides end in the same way, with what is asked for in a later world. -/
inductive Lockstep (l : Layout) (next : Nat) (w : World) {α β : Type} (Q : World → α → β → Prop) :
    Outcome α → Outcome β → Prop
  | ok {w' : World} {a : α} {a' : β} {m m' : Machine} (hw : w.Extends w')
      (hm : Match l next w' m m') (hq : Q w' a a') : Lockstep l next w Q (.ok a m) (.ok a' m')
  | fault {w' : World} {d : Diagnostic} {m m' : Machine} (hm : Match l next w' m m') :
      Lockstep l next w Q (.error (.fault d) m) (.error (.fault d) m')
  | exhausted {m m' : Machine} :
      Lockstep l next w Q (.error .exhausted m) (.error .exhausted m')

namespace Lockstep

variable {α β γ δ : Type} {Q : World → α → β → Prop} {R : World → γ → δ → Prop}

/-- Where both sides come to the same outcome by a step into a later world. -/
theorem later {w' : World} (hw : w.Extends w') {r : Outcome α} {r' : Outcome β}
    (h : Lockstep l next w' Q r r') : Lockstep l next w Q r r' := by
  cases h with
  | ok hw' hm hq => exact .ok (hw.trans hw') hm hq
  | fault hm => exact .fault hm
  | exhausted => exact .exhausted

theorem bind {p : Run α} {p' : Run β} {f : α → Run γ} {f' : β → Run δ}
    (hp : Lockstep l next w Q (p m) (p' m'))
    (hf : ∀ w' a a' n n', w.Extends w' → Match l next w' n n' → Q w' a a' →
      Lockstep l next w' R (f a n) (f' a' n')) :
    Lockstep l next w R ((p >>= f) m) ((p' >>= f') m') := by
  show Lockstep l next w R (EStateM.bind p f m) (EStateM.bind p' f' m')
  unfold EStateM.bind
  generalize p m = r, p' m' = r' at hp
  cases hp with
  | ok hw hm hq => exact (hf _ _ _ _ _ hw hm hq).later hw
  | fault hm => exact .fault hm
  | exhausted => exact .exhausted

theorem bind_get {f : Machine → Run γ} {f' : Machine → Run δ}
    (h : Lockstep l next w R (f m m) (f' m' m')) :
    Lockstep l next w R ((get >>= f) m) ((get >>= f') m') := h

end Lockstep

namespace Match

variable (hm : Match l next w m m') {α β : Type}

include hm

theorem pure {Q : World → α → β → Prop} {a : α} {a' : β} (hq : Q w a a') :
    Lockstep l next w Q ((Pure.pure a : Run α) m) ((Pure.pure a' : Run β) m') :=
  .ok (.refl w) hm hq

theorem fail {Q : World → α → β → Prop} (t : Token) (cause : RuntimeCause) :
    Lockstep l next w Q (Run.fail t cause m) (Run.fail t cause m') :=
  .fault hm

theorem blaming (t : Token) {r : Except RuntimeCause Value}
    (hp : ∀ v, r = .ok v → v.plain = true) :
    Lockstep l next w (ValueTwin l) (Run.blaming t r m) (Run.blaming t r m') := by
  cases r with
  | ok v => exact hm.pure (.plain (hp v rfl))
  | error cause => exact hm.fail t cause

section Scopes

variable {fs fs' : Frames} {i i' : Nat}

theorem newScope {p p' : Nat} (h : Around w fs fs' p p') :
    Lockstep l next w (fun w' i i' => ∀ f, Level w' (f :: fs) (f :: fs') i i')
      (Run.newScope p m) (Run.newScope p' m') := by
  obtain ⟨hp, hp'⟩ := hm.scope_lt h
  have hfresh (s : Lox.Scopes Value) (name : String) : s.own? s.next name = none := by
    by_contra hc
    exact Nat.lt_irrefl _ (Scopes.lt_next_of_own (Option.isSome_iff_ne_none.2 hc))
  have hpushed : Match l next (w.push m.scopes.next p m'.scopes.next p')
      { m with scopes := m.scopes.push (some p) } { m' with scopes := m'.scopes.push (some p') } := by
    apply ((hm.after_link hp).after_link' hp').after_join
    · simp only [Scopes.next_push, Nat.lt_succ_self]
    · simp only [Scopes.next_push, Nat.lt_succ_self]
    · exact fun j hj => Nat.lt_irrefl _ (hm.lt _ j hj).1
    · exact fun j hj => Nat.lt_irrefl _ (hm.lt j _ hj).2
    · exact fun name => (Scopes.own?_push _ _ _ _).trans (hfresh _ name)
    · exact fun name => (Scopes.own?_push _ _ _ _).trans (hfresh _ name)
  have hw := w.extends_push m.scopes.next p m'.scopes.next p'
  refine .ok hw hpushed fun f => ?_
  exact .both (.inr ⟨rfl, rfl⟩) (.inr ⟨rfl, rfl⟩) (.inr ⟨rfl, rfl⟩) (h.mono hw)

theorem define (hp : w.pair i i') (name : String) {v v' : Value} (hv : ValueTwin l w v v') :
    Lockstep l next w (fun _ _ _ => True) (Run.define i name v m) (Run.define i' name v' m') :=
  .ok (.refl w) (hm.after_define hp name hv) trivial

theorem getAt {d d' a a' : Nat} (ha : m.scopes.ancestor? d i = some a)
    (ha' : m'.scopes.ancestor? d' i' = some a') (hp : w.pair a a') (t : Token) :
    Lockstep l next w (ValueTwin l) (Run.getAt i d t m) (Run.getAt i' d' t m') := by
  have ho := hm.own a a' hp t.lexeme
  unfold Run.getAt Scopes.getAt?
  rw [ha, ha']
  simp only [Option.bind_some]
  generalize m.scopes.own? a t.lexeme = o, m'.scopes.own? a' t.lexeme = o' at ho
  cases ho with
  | none => exact hm.fail t _
  | some hv => exact .ok (.refl w) hm hv

theorem read (h : Around w fs fs' i i') {r : Reference} (hk : w.known r (depth? fs r.name.lexeme))
    (hk' : w.known' r (depth? fs' r.name.lexeme)) :
    Lockstep l next w (ValueTwin l) (Run.read i r m) (Run.read i' r m') := by
  have hf := hm.find h r.name.lexeme
  unfold Run.read
  rw [hm.known _ _ hk, hm.known' _ _ hk']
  generalize depth? fs r.name.lexeme = o, depth? fs' r.name.lexeme = o' at hf
  cases hf with
  | some hf =>
    obtain ⟨a, a', ha, ha', hp⟩ := hf
    exact hm.getAt ha ha' hp r.name
  | none =>
    have ho := hm.own _ _ hm.global r.name.lexeme
    simp only [Machine.global, Scopes.get?_global] at ho ⊢
    generalize m.scopes.own? 0 r.name.lexeme = o, m'.scopes.own? 0 r.name.lexeme = o' at ho
    cases ho with
    | none => exact hm.fail r.name _
    | some hv => exact .ok (.refl w) hm hv

theorem write (h : Around w fs fs' i i') {r : Reference} (hk : w.known r (depth? fs r.name.lexeme))
    (hk' : w.known' r (depth? fs' r.name.lexeme)) {v v' : Value} (hv : ValueTwin l w v v') :
    Lockstep l next w (fun _ _ _ => True) (Run.write i r v m) (Run.write i' r v' m') := by
  have hf := hm.find h r.name.lexeme
  unfold Run.write Machine.target?
  rw [hm.known _ _ hk, hm.known' _ _ hk']
  generalize depth? fs r.name.lexeme = o, depth? fs' r.name.lexeme = o' at hf
  cases hf with
  | some hf =>
    obtain ⟨a, a', ha, ha', hp⟩ := hf
    simp only [ha, ha']
    exact hm.define hp r.name.lexeme hv
  | none =>
    have ho := hm.own _ _ hm.global r.name.lexeme
    have hdefine := hm.define hm.global r.name.lexeme hv
    simp only [Machine.global, Scopes.holder?_global] at ho hdefine ⊢
    generalize m.scopes.own? 0 r.name.lexeme = o, m'.scopes.own? 0 r.name.lexeme = o' at ho
    cases ho with
    | none => exact hm.fail r.name _
    | some => exact hdefine

end Scopes

end Match

end Lox.Layout
