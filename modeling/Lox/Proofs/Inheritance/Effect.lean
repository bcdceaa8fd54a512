import Lox.Proofs.Inheritance.Lineage

/-!
# Operations and the lineage of classes

The number that a machine gives next never falls, and is above the identities of all classes that
are held. Operations hold no other classes than those of the values they are given, but for the
declaration of a class, which makes one of a class that is held.
-/

set_option autoImplicit false

namespace Lox

namespace Machine.Holds

variable {m m' : Machine} {c : Class}

theorem same (hs : m'.scopes = m.scopes) (hi : m'.instances = m.instances) (h : m'.Holds c) :
    m.Holds c := by
  cases h with
  | name hv hc => exact .name (hs ▸ hv) hc
  | field hv hc =>
    unfold Machine.field? at hv
    exact .field (hi ▸ hv) hc

theorem push {e : Option Nat} (h : Machine.Holds { m with scopes := m.scopes.push e } c) :
    m.Holds c := by
  cases h with
  | name hv hc => exact .name (Scopes.own?_push m.scopes e _ _ ▸ hv) hc
  | field hv hc => exact .field hv hc

theorem define {i : Nat} {name : String} {v : Value}
    (h : Machine.Holds { m with scopes := m.scopes.define i name v } c) :
    m.Holds c ∨ v.classOf? = some c := by
  cases h with
  | name hv hc =>
    rcases Scopes.own?_define_cases hv with rfl | hv
    · exact .inr hc
    · exact .inl (.name hv hc)
  | field hv hc => exact .inl (.field hv hc)

theorem enclose {p : Nat} {name : String} {v : Value} (h : (m.enclose p name v).Holds c) :
    m.Holds c ∨ v.classOf? = some c :=
  (define (m := { m with scopes := m.scopes.push (some p) }) h).imp_left push

theorem pushInstance (h : Machine.Holds { m with instances := m.instances.push [] } c) :
    m.Holds c := by
  cases h with
  | name hv hc => exact .name hv hc
  | @field id name v hv hc => exact .field (m.field?_push id name ▸ hv) hc

theorem setField {id : Nat} {name : String} {v : Value}
    (h : Machine.Holds { m with instances := m.instances.modify id (Names.put name v) } c) :
    m.Holds c ∨ v.classOf? = some c := by
  cases h with
  | name hv hc => exact .inl (.name hv hc)
  | field hv hc =>
    rcases Machine.field?_modify_cases hv with rfl | hv
    · exact .inr hc
    · exact .inl (.field hv hc)

end Machine.Holds

namespace Evaluation

theorem eq_of_superclassOf {i : Nat} {r : Option Reference} {parent : Option Class} {m m' : Machine}
    (h : superclassOf i r m = .ok parent m') : m' = m := by
  cases r with
  | none =>
    cases h
    rfl
  | some r =>
    obtain ⟨v, m₁, hv, h⟩ := Run.ok_of_bind h
    obtain rfl := Run.eq_of_read hv
    cases v with
    | «class» c =>
      cases h
      rfl
    | _ => cases h

/-- A declaration that succeeds binds its name to a class with the number that is next, of the
class that the superclass clause comes to. -/
theorem declared_of_ok {i : Nat} {x : Token} {r : Option Reference} {ms : List Function}
    {m m' : Machine} (hi : i < m.scopes.next) (h : declareClass i x r ms m = .ok () m') :
    ∃ c, m'.scopes.own? i x.lexeme = some (.class c) ∧ c.body.id = m.serial ∧
      superclassOf i r m = .ok c.superclass? m ∧ m'.serial = m.serial + 1 := by
  obtain ⟨parent, m₁, hparent, h⟩ := Run.ok_of_bind h
  obtain rfl := eq_of_superclassOf hparent
  have hnil : i < (m₁.scopes.define i x.lexeme .nil).next := by rwa [Scopes.next_define]
  cases parent with
  | none =>
    cases h
    exact ⟨_, Scopes.own?_define_self _ _ _ hnil, rfl, hparent, rfl⟩
  | some c =>
    cases h
    have hinner := Nat.lt_of_lt_of_le hnil (Machine.Grows.enclose
      { m₁ with scopes := m₁.scopes.define i x.lexeme .nil } i "super" (.class c)).next
    exact ⟨_, Scopes.own?_define_self _ _ _ hinner, rfl, hparent, rfl⟩

end Evaluation

namespace Inheritance

open Evaluation Placement

variable {S S' : Setting} {m m' : Machine} {α β : Type}

/-- The class was born, and before machine `m`. -/
structure Made (S : Setting) (m : Machine) (c : Class) : Prop where
  born : Born S c
  lt : c.body.id < m.serial

/-- The class of a value, if it has one, was made before machine `m`. -/
def Known (S : Setting) (m : Machine) (v : Value) : Prop := ∀ c, v.classOf? = some c → Made S m c

structure Traced (S : Setting) (m : Machine) : Prop where
  held (c : Class) (h : m.Holds c) : Made S m c
  hosts : ∀ code ∈ m.hosts, Simulation.Sealed code

theorem Made.later {c : Class} (h : Made S m c) (hk : m.serial ≤ m'.serial) : Made S m' c :=
  ⟨h.born, Nat.lt_of_lt_of_le h.lt hk⟩

theorem Made.lineage {c : Class} (h : Made S m c) : Lineage S m c :=
  ⟨h.born, h.lt, fun _ => h.born.older, h.born.ends⟩

namespace Known

theorem of_none {v : Value} (hv : v.classOf? = none) : Known S m v := by
  intro c hc
  rw [hv] at hc
  cases hc

theorem plain {v : Value} (hv : v.plain = true) : Known S m v := of_none (v.classOf?_of_plain hv)

theorem of_made {v : Value} {c : Class} (hv : v.classOf? = some c) (hc : Made S m c) :
    Known S m v := by
  intro c' hc'
  obtain rfl := Option.some.inj (hv.symm.trans hc')
  exact hc

theorem later {v : Value} (h : Known S m v) (hk : m.serial ≤ m'.serial) : Known S m' v :=
  fun c hc => (h c hc).later hk

end Known

namespace Traced

/-- Only classes that are known are held besides those from before. -/
theorem after (h : Traced S m) (hk : m.serial ≤ m'.serial) (hh : m'.hosts = m.hosts)
    (hc : ∀ c, m'.Holds c → m.Holds c ∨ Made S m c) : Traced S m' where
  held c hm := ((hc c hm).elim (h.held c) id).later hk
  hosts := hh ▸ h.hosts

theorem same (h : Traced S m) (hs : m'.scopes = m.scopes) (hi : m'.instances = m.instances)
    (hh : m'.hosts = m.hosts) (hk : m.serial ≤ m'.serial) : Traced S m' :=
  h.after hk hh fun _ hc => .inl (hc.same hs hi)

theorem host (h : Traced S m) {code : Host} (hc : Simulation.Sealed code) :
    Traced S { m with hosts := m.hosts.push code } where
  held c hm := by
    have hbefore : m.Holds c := by refine hm.same ?_ ?_ <;> rfl
    exact (h.held c hbefore).later (Nat.le_refl _)
  hosts f hf := by
    rcases Array.mem_push.1 hf with hf | rfl
    · exact h.hosts f hf
    · exact hc

theorem within (h : Traced S m) (hS : S.Within S') : Traced S' m where
  held c hm := ⟨(h.held c hm).born.within hS, (h.held c hm).lt⟩
  hosts := h.hosts

theorem define (h : Traced S m) (i : Nat) (name : String) {v : Value} (hv : Known S m v) :
    Traced S { m with scopes := m.scopes.define i name v } :=
  h.after (Nat.le_refl _) rfl fun c hc => hc.define.imp_right (hv c)

theorem enclose (h : Traced S m) (p : Nat) (name : String) {v : Value} (hv : Known S m v) :
    Traced S (m.enclose p name v) :=
  h.after (Nat.le_refl _) rfl fun c hc => hc.enclose.imp_right (hv c)

theorem own? (h : Traced S m) {i : Nat} {name : String} {v : Value}
    (hv : m.scopes.own? i name = some v) : Known S m v := fun c hc => h.held c (.name hv hc)

end Traced

/-- How a computation may end that started on the machine `m`: its classes are traced, with a
value for which `P` holds there, or with none. -/
inductive Keeps (S : Setting) (m : Machine) (P : Machine → α → Prop) :
    EStateM.Result Stop Machine α → Prop
  | ok {a : α} {m' : Machine} (hk : m.serial ≤ m'.serial) (h : Traced S m') (ha : P m' a) :
      Keeps S m P (.ok a m')
  | error {stop : Stop} {m' : Machine} (hk : m.serial ≤ m'.serial) (h : Traced S m') :
      Keeps S m P (.error stop m')

namespace Keeps

variable {P : Machine → α → Prop} {Q : Machine → β → Prop}

theorem traced_left {r : EStateM.Result Stop Machine α} (h : Keeps S m P r) :
    Traced S (Run.left r) := by
  cases h <;> assumption

theorem after {r : EStateM.Result Stop Machine α} (h : Keeps S m' P r)
    (hk : m.serial ≤ m'.serial) : Keeps S m P r := by
  cases h with
  | ok hk' h ha => exact .ok (Nat.le_trans hk hk') h ha
  | error hk' h => exact .error (Nat.le_trans hk hk') h

theorem of_ok {p : Run α} {a : α} (h : Keeps S m P (p m)) (hp : p m = .ok a m') :
    m.serial ≤ m'.serial ∧ Traced S m' ∧ P m' a := by
  rw [hp] at h
  cases h with
  | ok hk h ha => exact ⟨hk, h, ha⟩

theorem bind {p : Run α} {f : α → Run β} (hp : Keeps S m P (p m))
    (hf : ∀ a m', p m = .ok a m' → m.serial ≤ m'.serial → Traced S m' → P m' a →
      Keeps S m' Q (f a m')) : Keeps S m Q ((p >>= f) m) := by
  cases hr : p m with
  | ok a m' =>
    obtain ⟨hk, h, ha⟩ := hp.of_ok hr
    rw [Run.bind_ok hr]
    exact (hf a m' hr hk h ha).after hk
  | error stop m' =>
    rw [Run.bind_error hr]
    rw [hr] at hp
    cases hp with
    | error hk h => exact .error hk h

theorem get_bind {f : Machine → Run β} (hf : Keeps S m Q (f m m)) : Keeps S m Q ((get >>= f) m) := hf

variable (h : Traced S m)

include h

theorem pure {a : α} (ha : P m a) : Keeps S m P ((Pure.pure a : Run α) m) := .ok (Nat.le_refl _) h ha

theorem fail (t : Token) (cause : RuntimeCause) : Keeps S m P ((Run.fail t cause : Run α) m) :=
  .error (Nat.le_refl _) h

theorem exhausted : Keeps S m P ((throw .exhausted : Run α) m) := .error (Nat.le_refl _) h

/-- The machine has changed in nothing that matters. -/
theorem same {a : α} (hs : m'.scopes = m.scopes) (hi : m'.instances = m.instances)
    (hh : m'.hosts = m.hosts) (hk : m.serial ≤ m'.serial) (ha : P m' a) :
    Keeps S m P (.ok a m') := .ok hk (h.same hs hi hh hk) ha

theorem blaming {t : Token} {r : Except RuntimeCause Value} (hr : ∀ v, r = .ok v → v.plain = true) :
    Keeps S m (Known S) (Run.blaming t r m) := by
  cases r with
  | ok v => exact .pure h (.plain (hr v rfl))
  | error cause => exact .fail h t cause

theorem newScope (p : Nat) : Keeps S m (fun _ _ => True) (Run.newScope p m) :=
  .ok (Nat.le_refl _) (h.after (Nat.le_refl _) rfl fun _ hc => .inl hc.push) trivial

theorem newId : Keeps S m (fun _ _ => True) (Run.newId m) :=
  .same h rfl rfl rfl (Nat.le_succ _) trivial

theorem define (i : Nat) (name : String) {v : Value} (hv : Known S m v) :
    Keeps S m (fun _ _ => True) (Run.define i name v m) :=
  .ok (Nat.le_refl _) (h.define i name hv) trivial

theorem getAt (i d : Nat) (name : Token) : Keeps S m (Known S) (Run.getAt i d name m) := by
  unfold Run.getAt
  split
  · rename_i v hv
    obtain ⟨a, -, hv⟩ := Option.bind_eq_some_iff.1 hv
    exact .pure h (h.own? hv)
  · exact .fail h _ _

theorem read (i : Nat) (r : Reference) : Keeps S m (Known S) (Run.read i r m) := by
  unfold Run.read
  split
  · exact .getAt h i _ _
  · cases hv : m.scopes.get? Machine.global r.name.lexeme with
    | none => exact .fail h _ _
    | some v =>
      obtain ⟨a, -, hv⟩ := Option.bind_eq_some_iff.1 hv
      exact .pure h (h.own? hv)

theorem write (i : Nat) (r : Reference) {v : Value} (hv : Known S m v) :
    Keeps S m (fun _ _ => True) (Run.write i r v m) := by
  unfold Run.write
  split
  · exact .define h _ _ hv
  · exact .fail h _ _

theorem newInstance {c : Class} (hc : Made S m c) : Keeps S m (Known S) (Run.newInstance c m) :=
  .ok (Nat.le_refl _) (h.after (Nat.le_refl _) rfl fun _ hc => .inl hc.pushInstance)
    (.of_made rfl (hc.later (Nat.le_refl _)))

theorem setField (id : Nat) (name : String) {v : Value} (hv : Known S m v) :
    Keeps S m (fun _ _ => True) (Run.setField id name v m) :=
  .ok (Nat.le_refl _) (h.after (Nat.le_refl _) rfl fun c hc => hc.setField.imp_right (hv c)) trivial

theorem newFunction (f : Closure) : Keeps S m (Known S) (Run.newFunction f m) :=
  .bind (.newId h) fun _ _ _ _ h _ => .pure h (.of_none rfl)

theorem bindMethod (f : Closure) {self : Value} (hself : Known S m self) :
    Keeps S m (fun _ _ => True) (Run.bindMethod f self m) :=
  .ok (Nat.le_refl _) (h.enclose f.scope "this" hself) trivial

theorem property {id : Nat} {c : Class} (hself : Known S m (.instance id c)) (name : Token) :
    Keeps S m (Known S) (Run.property id c name m) := by
  apply Keeps.get_bind
  cases hv : m.instances[id]?.bind (·.get? name.lexeme) with
  | some v => exact .pure h fun c hc => h.held c (.field hv hc)
  | none =>
    cases c.findMethod? name.lexeme with
    | none => exact .fail h _ _
    | some f => exact .bind (.bindMethod h f hself) fun g _ _ _ h _ => .newFunction h g

theorem printLine (s : String) : Keeps S m (fun _ _ => True) (Run.printLine s m) := by
  unfold Run.printLine
  split
  · exact .same h rfl rfl rfl (Nat.le_refl _) trivial
  · exact .error (Nat.le_refl _) h
  · exact .same h rfl rfl rfl (Nat.le_refl _) trivial

theorem callHost (f : HostFunction) {vs : List Value} (hvs : ∀ v ∈ vs, Known S m v) (paren : Token) :
    Keeps S m (Known S) (Run.callHost f vs paren m) := by
  rcases Run.callHost_cases h.hosts f vs paren with ⟨v, clock, heq, hv | hv⟩ | ⟨cause, heq⟩ <;>
    rw [heq]
  · exact .same h rfl rfl rfl (Nat.le_refl _) (.plain hv)
  · exact .same h rfl rfl rfl (Nat.le_refl _) ((hvs v hv).later (Nat.le_refl _))
  · exact .fail h _ _

theorem checkArity (f : Value) (vs : List Value) (paren : Token) :
    Keeps S m (fun _ _ => True) (Evaluation.checkArity f vs paren m) := by
  unfold Evaluation.checkArity
  cases f.arity? with
  | none => exact .fail h _ _
  | some n =>
    by_cases hn : vs.length = n
    · simp only [hn, if_true]
      exact .pure h trivial
    · simp only [hn, if_false]
      exact .fail h _ _

theorem defineAll (i : Nat) (ps : List Token) {vs : List Value} (hvs : ∀ v ∈ vs, Known S m v) :
    Keeps S m (fun _ _ => True) (Evaluation.defineAll i ps vs m) := by
  induction ps generalizing m vs with
  | nil => exact .pure h trivial
  | cons p ps ih =>
    cases vs with
    | nil => exact .pure h trivial
    | cons v vs =>
      rw [List.forall_mem_cons] at hvs
      apply Keeps.bind (.define h i p.lexeme hvs.1)
      intro _ m₁ _ hk₁ h₁ _
      exact ih h₁ fun w hw => (hvs.2 w hw).later hk₁

theorem opened (f : Closure) {vs : List Value} (hvs : ∀ v ∈ vs, Known S m v) :
    Keeps S m (fun _ _ => True) (Evaluation.opened f vs m) := by
  apply Keeps.bind (.newScope h f.scope)
  intro i m₁ _ hk₁ h₁ _
  apply Keeps.bind (.defineAll h₁ i _ fun v hv => (hvs v hv).later hk₁)
  intro _ m₂ _ _ h₂ _
  exact .pure h₂ trivial

theorem superMethod (i : Nat) (r : Reference) (method : Token) :
    Keeps S m (Known S) (Evaluation.superMethod i r method m) := by
  apply Keeps.get_bind
  cases m.depths.get? r.id with
  | none => exact .fail h _ _
  | some depth =>
    apply Keeps.bind (.getAt h i depth r.name)
    intro v m₁ _ _ h₁ _
    cases v with
    | «class» c =>
      apply Keeps.bind (.getAt h₁ i (depth - 1) _)
      intro self m₂ _ _ h₂ hself
      cases self with
      | «instance» id own =>
        simp only
        cases c.findMethod? method.lexeme with
        | none => exact .fail h₂ _ _
        | some f => exact .bind (.bindMethod h₂ f hself) fun g _ _ _ h _ => .newFunction h g
      | _ => exact .fail h₂ _ _
    | _ => exact .fail h₁ _ _

/-- What a superclass clause comes to was made before, and is found without changing anything. -/
theorem superclassOf (i : Nat) (r : Option Reference) :
    Keeps S m (fun m' parent => m' = m ∧ ∀ p ∈ parent, Made S m' p)
      (Evaluation.superclassOf i r m) := by
  cases r with
  | none => exact .pure h ⟨rfl, nofun⟩
  | some r =>
    apply Keeps.bind (.read h i r)
    intro v m₁ hv _ h₁ hknown
    cases v with
    | «class» c => exact .pure h₁ ⟨Run.eq_of_read hv, hknown⟩
    | _ => exact .fail h₁ _ _

theorem derive {i inner : Nat} {x : Token} {ms : List Function} {parent : Option Class}
    (hborn : Born S (.derive ⟨m.serial, x.lexeme, methodTable inner ms⟩ parent)) :
    Keeps S m (fun _ _ => True) ((do
      let id ← Run.newId
      Run.define i x.lexeme
        (.class (.derive ⟨id, x.lexeme, methodTable inner ms⟩ parent)) : Run Unit) m) := by
  apply Keeps.ok (Nat.le_succ _) _ trivial
  have hnew : Traced S { m with serial := m.serial + 1 } := h.same rfl rfl rfl (Nat.le_succ _)
  refine hnew.define i x.lexeme (.of_made rfl ⟨hborn, ?_⟩)
  rw [Class.body_derive]
  exact Nat.lt_succ_self _

/-- A class is born with the number that the machine has when its declaration is reached. -/
theorem declareClass {n i : Nat} {x : Token} {r : Option Reference} {ms : List Function}
    (hr : S.reached (.execute (n + 1) i (.class x r ms)) m) :
    Keeps S m (fun _ _ => True) (Evaluation.declareClass i x r ms m) := by
  apply Keeps.bind (.superclassOf h i r)
  rintro parent m₁ hparent - - ⟨rfl, hmade⟩
  have hborn : Born S (.derive ⟨m₁.serial, x.lexeme,
      methodTable (parent.elim i fun _ => m₁.scopes.next) ms⟩ parent) :=
    .intro (.intro hr hparent fun p hp => (hmade p hp).lt) fun p hp => (hmade p hp).born
  have hnil : Traced S { m₁ with scopes := m₁.scopes.define i x.lexeme .nil } :=
    h.define i x.lexeme (.of_none rfl)
  cases parent with
  | none => exact (Keeps.derive hnil hborn).after (Nat.le_refl _)
  | some c =>
    have hnext : (m₁.scopes.define i x.lexeme .nil).next = m₁.scopes.next :=
      Scopes.next_define _ _ _ _
    rw [Option.elim_some, ← hnext] at hborn
    have hc : Known S { m₁ with scopes := m₁.scopes.define i x.lexeme .nil } (.class c) :=
      .of_made rfl ((hmade c rfl).later (Nat.le_refl _))
    exact (Keeps.derive (hnil.enclose i "super" hc) hborn).after (Nat.le_refl _)

end Keeps

end Inheritance

end Lox
