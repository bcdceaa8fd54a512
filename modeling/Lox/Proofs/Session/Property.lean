import Lox.Proofs.Inheritance.Evaluation
import Lox.Proofs.Session.Course

/-!
# Properties of instances

In all turns of a session, and whenever something is evaluated in them, each class that is held has
a lineage: it was declared, its superclasses before it, and none of them comes twice. Main
statement: a property is a field of the instance, or else the last method of the name in the
nearest declaration on the chain of its class, bound to the instance, or else a fault that changes
nothing; and setting a field changes nothing else.
-/

set_option autoImplicit false

namespace Lox

/-- Machine `m'` has value `v` in the field of the instance, and all else as machine `m` has it. -/
structure Machine.Assigns (m m' : Machine) (id : Nat) (name : String) (v : Value) : Prop where
  field : m'.field? id name = some v
  others (other : Nat) (field : String) : other ≠ id ∨ field ≠ name →
    m'.field? other field = m.field? other field
  size : m'.instances.size = m.instances.size
  rest : m' = { m with instances := m'.instances }

namespace Session

open Evaluation Placement Inheritance

/-- What the property of an instance of class `c` comes to on machine `m`. -/
inductive Property (S : Setting) (m : Machine) (id : Nat) (c : Class) (name : Token) :
    EStateM.Result Stop Machine Value → Prop
  | field {v : Value} (hv : m.field? id name.lexeme = some v) : Property S m id c name (.ok v m)
  | method {f : Function} {i : Nat} (hn : m.field? id name.lexeme = none)
      (hf : Provides S name.lexeme c f i) :
      Property S m id c name (.ok (.function m.serial ⟨f, m.scopes.next, f.isInitializer⟩)
        { m.enclose i "this" (.instance id c) with serial := m.serial + 1 })
  | missing (hn : m.field? id name.lexeme = none) (hl : Lacks S name.lexeme c) :
      Property S m id c name
        (.error (.fault (.runtime name.line (.undefinedProperty name.lexeme))) m)

theorem property_of_born {S : Setting} {c : Class} (hc : Born S c) (m : Machine) (id : Nat)
    (name : Token) : Property S m id c name (Run.property id c name m) := by
  cases hv : m.field? id name.lexeme with
  | some v =>
    have hfield : Run.property id c name m = .ok v m := by
      have hget : (get : Run Machine) m = .ok m m := rfl
      unfold Machine.field? at hv
      refine (Run.bind_ok hget).trans ?_
      simp only [hv]
      rfl
    exact hfield ▸ .field hv
  | none =>
    rw [property_eq hv]
    unfold Machine.bound
    rcases hc.provides_or_lacks name.lexeme with ⟨f, i, hf⟩ | hl
    · rw [hf.findMethod?]
      exact .method hv hf
    · rw [hl.findMethod?]
      exact .missing hv hl

theorem assigns_modify {m : Machine} {id : Nat} (name : String) (v : Value)
    (hid : id < m.instances.size) :
    m.Assigns { m with instances := m.instances.modify id (Names.put name v) } id name v where
  field := (m.field?_modify_self name v).trans (if_pos hid)
  others _ _ hne := m.field?_modify_of_ne v hne
  size := Array.size_modify
  rest := rfl

theorem traced_start (S : Setting) (now : Nat) : Traced S (.start now) where
  held c hc := by
    cases hc with
    | name hv hc =>
      rcases Scopes.own?_define_cases hv with rfl | hv
      · cases hc
      · rw [Scopes.own?_push] at hv
        cases hv
    | field hv => cases hv
  hosts code hc := absurd hc (Array.not_mem_empty code)

theorem traced_defineGiven {S : Setting} {m : Machine} (h : Traced S m) (name : String) (arity : Nat)
    {code : Host} (hc : Simulation.Sealed code) : Traced S (m.defineGiven name arity code) := by
  have hhost : Known S m (.host m.serial ⟨name, arity, .given m.hosts.size⟩) := .of_none rfl
  have hdefined : Traced S (m.defineHost ⟨name, arity, .given m.hosts.size⟩) :=
    (h.define Machine.global name hhost).same rfl rfl rfl (Nat.le_succ _)
  exact hdefined.host hc

section Turns

variable {us : List Turn} {s : Session} {bound : Nat} {source : String}

/-- The course of a program, or of a part of it. -/
theorem keeps_program {before after : List Stmt}
    (h : Traced (setting (⟨s, bound, source⟩ :: us)) s.machine)
    (ha : s.accepted? source = some (before ++ after)) :
    Keeps (setting (⟨s, bound, source⟩ :: us)) (s.prepared source (before ++ after)).machine
      (fun _ _ => True)
      (Evaluation.program bound before (s.prepared source (before ++ after)).machine) := by
  have hprepared : Traced (setting (⟨s, bound, source⟩ :: us))
      (s.prepared source (before ++ after)).machine := h.same rfl rfl rfl (Nat.le_refl _)
  apply Keeps.program hprepared
  rintro before' stmt after' m' rfl hb
  rw [List.append_assoc] at ha hb
  exact ⟨_, List.mem_cons_self, before', stmt, after' ++ after, m', ha, hb, .self⟩

theorem traced_run {s' : Session} {report : Report} (h : Traced (setting us) s.machine)
    (hr : s.run bound source = some (report, s')) :
    Traced (setting (⟨s, bound, source⟩ :: us)) s'.machine := by
  have h := h.within (within_cons ⟨s, bound, source⟩ us)
  cases ha : s.accepted? source with
  | none =>
    rw [run_of_rejected bound ha] at hr
    cases hr
    exact h.same rfl rfl rfl (Nat.le_refl _)
  | some program =>
    rw [run_of_accepted bound ha] at hr
    obtain ⟨⟨x, s₁⟩, hp, he⟩ := Option.map_eq_some_iff.1 hr
    cases he
    rw [← List.append_nil program] at ha
    have hkeeps := keeps_program h ha
    rw [List.append_nil] at hkeeps
    exact left_of_perform hp ▸ hkeeps.traced_left

end Turns

theorem Course.traced {us : List Turn} {s : Session} (h : Course us s) :
    Traced (setting us) s.machine := by
  induction h with
  | start now => exact traced_start _ now
  | run _ hr ih => exact traced_run ih hr
  | takeLines _ ih => exact ih.same rfl rfl rfl (Nat.le_refl _)
  | setRoom _ room ih => exact ih.same rfl rfl rfl (Nat.le_refl _)
  | setFlushFails _ fails ih => exact ih.same rfl rfl rfl (Nat.le_refl _)
  | defineGiven _ name arity hc ih => exact traced_defineGiven ih name arity hc

/-- Whenever a run comes to something, the classes are traced. -/
theorem Course.traced_visited {us : List Turn} {s : Session} (h : Course us s) {bound : Nat}
    {source : String} {t : Task} {m : Machine} (hv : s.Visited bound source t m) :
    Traced (setting (⟨s, bound, source⟩ :: us)) m := by
  obtain ⟨before, stmt, after, m₀, ha, hb, hv⟩ := hv
  have h₀ := h.traced.within (within_cons ⟨s, bound, source⟩ us)
  obtain ⟨-, h₁, -⟩ := (keeps_program h₀ ha).of_ok hb
  exact h₁.visited ⟨_, List.mem_cons_self, before, stmt, after, m₀, ha, hb, .self⟩ hv

/-- The value that a run evaluates to is of a class that was made before. -/
theorem Course.known_value {us : List Turn} {s : Session} (h : Course us s) {bound n scope : Nat}
    {source : String} {e : Expr} {m m' : Machine} {v : Value}
    (hv : s.Visited bound source (.evaluate n scope e) m)
    (he : Evaluation.evaluate n scope e m = .ok v m') :
    Known (setting (⟨s, bound, source⟩ :: us)) m' v := by
  have hreached : (setting (⟨s, bound, source⟩ :: us)).reached (.evaluate n scope e) m :=
    ⟨_, List.mem_cons_self, hv⟩
  exact (((upholds _ n).evaluate hreached (h.traced_visited hv)).of_ok he).2.2

/-- How classes and properties behave in a turn. Every class that is held at some moment, or that a
value has which is evaluated, has a lineage. A declaration makes a class of the class that its
superclass clause comes to, with a number above all those of classes that are held. A property of
an instance is its own field of the name, or else the method that the nearest declaration on the
chain of its class writes last under the name, bound to the instance; if there is neither, that is
the fault, and the machine is unchanged. Setting a field changes just that field of that instance:
in all else, the scopes and the classes in them among it, the machine stays as it is. -/
structure Dispatch (us : List Turn) (u : Turn) : Prop where
  held {t : Task} {m : Machine} {c : Class} (hv : u.Visited t m) (hc : m.Holds c) :
    Lineage (setting (u :: us)) m c
  value {n scope : Nat} {e : Expr} {m m' : Machine} {v : Value} {c : Class}
    (hv : u.Visited (.evaluate n scope e) m) (he : Evaluation.evaluate n scope e m = .ok v m')
    (hc : v.classOf? = some c) : Lineage (setting (u :: us)) m' c
  declared {n scope : Nat} {x : Token} {r : Option Reference} {ms : List Function}
    {m m' : Machine} {flow : Flow} (hv : u.Visited (.execute (n + 1) scope (.class x r ms)) m)
    (hs : Evaluation.execute (n + 1) scope (.class x r ms) m = .ok flow m') :
    ∃ c, m'.scopes.own? scope x.lexeme = some (.class c) ∧ c.body.id = m.serial ∧
      superclassOf scope r m = .ok c.superclass? m ∧ m'.serial = m.serial + 1
  get {n scope id : Nat} {e : Expr} {name : Token} {m m₁ : Machine} {c : Class}
    (hv : u.Visited (.evaluate (n + 1) scope (.get e name)) m)
    (he : Evaluation.evaluate n scope e m = .ok (.instance id c) m₁) :
    Property (setting (u :: us)) m₁ id c name
      (Evaluation.evaluate (n + 1) scope (.get e name) m)
  set {n scope id : Nat} {e value : Expr} {name : Token} {m m₁ m₂ : Machine} {c : Class} {v : Value}
    (hv : u.Visited (.evaluate (n + 1) scope (.set e name value)) m)
    (he : Evaluation.evaluate n scope e m = .ok (.instance id c) m₁)
    (hvalue : Evaluation.evaluate n scope value m₁ = .ok v m₂) :
    ∃ m₃, Evaluation.evaluate (n + 1) scope (.set e name value) m = .ok v m₃ ∧
      m₂.Assigns m₃ id name.lexeme v

/-- Between the turns of a session and throughout each of them, the chain of superclasses of every
class comes to an end, and each class on it was made before those that inherit from it. Properties
are looked up along the chain. -/
theorem property_nearest {us : List Turn} {s : Session} (hs : Course us s) :
    (∀ c, s.machine.Holds c → Lineage (setting us) s.machine c) ∧
      ∀ bound source, Dispatch us ⟨s, bound, source⟩ := by
  refine ⟨fun c hc => (hs.traced.held c hc).lineage, fun bound source => ?_⟩
  constructor
  case held =>
    intro t m c hv hc
    exact ((hs.traced_visited hv).held c hc).lineage
  case value =>
    intro n scope e m m' v c hv he hc
    exact (hs.known_value hv he c hc).lineage
  case declared =>
    intro n scope x r ms m m' flow hv hexec
    have hready := hs.ready hv
    have hscope : scope < m.scopes.next := Stands.lt_next hready.placed hready.sane.global
    obtain ⟨_, m₁, hd, hflow⟩ := Run.ok_of_bind hexec
    cases hflow
    exact declared_of_ok hscope hd
  case get =>
    intro n scope id e name m m₁ c hv he
    have hc := hs.known_value (hv.spawned .object) he c rfl
    have heq : Evaluation.evaluate (n + 1) scope (.get e name) m = Run.property id c name m₁ :=
      Run.bind_ok he
    exact heq ▸ property_of_born hc.born m₁ id name
  case set =>
    intro n scope id e value name m m₁ m₂ c v hv he hvalue
    -- the instance is there when the value is evaluated, and still there behind that
    obtain ⟨-, -, hself⟩ := ((preserves _ n).evaluate (hs.ready (hv.spawned .target))).of_ok he
    obtain ⟨hg, -, -⟩ := ((preserves _ n).evaluate (hs.ready (hv.spawned (.field he)))).of_ok hvalue
    have hid : id < m₂.instances.size := Nat.lt_of_lt_of_le hself.lt_size hg.instances
    exact ⟨_, (Run.bind_ok he).trans (Run.bind_ok hvalue), assigns_modify name.lexeme v hid⟩

/-- A class is declared again under its own name, as a subclass of the first. -/
def redeclaredText : String :=
  "class A \x7b m() \x7b\x7d m() \x7b return; \x7d \x7d var B = A; class A < B \x7b\x7d var a = A(); a.m;"

def secondMethod : Function := .mk (.ofName "m" 1) [] [.return ⟨.word .return, "return", 1⟩ none]

def redeclaredClasses : List Stmt :=
  [.class (.ofName "A" 1) none [.mk (.ofName "m" 1) [] [], secondMethod],
    .var (.ofName "B" 1) (some (.var ⟨0, .ofName "A" 1⟩)),
    .class (.ofName "A" 1) (some ⟨1, .ofName "B" 1⟩) [],
    .var (.ofName "a" 1) (some (.call (.var ⟨2, .ofName "A" 1⟩) ⟨.mark .rightParen, ")", 1⟩ []))]

def propertyExpr : Expr := .get (.var ⟨3, .ofName "a" 1⟩) (.ofName "m" 1)

/-- The machine when the property is evaluated. -/
def redeclaredMachine : Machine :=
  Run.left (Evaluation.program 6 redeclaredClasses ((start 0).prepared redeclaredText
    (redeclaredClasses ++ [.expression propertyExpr])).machine)

def earlierClass : Class := ⟨⟨1, "A", [("m", ⟨secondMethod, 0, false⟩)]⟩, []⟩

def laterClass : Class := ⟨⟨2, "A", []⟩, [earlierClass.body]⟩

theorem visited_property :
    (start 0).Visited 6 redeclaredText (.evaluate 5 0 propertyExpr) redeclaredMachine := by
  have haccepted : (start 0).accepted? redeclaredText =
      some (redeclaredClasses ++ [.expression propertyExpr]) := by cbv
  have hdeclared : Evaluation.program 6 redeclaredClasses ((start 0).prepared redeclaredText
      (redeclaredClasses ++ [.expression propertyExpr])).machine = .ok () redeclaredMachine := by cbv
  exact ⟨redeclaredClasses, .expression propertyExpr, [], redeclaredMachine, haccepted, hdeclared,
    .step .expression .self⟩

theorem property_nearest_redeclared :
    earlierClass.body.id < laterClass.body.id ∧
      Provides (setting [⟨start 0, 6, redeclaredText⟩]) "m" laterClass secondMethod 0 := by
  have h := (property_nearest (.start 0)).2 6 redeclaredText
  have hname : redeclaredMachine.scopes.own? 0 "A" = some (.class laterClass) := by cbv
  have hobject : Evaluation.evaluate 4 0 (.var ⟨3, .ofName "a" 1⟩) redeclaredMachine =
      .ok (.instance 0 laterClass) redeclaredMachine := by cbv
  have hfield : redeclaredMachine.field? 0 "m" = none := by cbv
  have hmethod : laterClass.findMethod? "m" = some ⟨secondMethod, 0, false⟩ := rfl
  refine ⟨(h.held visited_property (.name hname rfl)).older _ (.single rfl), ?_⟩
  obtain ⟨r, hproperty⟩ : ∃ r, Property (setting [⟨start 0, 6, redeclaredText⟩]) redeclaredMachine 0
      laterClass (.ofName "m" 1) r := ⟨_, h.get visited_property hobject⟩
  cases hproperty with
  | field hv => cases hfield.symm.trans hv
  | method _ hf =>
    cases hf.findMethod?.symm.trans hmethod
    exact hf
  | missing _ hl => cases hl.findMethod?.symm.trans hmethod

end Session

end Lox
