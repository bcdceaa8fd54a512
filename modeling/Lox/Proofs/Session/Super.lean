import Lox.Proofs.Session.Course

/-!
# Methods of the superclass

Whenever a run evaluates `super`, the code stands in a method of a class with a superclass,
and the scopes around that method were made by an execution of the class declaration. Main
statement: the method is looked up from the class on that the superclass clause came to in
that execution, and bound to what `this` means there; nothing but a missing method can fail.
-/

set_option autoImplicit false

namespace Lox.Session

open Scoping Evaluation Placement

/-- In one of the turns the declaration of class `x` was executed in scope `outer`: its
superclass clause came to class `c`, and the class that was made has its methods in scope
`i`, which was made for them. -/
def Executed (us : List Turn) (x : Token) (r : Reference) (ms : List Function) (outer : Nat)
    (c : Class) (i : Nat) : Prop :=
  ∃ u ∈ us, ∃ n m m' id, u.Visited (.execute (n + 1) outer (.class x (some r) ms)) m ∧
    superclassOf outer (some r) m = .ok (some c) m ∧ m.scopes.next = i ∧
    declareClass outer x (some r) ms m = .ok () m' ∧
    m'.scopes.own? outer x.lexeme =
      some (.class (.derive ⟨id, x.lexeme, methodTable i ms⟩ (some c)))

/-- What a class declaration makes once its superclass is there. -/
theorem declareClass_eq (x : Token) {r : Reference} (ms : List Function) {outer : Nat} {c : Class}
    {m : Machine} (hc : superclassOf outer (some r) m = .ok (some c) m)
    (ho : outer < m.scopes.next) :
    ∃ m' id, declareClass outer x (some r) ms m = .ok () m' ∧
      m'.scopes.own? outer x.lexeme =
        some (.class (.derive ⟨id, x.lexeme, methodTable m.scopes.next ms⟩ (some c))) := by
  let m₁ : Machine := { m with scopes := m.scopes.define outer x.lexeme .nil }
  let m₂ : Machine := m₁.enclose outer "super" (.class c)
  let made : Value := .class (.derive ⟨m.serial, x.lexeme, methodTable m₁.scopes.next ms⟩ (some c))
  have hnext : m₁.scopes.next = m.scopes.next := Scopes.next_define _ _ _ _
  have hlt : outer < m₂.scopes.next :=
    Nat.lt_of_lt_of_le (hnext ▸ ho) (Machine.Grows.enclose m₁ _ _ _).next
  refine ⟨{ m₂ with serial := m.serial + 1, scopes := m₂.scopes.define outer x.lexeme made },
    m.serial, Run.bind_ok hc, ?_⟩
  rw [← hnext]
  exact Scopes.own?_define_self _ _ _ hlt

theorem executed_of_derives {us : List Turn} {x : Token} {r : Reference} {ms : List Function}
    {outer : Nat} {c : Class} {i n : Nat} {m : Machine}
    (h : (setting us).Derives x r ms outer c i n m) : Executed us x r ms outer c i := by
  obtain ⟨u, hu, hv⟩ := h.reached
  obtain ⟨m', id, hd, hown⟩ := declareClass_eq x ms h.superclass h.outer
  rw [h.next] at hown
  exact ⟨u, hu, n, m, m', id, hv, h.superclass, h.next, hd, hown⟩

/-- `super` in scopes that follow what encloses it. -/
theorem superMethod_eq {m : Machine} {scope d i b self : Nat} {own c : Class} {ref : Reference}
    (method : Token) (hd : m.depths.get? ref.id = some (d + 2)) (hname : ref.name.lexeme = "super")
    (hb : m.scopes.ancestor? (d + 1) scope = some b) (hr : Receiver m b self own i)
    (hc : m.scopes.own? i "super" = some (.class c)) :
    superMethod scope ref method m = m.bound c (.instance self own) method := by
  have hclass : Run.getAt scope (d + 2) ref.name m = .ok (.class c) m :=
    Run.getAt_eq (Scopes.ancestor?_succ hb hr.enclosing) (hname ▸ hc)
  have hthis : Run.getAt scope (d + 2 - 1) (.ofName "this" ref.name.line) m =
      .ok (.instance self own) m := Run.getAt_eq hb hr.this
  have hget : (get : Run Machine) m = .ok m m := rfl
  refine (Run.bind_ok hget).trans ?_
  simp only [hd]
  refine (Run.bind_ok hclass).trans ?_
  refine (Run.bind_ok hthis).trans ?_
  unfold Machine.bound
  cases c.findMethod? method.lexeme <;> rfl

/-- Where `super` is evaluated, and what it comes to. -/
theorem Course.atSuper {us : List Turn} {s : Session} (hs : Course us s) {bound n scope : Nat}
    {source : String} {ref : Reference} {method : Token} {m : Machine}
    (hv : s.Visited bound source (.evaluate (n + 1) scope (.super ref method)) m) :
    ∃ program ∈ programs (⟨s, bound, source⟩ :: us), ∃ p f x r q ms outer c i b self own k m₀,
      Occurs program p (.expr (.super ref method)) ∧
      p.home = .method f :: .class x (some r) :: q ∧ f ∈ ms ∧
      (setting (⟨s, bound, source⟩ :: us)).Derives x r ms outer c i k m₀ ∧
      m.scopes.own? i "super" = some (.class c) ∧
      m.scopes.ancestor? (p.level + 1) scope = some b ∧ Receiver m b self own i ∧
      m.scopes.get? scope "this" = some (.instance self own) ∧
      Evaluation.evaluate (n + 1) scope (.super ref method) m =
        m.bound c (.instance self own) method := by
  obtain ⟨program, hp, p, ho, hc⟩ : Stands _ m scope (.expr (.super ref method)) :=
    (hs.ready hv).placed
  have hformed := (setting (⟨s, bound, source⟩ :: us)).formed program hp
  have hfaultless := (setting (⟨s, bound, source⟩ :: us)).faultless program hp
  obtain ⟨f, x, r, q, hhome, hlookup⟩ := super_recorded hformed hfaultless ho
  obtain ⟨b, self, own, i, c, outer, ms, k, m₀, hb, hr, hthis, hf, hd, hsuper⟩ := hc.super hhome
  exact ⟨program, hp, p, f, x, r, q, ms, outer, c, i, b, self, own, k, m₀, ho, hhome, hf, hd, hsuper,
    hb, hr, hthis,
    superMethod_eq method (hs.known hv hp hlookup) (walked_of_occurs hformed ho).1 hb hr hsuper⟩

/-- Whenever `super` is evaluated, it stands in a method of a class with a superclass, of which
the declaration was executed in one of the turns, and the scope around the receiver is the
one that was made for the methods then. The look-up starts at the class that the superclass
clause came to in that execution, whatever class the receiver has and whatever the name of
the superclass means by now. The method is bound to the instance that `this` means in the
same place, and nothing but a missing method is a fault. -/
theorem super_lexical {us : List Turn} {s : Session} (hs : Course us s) {bound n scope : Nat}
    {source : String} {ref : Reference} {method : Token} {m : Machine}
    (hv : s.Visited bound source (.evaluate (n + 1) scope (.super ref method)) m) :
    ∃ program ∈ programs (⟨s, bound, source⟩ :: us), ∃ p f x r q ms outer c i self own,
      Occurs program p (.expr (.super ref method)) ∧
      p.home = .method f :: .class x (some r) :: q ∧ f ∈ ms ∧
      Executed (⟨s, bound, source⟩ :: us) x r ms outer c i ∧
      m.scopes.ancestor? (p.level + 2) scope = some i ∧
      m.scopes.get? scope "this" = some (.instance self own) ∧
      (∀ r', Occurs program p (.expr (.this r')) →
        Run.read scope r' m = .ok (.instance self own) m) ∧
      Evaluation.evaluate (n + 1) scope (.super ref method) m =
        m.bound c (.instance self own) method := by
  obtain ⟨program, hp, p, f, x, r, q, ms, outer, c, i, b, self, own, k, m₀, ho, hhome, hf, hd, -,
    hb, hr, hthis, heq⟩ := hs.atSuper hv
  refine ⟨program, hp, p, f, x, r, q, ms, outer, c, i, self, own, ho, hhome, hf,
    executed_of_derives hd, Scopes.ancestor?_succ hb hr.enclosing, hthis, fun r' hr' => ?_, heq⟩
  -- in the same place the depth of `this` is one less, and leads to the receiver
  have hformed := (setting (⟨s, bound, source⟩ :: us)).formed program hp
  have hfaultless := (setting (⟨s, bound, source⟩ :: us)).faultless program hp
  obtain ⟨-, -, -, -, -, hlookup⟩ := this_recorded hformed hfaultless hr'
  have hname : r'.name.lexeme = "this" := (walked_of_occurs hformed hr').1
  unfold Run.read
  simp only [hs.known hv hp hlookup]
  exact Run.getAt_eq hb (hname ▸ hr.this)

/-- The initializer of a class looks a method of its superclass up. -/
def superText : String :=
  "class A \x7b m() \x7b\x7d \x7d class B < A \x7b init() \x7b super.m; \x7d \x7d B();"

def superExpr : Expr := .super ⟨1, ⟨.word .super, "super", 1⟩⟩ (.ofName "m" 1)

def superInit : Function := .mk (.ofName "init" 1) [] [.expression superExpr]

def superClasses : List Stmt :=
  [.class (.ofName "A" 1) none [.mk (.ofName "m" 1) [] []],
    .class (.ofName "B" 1) (some ⟨0, .ofName "A" 1⟩) [superInit]]

def superCall : Expr := .call (.var ⟨2, .ofName "B" 1⟩) ⟨.mark .rightParen, ")", 1⟩ []

theorem accepted_super :
    (start 0).accepted? superText = some (superClasses ++ [.expression superCall]) := by
  cbv

/-- The machine when the classes are declared. -/
def declaredMachine : Machine :=
  Run.left (Evaluation.program 6 superClasses
    ((start 0).prepared superText (superClasses ++ [.expression superCall])).machine)

def derivedClass : Class :=
  ⟨⟨2, "B", [("init", ⟨superInit, 1, true⟩)]⟩,
    [⟨1, "A", [("m", ⟨.mk (.ofName "m" 1) [] [], 0, false⟩)]⟩]⟩

/-- The machine when the body of the initializer is executed. -/
def superMachine : Machine :=
  Run.left (openedInitializer derivedClass ⟨superInit, 1, true⟩ [] declaredMachine)

theorem visited_super : (start 0).Visited 6 superText (.evaluate 3 3 superExpr) superMachine := by
  have hdeclared : Evaluation.program 6 superClasses
      ((start 0).prepared superText (superClasses ++ [.expression superCall])).machine =
        .ok () declaredMachine := by cbv
  have hcallee : Evaluation.evaluate 4 0 (.var ⟨2, .ofName "B" 1⟩) declaredMachine =
      .ok (.class derivedClass) declaredMachine := by cbv
  have hopened : openedInitializer derivedClass ⟨superInit, 1, true⟩ [] declaredMachine =
      .ok 3 superMachine := by cbv
  have hinit : derivedClass.initializer? = some ⟨superInit, 1, true⟩ := rfl
  have hopens : Opens (.class derivedClass) [] declaredMachine 3 ([] ++ [.expression superExpr])
      superMachine := .class hinit hopened
  have hbody : Spawns (.evaluate 5 0 superCall) declaredMachine
      (.execute 4 3 (.expression superExpr)) superMachine := .body hcallee rfl rfl hopens rfl
  exact ⟨superClasses, .expression superCall, [], declaredMachine, accepted_super, hdeclared,
    .step .expression (.step hbody (.step .expression .self))⟩

theorem super_lexical_init : ∃ c self own, Evaluation.evaluate 3 3 superExpr superMachine =
    superMachine.bound c (.instance self own) (.ofName "m" 1) := by
  obtain ⟨_, _, _, _, _, _, _, _, _, c, _, self, own, _, _, _, _, _, _, _, h⟩ :=
    super_lexical (.start 0) visited_super
  exact ⟨c, self, own, h⟩

end Lox.Session
