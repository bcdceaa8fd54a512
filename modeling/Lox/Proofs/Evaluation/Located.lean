import Lox.Proofs.Evaluation.Stepwise
import Lox.Proofs.Simulation.World

/-!
# A machine that keeps the scope at hand

Here the scope at hand is a register of the machine, which a block and a call set and set
back. Main statements: every computation ends as the one that is told its scope, the register
is again what it was, also where a fault ends the computation deep inside; and no link
changes and no name is lost in any scope that was there.
-/

set_option autoImplicit false

namespace Lox

/-- A machine with the scope at hand. -/
structure Located where
  machine : Machine
  current : Nat

/-- Computations that find the scope at hand on the machine. -/
abbrev Moves := EStateM Stop Located

namespace Moves

variable {α : Type}

/-- What is left at the scope `i`, whether it ends with a value or not. -/
def located (i : Nat) : EStateM.Result Stop Machine α → EStateM.Result Stop Located α
  | .ok a m => .ok a ⟨m, i⟩
  | .error stop m => .error stop ⟨m, i⟩

/-- An operation on the scope at hand. -/
def here (p : Nat → Run α) : Moves α := fun l => located l.current (p l.current l.machine)

/-- Go to scope `i` and come back, however the computation ends there. -/
def inside (i : Nat) (p : Moves α) : Moves α := fun l =>
  match p { l with current := i } with
  | .ok a l' => .ok a { l' with current := l.current }
  | .error stop l' => .error stop { l' with current := l.current }

/-- The machine that a computation leaves behind, with the scope at hand. -/
def left : EStateM.Result Stop Located α → Located
  | .ok _ l => l
  | .error _ l => l

def arguments (eval : Expr → Moves Value) : List Expr → Moves (List Value)
  | [] => return []
  | e :: es => do
    let v ← eval e
    return v :: (← arguments eval es)

def sequence (exec : Stmt → Moves Flow) : List Stmt → Moves Flow
  | [] => return .normal
  | s :: ss => do
    match ← exec s with
    | .normal => sequence exec ss
    | .returned v => return .returned v

def enter (exec : Stmt → Moves Flow) (f : Closure) (args : List Value) : Moves Value := do
  let scope ← here fun _ => Evaluation.opened f args
  let flow ← inside scope (sequence exec f.declaration.body)
  if f.isInitializer then
    here fun _ => Run.getAt f.scope 0 (.ofName "this" f.declaration.name.line)
  else
    match flow with
    | .normal => return .nil
    | .returned v => return v

def construct (exec : Stmt → Moves Flow) (c : Class) (args : List Value) : Moves Value := do
  let self ← here fun _ => Run.newInstance c
  match c.initializer? with
  | some init =>
    let _ ← enter exec (← here fun _ => Run.bindMethod init self) args
    return self
  | none => return self

def invoke (exec : Stmt → Moves Flow) (f : Value) (args : List Value) (paren : Token) :
    Moves Value :=
  match f with
  | .function _ code => enter exec code args
  | .host _ code => here fun _ => Run.callHost code args paren
  | .class c => construct exec c args
  | _ => here fun _ => Run.fail paren .notCallable

mutual

def evaluate : Nat → Expr → Moves Value
  | 0, _ => throw .exhausted
  | n + 1, e =>
    match e with
    | .literal v => return .ofLiteral v
    | .grouping e => evaluate n e
    | .unary op e => do
      let v ← evaluate n e
      here fun _ => Run.blaming op (Operation.unary op.kind v)
    | .binary l op r => do
      let a ← evaluate n l
      let b ← evaluate n r
      here fun _ => Run.blaming op (Operation.binary op.kind a b)
    | .logical l op r => do
      let a ← evaluate n l
      if Operation.decides op.kind a then return a else evaluate n r
    | .var ref => here fun i => Run.read i ref
    | .assign ref e => do
      let v ← evaluate n e
      here fun i => Run.write i ref v
      return v
    | .call callee paren args => do
      let f ← evaluate n callee
      let vs ← arguments (evaluate n) args
      here fun _ => Evaluation.checkArity f vs paren
      invoke (execute n) f vs paren
    | .get e name => do
      let .instance id c ← evaluate n e | here fun _ => Run.fail name .noProperties
      here fun _ => Run.property id c name
    | .set e name value => do
      let .instance id _ ← evaluate n e | here fun _ => Run.fail name .noFields
      let v ← evaluate n value
      here fun _ => Run.setField id name.lexeme v
      return v
    | .this ref => here fun i => Run.read i ref
    | .super ref method => here fun i => Evaluation.superMethod i ref method

def execute : Nat → Stmt → Moves Flow
  | 0, _ => throw .exhausted
  | n + 1, s =>
    match s with
    | .expression e => do
      let _ ← evaluate n e
      return .normal
    | .print e => do
      let v ← evaluate n e
      here fun _ => Run.printLine v.text
      return .normal
    | .var name initializer => do
      let v ← match initializer with
        | some e => evaluate n e
        | none => pure .nil
      here fun i => Run.define i name.lexeme v
      return .normal
    | .block body => do
      let inner ← here Run.newScope
      inside inner (sequence (execute n) body)
    | .if condition yes no => do
      let v ← evaluate n condition
      if v.truthy then execute n yes
      else match no with
        | some s => execute n s
        | none => return .normal
    | .while condition body => loop n condition body
    | .function f => do
      let v ← here fun i => Run.newFunction ⟨f, i, false⟩
      here fun i => Run.define i f.name.lexeme v
      return .normal
    | .return _ value => do
      match value with
      | some e => return .returned (← evaluate n e)
      | none => return .returned .nil
    | .class name superclass methods => do
      here fun i => Evaluation.declareClass i name superclass methods
      return .normal

def loop : Nat → Expr → Stmt → Moves Flow
  | 0, _, _ => throw .exhausted
  | n + 1, condition, body => do
    let v ← evaluate n condition
    if v.truthy then
      match ← execute n body with
      | .normal => loop n condition body
      | .returned v => return .returned v
    else
      return .normal

end

def program (n : Nat) : List Stmt → Moves Unit
  | [] => return ()
  | s :: ss => do
    let _ ← execute n s
    program n ss

end Moves

/-- On the later machine each scope that was there is enclosed by the same one, and has a
value for each name that it had one for. -/
structure Machine.Retained (m m' : Machine) : Prop where
  next : m.scopes.next ≤ m'.scopes.next
  enclosing (i : Nat) : i < m.scopes.next → m'.scopes.enclosing? i = m.scopes.enclosing? i
  own (i : Nat) (name : String) : (m.scopes.own? i name).isSome → (m'.scopes.own? i name).isSome

namespace Machine.Retained

variable {m m' m'' : Machine}

theorem refl (m : Machine) : m.Retained m := ⟨Nat.le_refl _, fun _ _ => rfl, fun _ _ h => h⟩

theorem trans (h : m.Retained m') (h' : m'.Retained m'') : m.Retained m'' where
  next := Nat.le_trans h.next h'.next
  enclosing i hi := (h'.enclosing i (Nat.lt_of_lt_of_le hi h.next)).trans (h.enclosing i hi)
  own i name hi := h'.own i name (h.own i name hi)

theorem same (h : m'.scopes = m.scopes) : m.Retained m' :=
  ⟨Nat.le_of_eq (congrArg Scopes.next h.symm), fun _ _ => by rw [h], fun _ _ hi => h ▸ hi⟩

theorem push (m : Machine) (p : Option Nat) : m.Retained { m with scopes := m.scopes.push p } where
  next := by simp only [Scopes.next_push, Nat.le_succ]
  enclosing _ hi := Scopes.enclosing?_push_of_lt _ _ hi
  own i name hi := by simpa only [Scopes.own?_push] using hi

theorem define (m : Machine) (i : Nat) (name : String) (v : Value) :
    m.Retained { m with scopes := m.scopes.define i name v } where
  next := Nat.le_of_eq (Scopes.next_define _ _ _ _).symm
  enclosing _ _ := Scopes.enclosing?_define _ _ _ _ _
  own j other hj := by
    by_cases h : j = i ∧ other = name
    · obtain ⟨rfl, rfl⟩ := h
      rw [Scopes.own?_define_self _ _ _ (Scopes.lt_next_of_own hj)]
      rfl
    · rw [Scopes.own?_define_of_ne _ _ (by tauto)]
      exact hj

/-- The chain of scopes around a scope that was there. -/
theorem ancestor? (h : m.Retained m') {i : Nat} (hi : i < m.scopes.next) (d : Nat) :
    m'.scopes.ancestor? d i = m.scopes.ancestor? d i := by
  induction d generalizing i with
  | zero => rfl
  | succ d ih =>
    rw [Scopes.ancestor?, Scopes.ancestor?, h.enclosing i hi]
    split
    · rename_i hp
      exact ih (Nat.lt_trans (Scopes.enclosing?_lt hp) hi)
    · rfl

end Machine.Retained

namespace Run

/-- However the computation ends, the scopes that were there are still there. -/
def Retains {α : Type} (p : Run α) : Prop := ∀ m : Machine, m.Retained (left (p m))

end Run

theorem retaining : Stepwise Machine.Retained where
  refl := .refl
  trans := .trans
  newId _ := .same rfl
  newScope p m := .push m (some p)
  define i name v m := .define m i name v
  newInstance _ _ := .same rfl
  setField _ _ _ _ := .same rfl
  printLine s m := by
    unfold Run.printLine
    split <;> exact .same rfl
  readClock _ := .same rfl

namespace Moves

/-- On every machine the one computation ends as the other one that is told the scope at hand,
comes back to that scope, and leaves the scopes that were there. -/
def Restores {α : Type} (p : Moves α) (q : Nat → Run α) : Prop := ∀ (m : Machine) (i : Nat),
  p ⟨m, i⟩ = located i (q i m) ∧ m.Retained (Run.left (q i m))

namespace Restores

variable {α β : Type} {p : Moves α} {q : Nat → Run α}

theorem here (hq : ∀ i, (q i).Retains) : Restores (Moves.here q) q :=
  fun m i => ⟨rfl, hq i m⟩

theorem pure (a : α) : Restores (Pure.pure a) fun _ => Pure.pure a :=
  fun m _ => ⟨rfl, .refl m⟩

theorem exhausted : Restores (throw .exhausted : Moves α) fun _ => throw .exhausted :=
  fun m _ => ⟨rfl, .refl m⟩

theorem bind {f : α → Moves β} {g : α → Nat → Run β} (hp : Restores p q)
    (hf : ∀ a, Restores (f a) (g a)) : Restores (p >>= f) fun i => q i >>= fun a => g a i := by
  intro m i
  obtain ⟨hp, hm⟩ := hp m i
  show EStateM.bind p f ⟨m, i⟩ = located i ((q i >>= fun a => g a i) m) ∧
    m.Retained (Run.left ((q i >>= fun a => g a i) m))
  unfold EStateM.bind
  rw [hp]
  cases hr : q i m with
  | ok a m' =>
    rw [hr] at hm
    obtain ⟨hf, hm'⟩ := hf a m' i
    rw [Run.bind_ok hr]
    exact ⟨hf, hm.trans hm'⟩
  | error stop m' =>
    rw [hr] at hm
    rw [Run.bind_error hr]
    exact ⟨rfl, hm⟩

/-- The scope at hand does not matter to what is done in another scope. -/
theorem inside (j : Nat) (hp : Restores p q) : Restores (Moves.inside j p) fun _ => q j := by
  intro m i
  obtain ⟨hp, hm⟩ := hp m j
  refine ⟨?_, hm⟩
  unfold Moves.inside
  simp only [hp]
  cases q j m <;> rfl

end Restores

section Calls

variable {exec : Stmt → Moves Flow} {exec' : Nat → Stmt → Run Flow}

theorem restores_arguments {eval : Expr → Moves Value} {eval' : Nat → Expr → Run Value}
    (h : ∀ e, Restores (eval e) fun i => eval' i e) (es : List Expr) :
    Restores (arguments eval es) fun i => Evaluation.arguments (eval' i) es := by
  induction es with
  | nil => exact .pure _
  | cons e es ih => exact .bind (h e) fun v => .bind ih fun vs => .pure _

variable (h : ∀ s, Restores (exec s) fun i => exec' i s)

include h

theorem restores_sequence (ss : List Stmt) :
    Restores (sequence exec ss) fun i => Evaluation.sequence (exec' i) ss := by
  induction ss with
  | nil => exact .pure _
  | cons s ss ih =>
    apply Restores.bind (h s)
    intro flow
    cases flow with
    | normal => exact ih
    | returned v => exact .pure _

theorem restores_enter (f : Closure) (args : List Value) :
    Restores (enter exec f args) fun _ => Evaluation.enter exec' f args := by
  simp only [Evaluation.enter_eq]
  apply Restores.bind (.here fun _ => retaining.opened f args)
  intro scope
  apply Restores.bind (.inside scope (restores_sequence h _))
  intro flow
  split
  · exact .here fun _ => retaining.getAt _ _ _
  · cases flow with
    | normal => exact .pure _
    | returned v => exact .pure _

theorem restores_construct (c : Class) (args : List Value) :
    Restores (construct exec c args) fun _ => Evaluation.construct exec' c args := by
  apply Restores.bind (.here fun _ => retaining.newInstance c)
  intro self
  cases c.initializer? with
  | none => exact .pure _
  | some init =>
    apply Restores.bind (.here fun _ => retaining.bindMethod init self)
    intro f
    exact .bind (restores_enter h f args) fun _ => .pure _

theorem restores_invoke (f : Value) (args : List Value) (paren : Token) :
    Restores (invoke exec f args paren) fun _ => Evaluation.invoke exec' f args paren := by
  cases f with
  | function id code => exact restores_enter h code args
  | host id code => exact .here fun _ => retaining.callHost _ _ _
  | «class» c => exact restores_construct h c args
  | _ => exact .here fun _ => retaining.fail _ _

end Calls

/-- What the computations of a bound restore. -/
structure Restoring (n : Nat) : Prop where
  evaluate (e : Expr) : Restores (evaluate n e) fun i => Evaluation.evaluate n i e
  execute (s : Stmt) : Restores (execute n s) fun i => Evaluation.execute n i s
  loop (e : Expr) (s : Stmt) : Restores (loop n e s) fun i => Evaluation.loop n i e s

namespace Restoring

variable {n : Nat} (h : Restoring n)

include h

theorem evaluateSucc (e : Expr) :
    Restores (Moves.evaluate (n + 1) e) fun i => Evaluation.evaluate (n + 1) i e := by
  unfold Moves.evaluate Evaluation.evaluate
  cases e with
  | literal v => exact .pure _
  | grouping e => exact h.evaluate e
  | unary op e => exact .bind (h.evaluate e) fun _ => .here fun _ => retaining.blaming _ _
  | binary l op r =>
    exact .bind (h.evaluate l) fun _ => .bind (h.evaluate r) fun _ => .here fun _ => retaining.blaming _ _
  | logical l op r =>
    apply Restores.bind (h.evaluate l)
    intro a
    by_cases ha : Operation.decides op.kind a = true
    · simp only [ha, if_true]
      exact .pure a
    · simp only [ha]
      exact h.evaluate r
  | var r => exact .here fun i => retaining.read i r
  | assign r e =>
    apply Restores.bind (h.evaluate e)
    intro v
    exact .bind (.here fun i => retaining.write i r v) fun _ => .pure _
  | call f paren es =>
    apply Restores.bind (h.evaluate f)
    intro v
    apply Restores.bind (restores_arguments h.evaluate es)
    intro vs
    apply Restores.bind (.here fun _ => retaining.checkArity v vs paren)
    intro _
    exact restores_invoke h.execute v vs paren
  | get e name =>
    apply Restores.bind (h.evaluate e)
    intro v
    cases v with
    | «instance» id c => exact .here fun _ => retaining.property id c name
    | _ => exact .here fun _ => retaining.fail _ _
  | set e name value =>
    apply Restores.bind (h.evaluate e)
    intro o
    cases o with
    | «instance» id c =>
      apply Restores.bind (h.evaluate value)
      intro v
      exact .bind (.here fun _ => retaining.setField _ _ _) fun _ => .pure _
    | _ => exact .here fun _ => retaining.fail _ _
  | this r => exact .here fun i => retaining.read i r
  | super r method => exact .here fun i => retaining.superMethod i r method

theorem executeSucc (s : Stmt) :
    Restores (Moves.execute (n + 1) s) fun i => Evaluation.execute (n + 1) i s := by
  unfold Moves.execute Evaluation.execute
  cases s with
  | expression e => exact .bind (h.evaluate e) fun _ => .pure _
  | print e =>
    exact .bind (h.evaluate e) fun v => .bind (.here fun _ => retaining.printLine v.text) fun _ => .pure _
  | var x e =>
    cases e with
    | none => exact .bind (.pure _) fun v => .bind (.here fun i => retaining.define i _ v) fun _ => .pure _
    | some e => exact .bind (h.evaluate e) fun v => .bind (.here fun i => retaining.define i _ v) fun _ => .pure _
  | block ss =>
    exact .bind (.here retaining.newScope) fun inner => .inside inner (restores_sequence h.execute ss)
  | «if» e yes no =>
    apply Restores.bind (h.evaluate e)
    intro v
    by_cases hv : v.truthy = true
    · simp only [hv, if_true]
      exact h.execute yes
    · simp only [hv]
      cases no with
      | none => exact .pure _
      | some s => exact h.execute s
  | «while» e body => exact h.loop e body
  | function f =>
    apply Restores.bind (.here fun i => retaining.newFunction ⟨f, i, false⟩)
    intro v
    exact .bind (.here fun i => retaining.define i _ v) fun _ => .pure _
  | «return» t e =>
    cases e with
    | none => exact .pure _
    | some e => exact .bind (h.evaluate e) fun _ => .pure _
  | «class» x r ms => exact .bind (.here fun i => retaining.declareClass i x r ms) fun _ => .pure _

theorem loopSucc (e : Expr) (s : Stmt) :
    Restores (Moves.loop (n + 1) e s) fun i => Evaluation.loop (n + 1) i e s := by
  unfold Moves.loop Evaluation.loop
  apply Restores.bind (h.evaluate e)
  intro v
  by_cases hv : v.truthy = true
  · simp only [hv, if_true]
    apply Restores.bind (h.execute s)
    intro flow
    cases flow with
    | normal => exact h.loop e s
    | returned v => exact .pure _
  · simp only [hv]
    exact .pure _

end Restoring

theorem restoring (n : Nat) : Restoring n := by
  induction n with
  | zero => constructor <;> intros <;> exact .exhausted
  | succ n ih => exact ⟨ih.evaluateSucc, ih.executeSucc, ih.loopSucc⟩

/-- A program that starts in the global scope. -/
theorem program_eq (n : Nat) (ss : List Stmt) (m : Machine) :
    program n ss ⟨m, Machine.global⟩ = located Machine.global (Evaluation.program n ss m) := by
  induction ss generalizing m with
  | nil => rfl
  | cons s ss ih =>
    have hs : execute n s ⟨m, Machine.global⟩ =
        located Machine.global (Evaluation.execute n Machine.global s m) :=
      ((restoring n).execute s m Machine.global).1
    show EStateM.bind (execute n s) (fun _ => program n ss) ⟨m, Machine.global⟩ =
      located Machine.global ((Evaluation.execute n Machine.global s >>= fun _ =>
        Evaluation.program n ss) m)
    unfold EStateM.bind
    rw [hs]
    cases hr : Evaluation.execute n Machine.global s m with
    | ok flow m' =>
      rw [Run.bind_ok hr]
      exact ih m'
    | error stop m' =>
      rw [Run.bind_error hr]
      rfl

end Moves

end Lox
