import Lox.Evaluation

/-!
# What no run changes

A run changes scopes, instances, what was printed and the time. However it ends, it changes
no depth, no function of the host, not whether a flush fails, and not that there is room for
all that is printed. A fault that ends it is none of those that are found before anything
runs.
-/

set_option autoImplicit false

namespace Lox

/-- The parts of a machine that a run leaves as they are. -/
structure Machine.Unchanged (m m' : Machine) : Prop where
  depths : m'.depths = m.depths
  hosts : m'.hosts = m.hosts
  flushFails : m'.sink.flushFails = m.sink.flushFails
  roomy : m.sink.room = none → m'.sink.room = none

theorem Machine.Unchanged.refl (m : Machine) : m.Unchanged m := ⟨rfl, rfl, rfl, id⟩

theorem Machine.Unchanged.trans {m m' m'' : Machine} (h : m.Unchanged m') (h' : m'.Unchanged m'') :
    m.Unchanged m'' :=
  ⟨h'.depths.trans h.depths, h'.hosts.trans h.hosts, h'.flushFails.trans h.flushFails,
    h'.roomy ∘ h.roomy⟩

namespace Run

/-- The machine that a computation leaves behind, whether it ends with a value or not. -/
def left {α : Type} : EStateM.Result Stop Machine α → Machine
  | .ok _ m => m
  | .error _ m => m

/-- To look a name up changes nothing. -/
theorem left_read (i : Nat) (r : Reference) (m : Machine) : left (read i r m) = m := by
  unfold read
  split
  · unfold getAt
    split <;> rfl
  · cases m.scopes.get? Machine.global r.name.lexeme <;> rfl

/-- How a computation may end that started on the machine `m`. -/
inductive Kept {α : Type} (m : Machine) : EStateM.Result Stop Machine α → Prop
  | ok {a : α} {m' : Machine} (h : m.Unchanged m') : Kept m (.ok a m')
  | fault {d : Diagnostic} {m' : Machine} (h : m.Unchanged m') (hd : d.isStatic = false) :
      Kept m (.error (.fault d) m')
  | exhausted {m' : Machine} (h : m.Unchanged m') : Kept m (.error .exhausted m')

theorem Kept.unchanged {α : Type} {m : Machine} {r : EStateM.Result Stop Machine α}
    (h : Kept m r) : m.Unchanged (left r) := by
  cases h <;> assumption

theorem Kept.after {α : Type} {m m' : Machine} {r : EStateM.Result Stop Machine α}
    (h : Kept m' r) (hm : m.Unchanged m') : Kept m r := by
  cases h with
  | ok h => exact .ok (hm.trans h)
  | fault h hd => exact .fault (hm.trans h) hd
  | exhausted h => exact .exhausted (hm.trans h)

def Keeps {α : Type} (p : Run α) : Prop := ∀ m : Machine, Kept m (p m)

namespace Keeps

variable {α β : Type}

theorem pure (a : α) : Keeps (Pure.pure a : Run α) := fun m => .ok (.refl m)

theorem exhausted : Keeps (throw .exhausted : Run α) := fun m => .exhausted (.refl m)

theorem fail (t : Token) (cause : RuntimeCause) : Keeps (Run.fail t cause : Run α) :=
  fun m => .fault (.refl m) rfl

theorem bind {p : Run α} {f : α → Run β} (hp : Keeps p) (hf : ∀ a, Keeps (f a)) :
    Keeps (p >>= f) := by
  intro m
  have h := hp m
  show Kept m (EStateM.bind p f m)
  unfold EStateM.bind
  cases hr : p m with
  | ok a m' =>
    rw [hr] at h
    exact (hf a m').after h.unchanged
  | error e m' =>
    rw [hr] at h
    cases h with
    | fault h hd => exact .fault h hd
    | exhausted h => exact .exhausted h

theorem get_bind {f : Machine → Run β} (hf : ∀ m, Keeps (f m)) : Keeps (get >>= f) :=
  fun m => hf m m

theorem blaming (t : Token) (r : Except RuntimeCause α) : Keeps (Run.blaming t r) := by
  cases r with
  | ok a => exact .pure a
  | error cause => exact .fail t cause

theorem found (name : Token) (o : Option α) : Keeps (Run.found name o) := by
  cases o with
  | none => exact .fail _ _
  | some a => exact .pure a

theorem newId : Keeps Run.newId := fun _ => .ok ⟨rfl, rfl, rfl, id⟩

theorem newScope (enclosing : Nat) : Keeps (Run.newScope enclosing) :=
  fun _ => .ok ⟨rfl, rfl, rfl, id⟩

theorem define (scope : Nat) (name : String) (v : Value) : Keeps (Run.define scope name v) :=
  fun _ => .ok ⟨rfl, rfl, rfl, id⟩

theorem getAt (scope distance : Nat) (name : Token) : Keeps (Run.getAt scope distance name) := by
  intro m
  unfold Run.getAt
  split
  · exact .ok (.refl m)
  · exact fail _ _ m

theorem read (scope : Nat) (r : Reference) : Keeps (Run.read scope r) := by
  intro m
  unfold Run.read
  split
  · exact getAt _ _ _ m
  · exact found _ _ m

theorem write (scope : Nat) (r : Reference) (v : Value) : Keeps (Run.write scope r v) := by
  intro m
  unfold Run.write
  split
  · exact define _ _ _ m
  · exact fail _ _ m

theorem newInstance (c : Class) : Keeps (Run.newInstance c) := fun _ => .ok ⟨rfl, rfl, rfl, id⟩

theorem setField (id : Nat) (name : String) (v : Value) : Keeps (Run.setField id name v) :=
  fun _ => .ok ⟨rfl, rfl, rfl, fun h => h⟩

theorem newFunction (code : Closure) : Keeps (Run.newFunction code) :=
  .bind .newId fun _ => .pure _

theorem bindMethod (method : Closure) (self : Value) : Keeps (Run.bindMethod method self) :=
  .bind (.newScope _) fun _ => .bind (.define _ _ _) fun _ => .pure _

theorem property (id : Nat) (c : Class) (name : Token) : Keeps (Run.property id c name) := by
  apply get_bind
  intro m
  split
  · exact .pure _
  · split
    · exact .bind (.bindMethod _ _) fun _ => .newFunction _
    · exact .fail _ _

theorem printLine (s : String) : Keeps (Run.printLine s) := by
  intro m
  unfold Run.printLine
  split
  · exact .ok ⟨rfl, rfl, rfl, id⟩
  · exact .fault (.refl m) rfl
  · rename_i hroom
    exact .ok ⟨rfl, rfl, rfl, fun h => by simp [hroom] at h⟩

theorem callHost (f : HostFunction) (args : List Value) (paren : Token) :
    Keeps (Run.callHost f args paren) := by
  intro m
  obtain ⟨name, arity, code⟩ := f
  cases code with
  | clock => exact .ok ⟨rfl, rfl, rfl, id⟩
  | given i =>
    simp only [Run.callHost]
    split
    · exact .ok (.refl m)
    · exact fail _ _ m

end Keeps

end Run

namespace Evaluation

open Run

theorem keeps_arguments {eval : Expr → Run Value} (h : ∀ e, Keeps (eval e)) (es : List Expr) :
    Keeps (arguments eval es) := by
  induction es with
  | nil => exact .pure _
  | cons e es ih => exact .bind (h e) fun v => .bind ih fun vs => .pure _

theorem keeps_sequence {exec : Stmt → Run Flow} (h : ∀ s, Keeps (exec s)) (ss : List Stmt) :
    Keeps (sequence exec ss) := by
  induction ss with
  | nil => exact .pure _
  | cons s ss ih =>
    apply Keeps.bind (h s)
    intro flow
    cases flow with
    | normal => exact ih
    | returned v => exact .pure _

theorem keeps_defineAll (scope : Nat) (ps : List Token) (vs : List Value) :
    Keeps (defineAll scope ps vs) := by
  induction ps generalizing vs with
  | nil => exact .pure _
  | cons p ps ih =>
    cases vs with
    | nil => exact .pure _
    | cons v vs => exact .bind (.define _ _ _) fun _ => ih vs

section Calls

variable {exec : Nat → Stmt → Run Flow} (h : ∀ scope s, Keeps (exec scope s))

include h

theorem keeps_enter (f : Closure) (args : List Value) : Keeps (enter exec f args) := by
  apply Keeps.bind (.newScope _)
  intro scope
  apply Keeps.bind (keeps_defineAll _ _ _)
  intro _
  apply Keeps.bind (keeps_sequence (h scope) _)
  intro flow
  split
  · exact .getAt _ _ _
  · split
    · exact .pure _
    · exact .pure _

theorem keeps_construct (c : Class) (args : List Value) : Keeps (construct exec c args) := by
  apply Keeps.bind (.newInstance _)
  intro self
  split
  · apply Keeps.bind (.bindMethod _ _)
    intro init
    exact .bind (keeps_enter h _ _) fun _ => .pure _
  · exact .pure _

theorem keeps_invoke (f : Value) (args : List Value) (paren : Token) :
    Keeps (invoke exec f args paren) := by
  unfold invoke
  split
  · exact keeps_enter h _ _
  · exact .callHost _ _ _
  · exact keeps_construct h _ _
  · exact .fail _ _

end Calls

theorem keeps_checkArity (f : Value) (args : List Value) (paren : Token) :
    Keeps (checkArity f args paren) := by
  unfold checkArity
  split
  · exact .fail _ _
  · split
    · exact .pure _
    · exact .fail _ _

theorem keeps_superMethod (scope : Nat) (r : Reference) (method : Token) :
    Keeps (superMethod scope r method) := by
  apply Keeps.get_bind
  intro m
  split
  · apply Keeps.bind (.getAt _ _ _)
    intro c
    split
    · apply Keeps.bind (.getAt _ _ _)
      intro self
      split
      · split
        · exact .bind (.bindMethod _ _) fun _ => .newFunction _
        · exact .fail _ _
      · exact .fail _ _
    · exact .fail _ _
  · exact .fail _ _

theorem keeps_declareClass (scope : Nat) (name : Token) (superclass : Option Reference)
    (methods : List Function) : Keeps (declareClass scope name superclass methods) := by
  have hparent : Keeps (superclassOf scope superclass) := by
    cases superclass with
    | none => exact .pure _
    | some r =>
      apply Keeps.bind (.read _ _)
      intro v
      split
      · exact .pure _
      · exact .fail _ _
  have hscope (parent : Option Class) : Keeps (methodScope scope parent) := by
    cases parent with
    | none => exact .pure _
    | some c => exact .bind (.newScope _) fun _ => .bind (.define _ _ _) fun _ => .pure _
  apply Keeps.bind hparent
  intro parent
  apply Keeps.bind (.define _ _ _)
  intro _
  apply Keeps.bind (hscope parent)
  intro inner
  exact .bind .newId fun _ => .define _ _ _

/-- What one more level of depth keeps if all below does. -/
structure Keeping (n : Nat) : Prop where
  evaluate (scope : Nat) (e : Expr) : Keeps (evaluate n scope e)
  execute (scope : Nat) (s : Stmt) : Keeps (execute n scope s)
  loop (scope : Nat) (condition : Expr) (body : Stmt) : Keeps (loop n scope condition body)

theorem Keeping.evaluate_succ {n : Nat} (h : Keeping n) (scope : Nat) (e : Expr) :
    Keeps (Evaluation.evaluate (n + 1) scope e) := by
  unfold Evaluation.evaluate
  cases e with
  | literal v => exact .pure _
  | grouping e => exact h.evaluate _ _
  | unary op e => exact .bind (h.evaluate _ _) fun _ => .blaming _ _
  | binary l op r =>
    exact .bind (h.evaluate _ _) fun _ => .bind (h.evaluate _ _) fun _ => .blaming _ _
  | logical l op r =>
    apply Keeps.bind (h.evaluate _ _)
    intro a
    split
    · exact .pure _
    · exact h.evaluate _ _
  | var r => exact .read _ _
  | assign r e => exact .bind (h.evaluate _ _) fun _ => .bind (.write _ _ _) fun _ => .pure _
  | call f paren es =>
    apply Keeps.bind (h.evaluate _ _)
    intro v
    apply Keeps.bind (keeps_arguments (h.evaluate scope) _)
    intro vs
    exact .bind (keeps_checkArity _ _ _) fun _ => keeps_invoke h.execute _ _ _
  | get e name =>
    apply Keeps.bind (h.evaluate _ _)
    intro v
    split
    · exact .property _ _ _
    · exact .fail _ _
  | set e name v =>
    apply Keeps.bind (h.evaluate _ _)
    intro u
    split
    · exact .bind (h.evaluate _ _) fun _ => .bind (.setField _ _ _) fun _ => .pure _
    · exact .fail _ _
  | this r => exact .read _ _
  | super r method => exact keeps_superMethod _ _ _

theorem Keeping.execute_succ {n : Nat} (h : Keeping n) (scope : Nat) (s : Stmt) :
    Keeps (Evaluation.execute (n + 1) scope s) := by
  unfold Evaluation.execute
  cases s with
  | expression e => exact .bind (h.evaluate _ _) fun _ => .pure _
  | print e => exact .bind (h.evaluate _ _) fun _ => .bind (.printLine _) fun _ => .pure _
  | var x e =>
    cases e with
    | none => exact .bind (.pure _) fun _ => .bind (.define _ _ _) fun _ => .pure _
    | some e => exact .bind (h.evaluate _ _) fun _ => .bind (.define _ _ _) fun _ => .pure _
  | block ss => exact .bind (.newScope _) fun inner => keeps_sequence (h.execute inner) _
  | «if» e yes no =>
    apply Keeps.bind (h.evaluate _ _)
    intro v
    split
    · exact h.execute _ _
    · cases no with
      | none => exact .pure _
      | some no => exact h.execute _ _
  | «while» e body => exact h.loop _ _ _
  | function f => exact .bind (.newFunction _) fun _ => .bind (.define _ _ _) fun _ => .pure _
  | «return» t e =>
    cases e with
    | none => exact .pure _
    | some e => exact .bind (h.evaluate _ _) fun _ => .pure _
  | «class» x r ms => exact .bind (keeps_declareClass _ _ _ _) fun _ => .pure _

theorem Keeping.loop_succ {n : Nat} (h : Keeping n) (scope : Nat) (condition : Expr) (body : Stmt) :
    Keeps (Evaluation.loop (n + 1) scope condition body) := by
  unfold Evaluation.loop
  apply Keeps.bind (h.evaluate _ _)
  intro v
  split
  · apply Keeps.bind (h.execute _ _)
    intro flow
    cases flow with
    | normal => exact h.loop _ _ _
    | returned v => exact .pure _
  · exact .pure _

theorem keeping (n : Nat) : Keeping n := by
  induction n with
  | zero =>
    constructor <;> intros <;> exact .exhausted
  | succ n ih => exact ⟨ih.evaluate_succ, ih.execute_succ, ih.loop_succ⟩

/-- A program leaves depths, functions of the host and the flushing alone, and no fault that
ends it is static. -/
theorem keeps_program (n : Nat) (ss : List Stmt) : Keeps (program n ss) := by
  induction ss with
  | nil => exact .pure _
  | cons s ss ih => exact .bind ((keeping n).execute _ _) fun _ => ih

end Evaluation

end Lox
