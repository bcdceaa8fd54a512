import Lox.Evaluation

/-!
# What is evaluated in the course of a computation

A task spawns the tasks that it calls upon, each on the machine of that moment. What a
computation visits is everything spawned from it, whether the computation ends or not.
-/

set_option autoImplicit false

namespace Lox

theorem Run.bind_ok {α β : Type} {p : Run α} {f : α → Run β} {a : α} {m m' : Machine}
    (h : p m = .ok a m') : (p >>= f) m = f a m' := by
  show EStateM.bind p f m = f a m'
  unfold EStateM.bind
  rw [h]

theorem Run.bind_error {α β : Type} {p : Run α} {f : α → Run β} {m m' : Machine} {stop : Stop}
    (h : p m = .error stop m') : (p >>= f) m = .error stop m' := by
  show EStateM.bind p f m = .error stop m'
  unfold EStateM.bind
  rw [h]

theorem Run.ok_of_bind {α β : Type} {p : Run α} {f : α → Run β} {b : β} {m m' : Machine}
    (h : (p >>= f) m = .ok b m') : ∃ a m₁, p m = .ok a m₁ ∧ f a m₁ = .ok b m' := by
  cases hr : p m with
  | ok a m₁ =>
    rw [bind_ok hr] at h
    exact ⟨a, m₁, rfl, h⟩
  | error stop m₁ =>
    rw [bind_error hr] at h
    cases h

namespace Evaluation

open Run

theorem normal_of_sequence {exec : Stmt → Run Flow} {s : Stmt} {ss : List Stmt} {m m' : Machine}
    (h : sequence exec (s :: ss) m = .ok .normal m') :
    ∃ m₁, exec s m = .ok .normal m₁ ∧ sequence exec ss m₁ = .ok .normal m' := by
  obtain ⟨f, m₁, hs, hss⟩ := ok_of_bind h
  cases f with
  | normal => exact ⟨m₁, hs, hss⟩
  | returned v => cases hss

inductive Task where
  | evaluate (n scope : Nat) (e : Expr)
  | execute (n scope : Nat) (s : Stmt)
  | loop (n scope : Nat) (condition : Expr) (body : Stmt)

/-- The scope of a call, with the arguments in it. -/
def opened (f : Closure) (args : List Value) : Run Nat := do
  let scope ← newScope f.scope
  defineAll scope f.declaration.params args
  return scope

/-- A new instance and the scope in which its initializer is called. -/
def openedInitializer (c : Class) (init : Closure) (args : List Value) : Run Nat := do
  let self ← newInstance c
  opened (← bindMethod init self) args

theorem enter_eq (exec : Nat → Stmt → Run Flow) (f : Closure) (args : List Value) :
    enter exec f args = (do
      let scope ← opened f args
      let flow ← sequence (exec scope) f.declaration.body
      if f.isInitializer then
        getAt f.scope 0 (.ofName "this" f.declaration.name.line)
      else
        match flow with
        | .normal => return .nil
        | .returned v => return v) := by
  simp only [opened, bind_assoc, pure_bind]
  rfl

/-- The scope and the body that a call runs, and the machine when it starts to. -/
inductive Opens : Value → List Value → Machine → Nat → List Stmt → Machine → Prop
  | function {id scope : Nat} {f : Closure} {vs : List Value} {m m' : Machine}
      (h : opened f vs m = .ok scope m') :
      Opens (.function id f) vs m scope f.declaration.body m'
  | class {c : Class} {init : Closure} {vs : List Value} {m m' : Machine} {scope : Nat}
      (hi : c.initializer? = some init) (h : openedInitializer c init vs m = .ok scope m') :
      Opens (.class c) vs m scope init.declaration.body m'

/-- `Spawns t m t' m'`: task `t`, started on machine `m`, starts task `t'` on machine `m'`. -/
inductive Spawns : Task → Machine → Task → Machine → Prop
  | grouping {n scope : Nat} {m : Machine} {e : Expr} :
      Spawns (.evaluate (n + 1) scope (.grouping e)) m (.evaluate n scope e) m
  | operand {n scope : Nat} {m : Machine} {op : Token} {e : Expr} :
      Spawns (.evaluate (n + 1) scope (.unary op e)) m (.evaluate n scope e) m
  | left {n scope : Nat} {m : Machine} {op : Token} {l r : Expr} :
      Spawns (.evaluate (n + 1) scope (.binary l op r)) m (.evaluate n scope l) m
  | right {n scope : Nat} {m m₁ : Machine} {op : Token} {l r : Expr} {a : Value}
      (hl : evaluate n scope l m = .ok a m₁) :
      Spawns (.evaluate (n + 1) scope (.binary l op r)) m (.evaluate n scope r) m₁
  | decider {n scope : Nat} {m : Machine} {op : Token} {l r : Expr} :
      Spawns (.evaluate (n + 1) scope (.logical l op r)) m (.evaluate n scope l) m
  | undecided {n scope : Nat} {m m₁ : Machine} {op : Token} {l r : Expr} {a : Value}
      (hl : evaluate n scope l m = .ok a m₁) (ha : Operation.decides op.kind a = false) :
      Spawns (.evaluate (n + 1) scope (.logical l op r)) m (.evaluate n scope r) m₁
  | assigned {n scope : Nat} {m : Machine} {r : Reference} {e : Expr} :
      Spawns (.evaluate (n + 1) scope (.assign r e)) m (.evaluate n scope e) m
  | callee {n scope : Nat} {m : Machine} {f : Expr} {paren : Token} {es : List Expr} :
      Spawns (.evaluate (n + 1) scope (.call f paren es)) m (.evaluate n scope f) m
  | argument {n scope : Nat} {m m₁ m₂ : Machine} {f e : Expr} {paren : Token}
      {before after : List Expr} {v : Value} {vs : List Value}
      (hf : evaluate n scope f m = .ok v m₁)
      (hvs : arguments (evaluate n scope) before m₁ = .ok vs m₂) :
      Spawns (.evaluate (n + 1) scope (.call f paren (before ++ e :: after))) m
        (.evaluate n scope e) m₂
  | body {n scope inner : Nat} {m m₁ m₂ m₃ m₄ m₅ : Machine} {f : Expr} {paren : Token}
      {es : List Expr} {v : Value} {vs : List Value} {before after : List Stmt} {s : Stmt}
      (hf : evaluate n scope f m = .ok v m₁)
      (hvs : arguments (evaluate n scope) es m₁ = .ok vs m₂)
      (ha : checkArity v vs paren m₂ = .ok () m₃)
      (ho : Opens v vs m₃ inner (before ++ s :: after) m₄)
      (hs : sequence (execute n inner) before m₄ = .ok .normal m₅) :
      Spawns (.evaluate (n + 1) scope (.call f paren es)) m (.execute n inner s) m₅
  | object {n scope : Nat} {m : Machine} {e : Expr} {name : Token} :
      Spawns (.evaluate (n + 1) scope (.get e name)) m (.evaluate n scope e) m
  | target {n scope : Nat} {m : Machine} {e v : Expr} {name : Token} :
      Spawns (.evaluate (n + 1) scope (.set e name v)) m (.evaluate n scope e) m
  | field {n scope id : Nat} {m m₁ : Machine} {e v : Expr} {name : Token} {c : Class}
      (he : evaluate n scope e m = .ok (.instance id c) m₁) :
      Spawns (.evaluate (n + 1) scope (.set e name v)) m (.evaluate n scope v) m₁
  | expression {n scope : Nat} {m : Machine} {e : Expr} :
      Spawns (.execute (n + 1) scope (.expression e)) m (.evaluate n scope e) m
  | printed {n scope : Nat} {m : Machine} {e : Expr} :
      Spawns (.execute (n + 1) scope (.print e)) m (.evaluate n scope e) m
  | initial {n scope : Nat} {m : Machine} {x : Token} {e : Expr} :
      Spawns (.execute (n + 1) scope (.var x (some e))) m (.evaluate n scope e) m
  | inner {n scope inner : Nat} {m m₁ m₂ : Machine} {before after : List Stmt} {s : Stmt}
      (hn : newScope scope m = .ok inner m₁)
      (hs : sequence (execute n inner) before m₁ = .ok .normal m₂) :
      Spawns (.execute (n + 1) scope (.block (before ++ s :: after))) m (.execute n inner s) m₂
  | condition {n scope : Nat} {m : Machine} {e : Expr} {yes : Stmt} {no : Option Stmt} :
      Spawns (.execute (n + 1) scope (.if e yes no)) m (.evaluate n scope e) m
  | yes {n scope : Nat} {m m₁ : Machine} {e : Expr} {yes : Stmt} {no : Option Stmt} {v : Value}
      (he : evaluate n scope e m = .ok v m₁) (hv : v.truthy = true) :
      Spawns (.execute (n + 1) scope (.if e yes no)) m (.execute n scope yes) m₁
  | no {n scope : Nat} {m m₁ : Machine} {e : Expr} {yes no : Stmt} {v : Value}
      (he : evaluate n scope e m = .ok v m₁) (hv : v.truthy = false) :
      Spawns (.execute (n + 1) scope (.if e yes (some no))) m (.execute n scope no) m₁
  | while {n scope : Nat} {m : Machine} {e : Expr} {body : Stmt} :
      Spawns (.execute (n + 1) scope (.while e body)) m (.loop n scope e body) m
  | returned {n scope : Nat} {m : Machine} {t : Token} {e : Expr} :
      Spawns (.execute (n + 1) scope (.return t (some e))) m (.evaluate n scope e) m
  | superclass {n scope : Nat} {m : Machine} {x : Token} {r : Reference} {fs : List Function} :
      Spawns (.execute (n + 1) scope (.class x (some r) fs)) m (.evaluate (n + 1) scope (.var r)) m
  | loopCondition {n scope : Nat} {m : Machine} {e : Expr} {body : Stmt} :
      Spawns (.loop (n + 1) scope e body) m (.evaluate n scope e) m
  | loopBody {n scope : Nat} {m m₁ : Machine} {e : Expr} {body : Stmt} {v : Value}
      (he : evaluate n scope e m = .ok v m₁) (hv : v.truthy = true) :
      Spawns (.loop (n + 1) scope e body) m (.execute n scope body) m₁
  | again {n scope : Nat} {m m₁ m₂ : Machine} {e : Expr} {body : Stmt} {v : Value}
      (he : evaluate n scope e m = .ok v m₁) (hv : v.truthy = true)
      (hb : execute n scope body m₁ = .ok .normal m₂) :
      Spawns (.loop (n + 1) scope e body) m (.loop n scope e body) m₂

/-- What is visited from a task on. -/
inductive Visits : Task → Machine → Task → Machine → Prop
  | self {t : Task} {m : Machine} : Visits t m t m
  | step {t t₁ t₂ : Task} {m m₁ m₂ : Machine} (h : Spawns t m t₁ m₁) (hs : Visits t₁ m₁ t₂ m₂) :
      Visits t m t₂ m₂

theorem Visits.trans {t t₁ t₂ : Task} {m m₁ m₂ : Machine} (h : Visits t m t₁ m₁)
    (h' : Visits t₁ m₁ t₂ m₂) : Visits t m t₂ m₂ := by
  induction h with
  | self => exact h'
  | step hs _ ih => exact .step hs (ih h')

theorem Visits.snoc {t t₁ t₂ : Task} {m m₁ m₂ : Machine} (h : Visits t m t₁ m₁)
    (hs : Spawns t₁ m₁ t₂ m₂) : Visits t m t₂ m₂ := h.trans (.step hs .self)

/-- The reference at which an expression looks a name up to read or to assign it. -/
def looksUp : Expr → Option Reference
  | .var r | .this r | .assign r _ => some r
  | _ => none

end Evaluation

end Lox
