import Lox.Proofs.Evaluation.Return
import Lox.Proofs.Session.Super

/-!
# What a `return` does in a session

Main statement: a `return` that is executed in the body of a function ends the call, with its
value and on the machine that its expression left; without one the call yields `nil`; and no
statement of an accepted program at top level ends with a `return`.
-/

set_option autoImplicit false

namespace Lox

open Scoping

namespace Evaluation

/-- What a task runs, as a part of a program. -/
def Task.node : Task → Node
  | .evaluate _ _ e => .expr e
  | .execute _ _ s => .stmt s
  | .loop _ _ e s => .stmt (.while e s)

variable {t t' : Task} {m m' : Machine}

/-- The statements that a statement starts stand in the same function. -/
theorem Spawns.inside (h : Spawns t m t' m') (ht : t.isExpression = false)
    (ht' : t'.isExpression = false) : ∃ p, Inside t.node p t'.node ∧ p.routine? = none := by
  have hpart {n : Node} {s : Stmt} (hs : ([], .stmt s) ∈ n.children) :
      ∃ p, Inside n p (.stmt s) ∧ p.routine? = none := ⟨[], .child (q := []) hs .here, rfl⟩
  cases h with
  | body => cases ht
  | @inner n scope i m m₁ m₂ before after s =>
    have hs : ([.block], .stmt s) ∈ (Node.stmt (.block (before ++ s :: after))).children :=
      List.mem_map.2 ⟨s, List.mem_append_right _ List.mem_cons_self, rfl⟩
    exact ⟨[.block], .child hs .here, rfl⟩
  | yes | no | loopBody => exact hpart (by simp [Task.node, Node.children])
  | «while» | again => exact ⟨[], .here, rfl⟩
  | _ => cases ht'

theorem Within.inside (h : Within t m t' m') (ht : t.isExpression = false)
    (ht' : t'.isExpression = false) : ∃ p, Inside t.node p t'.node ∧ p.routine? = none := by
  induction h with
  | self => exact ⟨[], .here, rfl⟩
  | @step t t₁ t₂ m m₁ m₂ hsp hc hs ih =>
    have ht₁ : t₁.isExpression = false := by
      rw [Bool.eq_false_iff]
      intro he
      rw [hs.isExpression he] at ht'
      cases ht'
    obtain ⟨p, hp, hnone⟩ := hsp.inside ht ht₁
    obtain ⟨q, hq, hnone'⟩ := ih ht₁ ht'
    refine ⟨q ++ p, hp.trans hq, ?_⟩
    unfold Path.routine? at hnone hnone' ⊢
    rw [List.find?_append, hnone, hnone', Option.or_none]

end Evaluation

namespace Session

open Evaluation

/-- A statement at top level does not leave what it is executed in. -/
theorem not_returned_of_accepted {s : Session} {source : String} {program : List Stmt}
    (ha : s.accepted? source = some program) {stmt : Stmt} (hs : stmt ∈ program) {n scope : Nat}
    {m m' : Machine} {v : Value} : Evaluation.execute n scope stmt m ≠ .ok (.returned v) m' := by
  intro h
  obtain ⟨k, i, keyword, e, m₁, hw, -⟩ := (Flows.execute h).within
  obtain ⟨p, hp, hnone⟩ := hw.inside rfl rfl
  have hscoped := (faults_program (formed_of_accepted ha)).1 (faults_of_accepted ha)
  exact hscoped.returns ⟨stmt, hs, hp⟩ hnone

/-- Whatever blocks, branches and loops there are around it, a `return` in the body of a function
ends the call: nothing is started after its expression, the value of the call is that of the
expression, and the machine is the one that the expression left. A call in the body of which no
`return` is executed yields `nil`. In a program that is accepted no statement at top level ends
with a `return`, whatever the machine it is executed on. -/
theorem return_unwinds {s : Session} {source : String} {program : List Stmt}
    (ha : s.accepted? source = some program) {n scope : Nat} {callee : Expr} {paren : Token}
    {es : List Expr} {m m₁ : Machine} {f : Closure} {inner : Nat}
    (hc : Enters n scope callee paren es m f inner m₁) :
    (∀ k i keyword e m₂ v m₃,
      InBody n inner f.declaration.body m₁ (.execute (k + 1) i (.return keyword e)) m₂ →
      returnValue k i e m₂ = .ok v m₃ →
      Evaluation.evaluate (n + 1) scope (.call callee paren es) m = .ok v m₃ ∧
        Task.log (.execute (k + 1) i (.return keyword e)) m₂ <:+
          Task.log (.evaluate (n + 1) scope (.call callee paren es)) m) ∧
    (∀ v m₂, Evaluation.evaluate (n + 1) scope (.call callee paren es) m = .ok v m₂ →
      (∀ k i keyword e m', ¬ InBody n inner f.declaration.body m₁
        (.execute (k + 1) i (.return keyword e)) m') → v = .nil) ∧
    ∀ stmt ∈ program, ∀ k i m v m', Evaluation.execute k i stmt m ≠ .ok (.returned v) m' :=
  ⟨fun _ _ _ _ _ _ _ => hc.returned, fun _ _ => hc.normal,
    fun _ hs _ _ _ _ _ => not_returned_of_accepted ha hs⟩

/-- A function that returns from a block in a loop that would go on for ever. -/
def returnText : String := "fun f() { while (true) { return true; } } f();"

def returnStmt : Stmt := .return ⟨.word .return, "return", 1⟩ (some (.literal (.bool true)))

def returnLoop : Stmt := .while (.literal (.bool true)) (.block [returnStmt])

def returnFunction : Function := .mk (.ofName "f" 1) [] [returnLoop]

def returnCall : Expr := .call (.var ⟨0, .ofName "f" 1⟩) ⟨.mark .rightParen, ")", 1⟩ []

theorem accepted_return : (start 0).accepted? returnText =
    some [.function returnFunction, .expression returnCall] := by
  cbv

/-- The machine when the function is declared. -/
def returnMachine : Machine :=
  Run.left (Evaluation.program 8 [.function returnFunction]
    ((start 0).prepared returnText [.function returnFunction, .expression returnCall]).machine)

/-- The machine when the body of the function is executed. -/
def returnBodyMachine : Machine := Run.left (opened ⟨returnFunction, 0, false⟩ [] returnMachine)

/-- The machine when the block in the loop is executed. -/
def returnBlockMachine : Machine := Run.left (Run.newScope 1 returnBodyMachine)

theorem enters_return : Enters 6 0 (.var ⟨0, .ofName "f" 1⟩) ⟨.mark .rightParen, ")", 1⟩ []
    returnMachine ⟨returnFunction, 0, false⟩ 1 returnBodyMachine := by
  have hcallee : Evaluation.evaluate 6 0 (.var ⟨0, .ofName "f" 1⟩) returnMachine =
      .ok (.function 1 ⟨returnFunction, 0, false⟩) returnMachine := by cbv
  have hopened : opened ⟨returnFunction, 0, false⟩ [] returnMachine = .ok 1 returnBodyMachine := by
    cbv
  exact .intro hcallee rfl rfl hopened rfl

theorem inBody_return :
    InBody 6 1 [returnLoop] returnBodyMachine (.execute 3 2 returnStmt) returnBlockMachine := by
  have hblock : Run.newScope 1 returnBodyMachine = .ok 2 returnBlockMachine := by cbv
  have hspawn : Spawns (.execute 4 1 (.block ([] ++ [returnStmt]))) returnBodyMachine
      (.execute 3 2 returnStmt) returnBlockMachine := .inner hblock rfl
  have hbody : Within (.execute 4 1 (.block [returnStmt])) returnBodyMachine
      (.execute 3 2 returnStmt) returnBlockMachine := Within.self.statement hspawn rfl
  exact ⟨_, List.mem_cons_self, (hbody.statement (.loopBody rfl rfl) rfl).statement .while rfl⟩

theorem return_unwinds_loop :
    Evaluation.evaluate 7 0 returnCall returnMachine = .ok (.bool true) returnBlockMachine :=
  ((return_unwinds accepted_return enters_return).1 _ _ _ _ _ _ _ inBody_return rfl).1

end Session

end Lox
