import Lox.Proofs.Frame.Call
import Lox.Proofs.Session.Course

/-!
# What a call in a session can touch

Main statement: a call leaves every scope and every instance as it is that cannot be reached
from its callee, its arguments or the global scope, and makes a scope for its parameters that
nothing referred to. So the names of an activation that no closure captured outlast every call
that is made from it, also one of the same function.
-/

set_option autoImplicit false

namespace Lox.Session

open Evaluation Placement

variable {us : List Turn} {s : Session} {bound : Nat} {source : String} {n scope : Nat}
  {callee : Expr} {paren : Token} {es : List Expr} {m m' : Machine} {f : Value} {vs : List Value}

/-- The machine on which a call is made is sane, and its callee and arguments are valid. -/
theorem sane_of_calls (h : Course us s)
    (hv : s.Visited bound source (.evaluate (n + 1) scope (.call callee paren es)) m)
    (hc : Calls n scope callee es m f vs m') :
    Sane (setting (⟨s, bound, source⟩ :: us)) m' ∧
      ∀ v ∈ f :: vs, Valid (setting (⟨s, bound, source⟩ :: us)) m' v := by
  obtain ⟨hf, hvs⟩ := hc
  obtain ⟨-, -, hs, hvalid, hall⟩ :=
    (h.ready hv).arguments (preserves _ n) hf (List.append_nil es).symm hvs
  exact ⟨hs, List.forall_mem_cons.2 ⟨hvalid, hall⟩⟩

/-- A call leaves alone what there is and cannot be reached from its callee, its arguments or the
global scope, however it ends. The scope in which it binds its parameters and runs the body of its
callee is a new one, to which neither the callee, nor the arguments, nor anything on the machine
refers. In particular a scope other than the global one that no value captures, as that of an
activation in progress, is left as it is. -/
theorem call_frame (h : Course us s)
    (hv : s.Visited bound source (.evaluate (n + 1) scope (.call callee paren es)) m)
    (hc : Calls n scope callee es m f vs m') :
    m'.Alike (m'.Unreached (f :: vs))
      (Run.left (Evaluation.evaluate (n + 1) scope (.call callee paren es) m)) ∧
    (∀ code ∈ f.code?, code.arity = vs.length →
      ∃ inner m₁, Opens f vs m' inner code.declaration.body m₁ ∧
        (∃ finish : Flow → Run Value, Evaluation.evaluate (n + 1) scope (.call callee paren es) m =
          (sequence (Evaluation.execute n inner) code.declaration.body >>= finish) m₁) ∧
        (∀ p ∈ code.declaration.params, (m₁.scopes.own? inner p.lexeme).isSome) ∧
        m'.scopes.next ≤ inner ∧ (∀ x, ¬ m'.Refers x (.scope inner)) ∧
          ∀ v ∈ f :: vs, ¬ v.Refers (.scope inner)) ∧
    ∀ i < m'.scopes.next, i ≠ Machine.global → ¬ m'.Captured i →
      (∀ v ∈ f :: vs, ¬ m'.Captures v i) →
      (Run.left (Evaluation.evaluate (n + 1) scope (.call callee paren es) m)).scopes.cells[i]? =
        m'.scopes.cells[i]? := by
  obtain ⟨hs, hvalid⟩ := sane_of_calls h hv hc
  have halike := hc.alike paren hs.hosts
  refine ⟨halike, fun code hcode hlen => ?_, fun i hi hglobal hcaptured hvalues => ?_⟩
  · obtain ⟨inner, m₁, ho, finish, hrun⟩ :=
      invoke_of_code hcode (Evaluation.execute n) vs paren m'
    have harity : f.arity? = some vs.length := hlen ▸ Value.arity?_of_code hcode
    have hcall := (hc.evaluate_eq paren).trans (Run.bind_ok (checkArity_ok harity paren m'))
    have hle := next_le_of_opens ho
    refine ⟨inner, m₁, ho, ⟨finish, hcall.trans hrun⟩, own?_of_opens ho hcode hlen, hle,
      fun x hx => ?_, fun v hv hx => ?_⟩
    · exact Nat.not_lt_of_le hle (hs.lt_next hx)
    · exact Nat.not_lt_of_le hle ((hvalid v hv).lt_next hs.global hx)
  · refine halike.scopes ⟨hi, fun hr => ?_⟩
    rcases hr.captured with hg | ⟨v, hv, hcv⟩ | hcm
    · exact hglobal hg
    · exact hvalues v hv hcv
    · exact hcaptured hcm

/-- A function that calls itself while its parameter is true. -/
def recursiveText : String := "fun f(a) \x7b if (a) f(false); \x7d f(true);"

def recursiveCall : Expr :=
  .call (.var ⟨1, .ofName "f" 1⟩) ⟨.mark .rightParen, ")", 1⟩ [.literal (.bool false)]

def recursiveIf : Stmt := .if (.var ⟨0, .ofName "a" 1⟩) (.expression recursiveCall) none

def recursiveFunction : Function := .mk (.ofName "f" 1) [.ofName "a" 1] [recursiveIf]

def firstCall : Expr :=
  .call (.var ⟨2, .ofName "f" 1⟩) ⟨.mark .rightParen, ")", 1⟩ [.literal (.bool true)]

def recursiveClosure : Closure := ⟨recursiveFunction, 0, false⟩

/-- The machine when the function is declared. -/
def recursiveMachine : Machine :=
  Run.left (Evaluation.program 8 [.function recursiveFunction]
    ((start 0).prepared recursiveText
      [.function recursiveFunction, .expression firstCall]).machine)

/-- The machine when the body of the function is executed for the first time. -/
def activationMachine : Machine := Run.left (opened recursiveClosure [.bool true] recursiveMachine)

theorem visited_recursiveCall :
    (start 0).Visited 8 recursiveText (.evaluate 4 1 recursiveCall) activationMachine := by
  have haccepted : (start 0).accepted? recursiveText =
      some ([.function recursiveFunction] ++ [.expression firstCall]) := by cbv
  have hdeclared : Evaluation.program 8 [.function recursiveFunction]
      ((start 0).prepared recursiveText
        [.function recursiveFunction, .expression firstCall]).machine = .ok () recursiveMachine := by
    cbv
  have hcallee : Evaluation.evaluate 6 0 (.var ⟨2, .ofName "f" 1⟩) recursiveMachine =
      .ok (.function 1 recursiveClosure) recursiveMachine := by cbv
  have hopened : opened recursiveClosure [.bool true] recursiveMachine =
      .ok 1 activationMachine := by cbv
  have hopens : Opens (.function 1 recursiveClosure) [.bool true] recursiveMachine 1
      ([] ++ [recursiveIf]) activationMachine := .function hopened
  have hbody : Spawns (.evaluate 7 0 firstCall) recursiveMachine
      (.execute 6 1 recursiveIf) activationMachine := .body hcallee rfl rfl hopens rfl
  have hcondition : Evaluation.evaluate 5 1 (.var ⟨0, .ofName "a" 1⟩) activationMachine =
      .ok (.bool true) activationMachine := by cbv
  exact ⟨[.function recursiveFunction], .expression firstCall, [], recursiveMachine, haccepted,
    hdeclared, .step .expression (.step hbody (.step (.yes hcondition rfl) (.step .expression .self)))⟩

theorem calls_recursive : Calls 3 1 (.var ⟨1, .ofName "f" 1⟩) [.literal (.bool false)]
    activationMachine (.function 1 recursiveClosure) [.bool false] activationMachine := by
  have hcallee : Evaluation.evaluate 3 1 (.var ⟨1, .ofName "f" 1⟩) activationMachine =
      .ok (.function 1 recursiveClosure) activationMachine := by cbv
  exact .intro hcallee rfl

/-- Nothing on the machine captures the scope of the first activation. -/
theorem not_captured_activation : ¬ activationMachine.Captured 1 := by
  have hcells : activationMachine.scopes.cells =
      #[⟨[("clock", .host 0 ⟨"clock", 0, .clock⟩), ("f", .function 1 recursiveClosure)], none⟩,
        ⟨[("a", .bool true)], some 0⟩] := by cbv
  have hinstances : activationMachine.instances = #[] := by cbv
  rintro (⟨j, name, v, hv, hc⟩ | ⟨id, name, v, hv, -⟩)
  · obtain ⟨cell, hcell, hname⟩ := Option.bind_eq_some_iff.1 hv
    obtain ⟨before, after, hnames, -⟩ := List.lookup_eq_some_iff.1 hname
    have hmem : cell ∈ activationMachine.scopes.cells := Array.mem_of_getElem? hcell
    have hpair : (name, v) ∈ cell.names := hnames ▸ List.mem_append_right _ List.mem_cons_self
    rw [hcells] at hmem
    simp only [List.mem_toArray, List.mem_cons, List.not_mem_nil, or_false] at hmem
    rcases hmem with rfl | rfl
    · simp only [List.mem_cons, Prod.mk.injEq, List.not_mem_nil, or_false] at hpair
      rcases hpair with ⟨-, rfl⟩ | ⟨-, rfl⟩
      · exact Machine.not_captures_of_plain rfl 1 hc
      · exact absurd (hc.eq_global rfl) (by decide)
    · simp only [List.mem_cons, Prod.mk.injEq, List.not_mem_nil, or_false] at hpair
      obtain ⟨-, rfl⟩ := hpair
      exact Machine.not_captures_of_plain rfl 1 hc
  · simp [Machine.field?, hinstances] at hv

/-- The second activation leaves the parameter of the first one as it is. -/
theorem call_frame_recursive :
    (Run.left (Evaluation.evaluate 4 1 recursiveCall activationMachine)).scopes.cells[1]? =
      activationMachine.scopes.cells[1]? := by
  have h := (call_frame (.start 0) visited_recursiveCall calls_recursive).2.2 1
  refine h (by cbv) (by decide) not_captured_activation ?_
  rintro v hv
  simp only [List.mem_cons, List.not_mem_nil, or_false] at hv
  rcases hv with rfl | rfl
  · exact fun hc => absurd (hc.eq_global rfl) (by decide)
  · exact Machine.not_captures_of_plain rfl 1

end Lox.Session
