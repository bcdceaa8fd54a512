import Lox.Proofs.Frame.Apart
import Lox.Proofs.Frame.Computation

/-!
# What a computation leaves alone

In a scope outside of a set that is apart, whatever is evaluated or executed leaves everything in
the set as it is, however it ends, and comes to what does not refer into it: it has nothing in the
set at hand, for scopes made on the way are outside, as their links and what they bind are.
-/

set_option autoImplicit false

namespace Lox

variable {D : Thing → Prop}

/-- What leaves a statement does not refer into the set. -/
def Flow.Apart (D : Thing → Prop) : Flow → Prop
  | .normal => True
  | .returned v => v.Apart D

theorem Flow.AtHand.apart {m : Machine} {flow : Flow} (h : flow.AtHand (fun _ x => ¬ D x) m) :
    flow.Apart D := by
  cases flow <;> exact h

namespace Evaluation

open Run

/-- Evaluation to depth `n`, in a scope outside of the set, leaves the set as it is. -/
structure Avoiding (D : Thing → Prop) (n : Nat) : Prop where
  evaluate {i : Nat} (hi : ¬ D (.scope i)) (e : Expr) : Avoids D (Value.Apart D) (evaluate n i e)
  execute {i : Nat} (hi : ¬ D (.scope i)) (s : Stmt) : Avoids D (Flow.Apart D) (execute n i s)
  loop {i : Nat} (hi : ¬ D (.scope i)) (e : Expr) (s : Stmt) : Avoids D (Flow.Apart D) (loop n i e s)

theorem avoiding (D : Thing → Prop) (n : Nat) : Avoiding D n := by
  have hn := (Machine.Apart.holding D).bounded n
  constructor
  · exact fun hi e m hm => .of_ends (hn.evaluate hm hi e) fun _ _ => id
  · exact fun hi s m hm => .of_ends (hn.execute hm hi s) fun _ _ => Flow.AtHand.apart
  · exact fun hi e s m hm => .of_ends (hn.loop hm hi e s) fun _ _ => Flow.AtHand.apart

/-- A call of a value that does not refer into the set. -/
theorem avoids_called {vs : List Value} (hvs : ∀ v ∈ vs, v.Apart D) {f : Value} (hf : f.Apart D)
    (n : Nat) (paren : Token) : Avoids D (Value.Apart D) (do
      checkArity f vs paren
      invoke (execute n) f vs paren) :=
  fun _ hm => .of_ends
    ((Machine.Apart.holding D).called ((Machine.Apart.holding D).bounded n) hm hvs hf paren)
    fun _ _ => id

end Evaluation

end Lox
