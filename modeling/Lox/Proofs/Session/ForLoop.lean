import Mathlib
import Lox.Proofs.Layout.ForLoop
import Lox.Proofs.Layout.Session

/-!
# `for` loops

The parser makes blocks and `while` of a `for` loop, with a scope more or less for each clause
that is there. Main statement: nobody can tell that from a loop with a single scope, in which the
initializer is run once and all rounds take place.
-/

set_option autoImplicit false

namespace Lox.Session

open Layout

/-- Take a `for` loop with any of its clauses missing and a body that declares nothing, as the
grammar has it. Some layout has one scope for the loop. In each that does, what the parser makes
of the loop is one scope in which the initializer is executed once, and then as long as the
condition is true the body, followed by the increment if it ends normally; a name that the
initializer declares is found in that scope alone, by the condition, the body and the increment
alike. And whatever was run before, in whichever contexts the loop stands there, each text gives
the same report and prints the same as in the layout of the parser. -/
theorem for_in_one_scope (initializer : Option Stmt) (condition increment : Option Expr)
    (body : Stmt) (hp : body.plain = true) :
    (∃ l : Layout, l.Lays initializer condition increment body) ∧
    ∀ l : Layout, l.Lays initializer condition increment body →
      (∀ n scope, l.execute (n + 1) scope (Grammar.forLoop initializer condition increment body) =
        l.forLoop initializer condition increment body n scope) ∧
      (∀ ctx fs, l.stmt ctx fs (Grammar.forLoop initializer condition increment body) =
        l.forFindings initializer condition increment body ctx fs) ∧
      ∀ s t, l.Beside s t → ∀ bound source,
        (l.run bound t source).map observed = (s.run bound source).map observed :=
  ⟨⟨_, lays_shaped initializer condition increment body hp⟩, fun _ h =>
    ⟨execute_forLoop h, stmt_forLoop h hp, fun _ _ hs => hs.observed⟩⟩

/-- Each round makes a function that returns the variable of the loop; the last one is called
behind the loop. -/
def sharedText : String :=
  "var f; for (var i = \"a\"; i != \"aaa\"; i = i + \"a\") \x7b fun g() \x7b return i; \x7d f = g; \x7d print f();"

def sharedInitializer : Stmt := .var (.ofName "i" 1) (some (.literal (.string "a")))

def sharedCondition : Expr :=
  .binary (.var ⟨0, .ofName "i" 1⟩) ⟨.mark .bangEqual, "!=", 1⟩ (.literal (.string "aaa"))

def sharedIncrement : Expr :=
  .assign ⟨3, .ofName "i" 1⟩
    (.binary (.var ⟨2, .ofName "i" 1⟩) ⟨.mark .plus, "+", 1⟩ (.literal (.string "a")))

def sharedBody : Stmt :=
  .block [.function (.mk (.ofName "g" 1) []
      [.return ⟨.word .return, "return", 1⟩ (some (.var ⟨4, .ofName "i" 1⟩))]),
    .expression (.assign ⟨7, .ofName "f" 1⟩ (.var ⟨6, .ofName "g" 1⟩))]

def sharedLoop : Stmt :=
  Grammar.forLoop (some sharedInitializer) (some sharedCondition) (some sharedIncrement) sharedBody

def sharedProgram : List Stmt :=
  [.var (.ofName "f" 1) none, sharedLoop,
    .print (.call (.var ⟨8, .ofName "f" 1⟩) ⟨.mark .rightParen, ")", 1⟩ [])]

/-- The function sees the value that ended the loop, for there is one variable for all rounds. -/
theorem for_in_one_scope_shared : (start 0).accepted? sharedText = some sharedProgram ∧
    sharedBody.plain = true ∧
    (shaped true true).Lays (some sharedInitializer) (some sharedCondition) (some sharedIncrement)
      sharedBody ∧
    (shaped true true).Beside (start 0) (start 0) ∧
    ((shaped true true).run 20 (start 0) sharedText).map observed =
      some (⟨.ok, []⟩, { lines := #["aaa"] }) := by
  have haccepted : (start 0).accepted? sharedText = some sharedProgram := by cbv
  have hlays := lays_shaped (some sharedInitializer) (some sharedCondition) (some sharedIncrement)
    sharedBody rfl
  have hloop := (for_in_one_scope (some sharedInitializer) (some sharedCondition)
    (some sharedIncrement) sharedBody rfl).2 _ hlays
  have hsame := hloop.2.2 _ _ (.start 0) 20 sharedText
  have hrun : ((start 0).run 20 sharedText).map observed =
      some (⟨.ok, []⟩, { lines := #["aaa"] }) := by
    cbv
  exact ⟨haccepted, rfl, hlays, .start 0, hsame.trans hrun⟩

end Lox.Session
