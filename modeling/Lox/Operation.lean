import Lox.Value

/-!
# Operators on values
-/

set_option autoImplicit false

namespace Lox.Operation

def unary (operator : Kind) (v : Value) : Except RuntimeCause Value :=
  match operator, v with
  | .mark .minus, .number x => .ok (.number (-x))
  | .mark .minus, _ => .error .operandNotNumber
  | .mark .bang, v => .ok (.bool (!v.truthy))
  | _, _ => .error .invalidUnary

def add : Value → Value → Except RuntimeCause Value
  | .number x, .number y => .ok (.number (x + y))
  | .string s, .string t => .ok (.string (s ++ t))
  | _, _ => .error .operandsNotAddable

/-- An operation on two numbers and on nothing else. -/
def numeric (f : Float → Float → Except RuntimeCause Value) : Value → Value → Except RuntimeCause Value
  | .number x, .number y => f x y
  | _, _ => .error .operandsNotNumbers

def divide (x y : Float) : Except RuntimeCause Value :=
  if y == 0 then .error .divisionByZero else .ok (.number (x / y))

def binary (operator : Kind) (a b : Value) : Except RuntimeCause Value :=
  match operator with
  | .mark .plus => add a b
  | .mark .minus => numeric (fun x y => .ok (.number (x - y))) a b
  | .mark .star => numeric (fun x y => .ok (.number (x * y))) a b
  | .mark .slash => numeric divide a b
  | .mark .greater => numeric (fun x y => .ok (.bool (y < x))) a b
  | .mark .greaterEqual => numeric (fun x y => .ok (.bool (y ≤ x))) a b
  | .mark .less => numeric (fun x y => .ok (.bool (x < y))) a b
  | .mark .lessEqual => numeric (fun x y => .ok (.bool (x ≤ y))) a b
  | .mark .equalEqual => .ok (.bool (a.equals b))
  | .mark .bangEqual => .ok (.bool (!a.equals b))
  | _ => .error .invalidBinary

/-- Whether the left operand decides: a true one for `or`, a false one otherwise. -/
def decides (operator : Kind) (left : Value) : Bool := left.truthy == (operator == .word .or)

end Lox.Operation
