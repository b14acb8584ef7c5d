import Formula.Error

/-!
# Operations on values

What the operators compute. Arithmetic and order need two numbers; equality
takes any two values, and the logical operators ask whether their operands count
as true. A condition gives the number one or zero.

An instruction may hold an operator of the wrong arity. In the place of a binary
operator a prefix operator applies to the right operand alone; in the place of a
prefix operator a binary one rejects every operand.
-/

namespace Formula

/-- The result of a prefix operator. -/
def UnaryOp.apply : UnaryOp → Value → Except OperationError Value
  | .not, x => .ok (.ofBool !x.isTrue)
  | .negate, .number x => .ok (.number (-x))
  | .negate, x => .error (.unaryTypeMismatch (.unary .negate) x.kind)

namespace BinaryOp

/-- The error for two operands that are not both numbers. -/
def mismatch (op : BinaryOp) (x y : Value) : OperationError :=
  .typeMismatch (.binary op) x.kind y.kind

/-- The result of an operator that needs two numbers. -/
def arithmetic (op : BinaryOp) (f : Float → Float → Float) (x y : Value) :
    Except OperationError Value :=
  match x, y with
  | .number x, .number y => .ok (.number (f x y))
  | x, y => .error (op.mismatch x y)

/-- The quotient of two numbers, the second not zero. -/
def quotient (x y : Value) : Except OperationError Value :=
  match x, y with
  | .number x, .number y => if y == 0.0 then .error .divisionByZero else .ok (.number (x / y))
  | x, y => .error (mismatch .div x y)

/-- The result of comparing two numbers. -/
def comparison (op : BinaryOp) (f : Float → Float → Bool) (x y : Value) :
    Except OperationError Value :=
  match x, y with
  | .number x, .number y => .ok (.ofBool (f x y))
  | .text _, .text _ => .error (.textOrdering (.binary op))
  | x, y => .error (op.mismatch x y)

/-- The result of a binary operator. -/
def apply : BinaryOp → Value → Value → Except OperationError Value
  | add, x, y => arithmetic add (· + ·) x y
  | sub, x, y => arithmetic sub (· - ·) x y
  | mul, x, y => arithmetic mul (· * ·) x y
  | div, x, y => quotient x y
  | less, x, y => comparison less (fun x y => decide (x < y)) x y
  | lessEqual, x, y => comparison lessEqual (fun x y => decide (x ≤ y)) x y
  | greater, x, y => comparison greater (fun x y => decide (y < x)) x y
  | greaterEqual, x, y => comparison greaterEqual (fun x y => decide (y ≤ x)) x y
  | equal, x, y => .ok (.ofBool (x.equal y))
  | notEqual, x, y => .ok (.ofBool !x.equal y)
  | and, x, y => .ok (.ofBool (x.isTrue && y.isTrue))
  | or, x, y => .ok (.ofBool (x.isTrue || y.isTrue))

end BinaryOp

namespace Opcode

/-- The result of an instruction that takes two values. -/
def applyBinary : Opcode → Value → Value → Except OperationError Value
  | binary op, x, y => op.apply x y
  | unary op, _, y => op.apply y

/-- The result of an instruction that takes one value. -/
def applyUnary : Opcode → Value → Except OperationError Value
  | unary op, x => op.apply x
  | binary op, x => .error (.unaryTypeMismatch (binary op) x.kind)

end Opcode

end Formula
