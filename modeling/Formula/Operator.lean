/-!
# Operators

The operators of the language: how they are spelled, how tightly they bind, and
the names of the instructions that apply them.
-/

namespace Formula

/-- The binary operators. -/
inductive BinaryOp
  | mul | div
  | add | sub
  | less | greater | lessEqual | greaterEqual
  | equal | notEqual
  | and
  | or
  deriving DecidableEq

/-- The prefix operators. -/
inductive UnaryOp
  | not
  | negate
  deriving DecidableEq

namespace BinaryOp

/-- How an operator is written. -/
def symbol : BinaryOp → String
  | mul => "*"
  | div => "/"
  | add => "+"
  | sub => "-"
  | less => "<"
  | greater => ">"
  | lessEqual => "<="
  | greaterEqual => ">="
  | equal => "=="
  | notEqual => "!="
  | and => "&&"
  | or => "||"

/-- The level of an operator. An operator of a smaller level binds more tightly;
    those of one level associate to the left. -/
def level : BinaryOp → Nat
  | mul | div => 0
  | add | sub => 1
  | less | greater | lessEqual | greaterEqual => 2
  | equal | notEqual => 3
  | and => 4
  | or => 5

/-- The number of levels. -/
def levels : Nat := 6

theorem level_lt_levels (op : BinaryOp) : op.level < levels := by
  cases op <;> decide

end BinaryOp

namespace UnaryOp

/-- How an operator is written. -/
def symbol : UnaryOp → String
  | not => "!"
  | negate => "-"

end UnaryOp

/-- What an instruction applies to the values it takes from the stack. -/
inductive Opcode
  | binary (op : BinaryOp)
  | unary (op : UnaryOp)
  deriving DecidableEq

namespace Opcode

/-- How the operator is written in a formula. -/
def symbol : Opcode → String
  | binary op => op.symbol
  | unary op => op.symbol

/-- The name of the instruction. -/
def mnemonic : Opcode → String
  | binary .add => "ADD"
  | binary .sub => "SUB"
  | binary .mul => "MUL"
  | binary .div => "DIV"
  | binary .equal => "EQ"
  | binary .notEqual => "NE"
  | binary .less => "LT"
  | binary .lessEqual => "LE"
  | binary .greater => "GT"
  | binary .greaterEqual => "GE"
  | binary .and => "AND"
  | binary .or => "OR"
  | unary .negate => "NEG"
  | unary .not => "NOT"

end Opcode

end Formula
