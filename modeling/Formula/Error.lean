import Formula.Token
import Formula.Value

/-!
# Errors

Everything that can go wrong, told apart by its cause. An error belongs to a
place in the formula (`Located`), and its cause to one of three stages: reading
the formula, linking its names to the host, and running the program. A fault is
not the formula's doing: the program needs more room than the machine has, or is
no program that a formula compiles to.
-/

namespace Formula

/-- A cause and the place it belongs to, in bytes from the start of the formula. -/
structure Located (ε : Type) where
  offset : Nat
  cause : ε
  deriving DecidableEq

/-- The same place with a cause of another type. -/
def Located.map {ε ε' : Type} (f : ε → ε') (e : Located ε) : Located ε' :=
  ⟨e.offset, f e.cause⟩

/-- What could have stood where an unexpected token stands. -/
inductive Expectation
  | methodName
  | opening
  | closing
  | commaOrClosing
  deriving DecidableEq

/-- Why a text is no formula. -/
inductive SyntaxError
  /-- A token that cannot stand here; what could have stood here, where there are
      few choices. -/
  | unexpectedToken (expected : Option Expectation) (found : Token)
  /-- A character that no token starts with. -/
  | unexpectedCharacter (found : Char)
  /-- The formula ends too early. -/
  | unexpectedEnd
  /-- A text without its closing quote. -/
  | unterminatedText
  /-- The formula ends within parentheses. -/
  | unclosedParenthesis
  /-- More parentheses and prefix operators within each other than allowed. -/
  | nestedTooDeeply
  /-- A complete formula is followed by another token. -/
  | trailingTokens (first : Token)

/-- Why the names of a formula cannot be linked to the host. -/
inductive LinkError
  | unknownVariable (name : String)
  | unknownField (object field : String)
  | unknownFunction (name : String)
  /-- The host cannot convert this literal from its unit. -/
  | unknownUnit (literal unit : String)
  /-- A method is called on something that is not a reference. -/
  | invalidReceiver (method : String)
  /-- Something that is not a reference is assigned to. -/
  | invalidTarget
  deriving DecidableEq

/-- Why an operation rejects its operands, or the host refuses. -/
inductive OperationError
  | typeMismatch (op : Opcode) (left right : Kind)
  | unaryTypeMismatch (op : Opcode) (operand : Kind)
  | divisionByZero
  /-- Texts are compared for more than equality. -/
  | textOrdering (op : Opcode)
  /-- The host refuses an assignment. -/
  | readOnly (name reason : String)
  /-- A function of the host fails. -/
  | functionFailed (name reason : String)
  deriving DecidableEq

/-- Why the machine stops a program. -/
inductive Fault
  | stackOverflow (capacity : Nat)
  | stackUnderflow
  | heapExhausted (capacity : Nat)
  /-- A stack entry refers to neither a constant nor a heap cell. -/
  | danglingSlot
  /-- The program ends with other than one value on the stack. -/
  | unbalancedStack (depth : Nat)
  deriving DecidableEq

/-- The causes of all stages. -/
inductive Cause
  | reading (e : SyntaxError)
  | linking (e : LinkError)
  | operation (e : OperationError)
  | fault (f : Fault)

/-- An error, of whatever stage. -/
abbrev Error := Located Cause

/-- The stages of evaluation. -/
inductive Stage
  | reading
  | linking
  | running
  deriving DecidableEq

/-! ## Messages -/

/-- The name of a stage. -/
def Stage.name : Stage → String
  | reading => "parse"
  | linking => "codegen"
  | running => "runtime"

/-- What could have stood here, in words. -/
def Expectation.describe : Expectation → String
  | methodName => "method name"
  | opening => "'('"
  | closing => "')'"
  | commaOrClosing => "',' or ')'"

/-- A reading error in words. -/
def SyntaxError.message : SyntaxError → String
  | unexpectedToken none found => "Unexpected token: " ++ found.describe ++ "."
  | unexpectedToken (some expected) found =>
    "Unexpected token: expected " ++ expected.describe ++ ", found " ++ found.describe ++ "."
  | unexpectedCharacter c => "Unexpected character '" ++ c.toString ++ "'."
  | unexpectedEnd => "Unexpected end of input."
  | unterminatedText => "Unterminated string literal."
  | unclosedParenthesis => "Expected closing parenthesis ')' but none found."
  | nestedTooDeeply => "Expression is nested too deeply."
  | trailingTokens first => "Extra tokens after expression: " ++ first.describe ++ "."

/-- A linking error in words. -/
def LinkError.message : LinkError → String
  | unknownVariable name => "Unknown variable '" ++ name ++ "'."
  | unknownField object field => "Unknown field '" ++ field ++ "' on '" ++ object ++ "'."
  | unknownFunction name => "Unknown function '" ++ name ++ "'."
  | unknownUnit literal unit => "Cannot convert '" ++ literal ++ "' from unit '" ++ unit ++ "'."
  | invalidReceiver method =>
    "Method '" ++ method ++ "' needs a variable or field as its receiver."
  | invalidTarget => "Only variables and fields can be assigned to."

/-- An operation error in words. -/
def OperationError.message : OperationError → String
  | typeMismatch op left right =>
    "Type error: cannot apply '" ++ op.symbol ++ "' to " ++ left.name ++ " and " ++
      right.name ++ "."
  | unaryTypeMismatch op operand =>
    "Type error: cannot apply '" ++ op.symbol ++ "' to " ++ operand.name ++ "."
  | divisionByZero => "Division by zero."
  | textOrdering op => "Strings cannot be ordered with '" ++ op.symbol ++ "'."
  | readOnly name reason => "Cannot assign to '" ++ name ++ "': " ++ reason ++ "."
  | functionFailed name reason => "Function '" ++ name ++ "' failed: " ++ reason ++ "."

/-- A fault in words. -/
def Fault.message : Fault → String
  | stackOverflow capacity => "stack overflow (capacity " ++ toString capacity ++ ")"
  | stackUnderflow => "stack underflow"
  | heapExhausted capacity => "scratch heap exhausted (capacity " ++ toString capacity ++ ")"
  | danglingSlot => "stack slot refers to nothing"
  | unbalancedStack depth =>
    "program left " ++ toString depth ++ " values on the stack, expected 1"

namespace Cause

/-- The stage in which a cause arises. -/
def stage : Cause → Stage
  | reading _ => .reading
  | linking _ => .linking
  | operation _ | fault _ => .running

/-- Whether the machine, and not the formula, gave up. -/
def isFault : Cause → Bool
  | fault _ => true
  | _ => false

/-- A cause in words. -/
def message : Cause → String
  | reading e => e.message
  | linking e => e.message
  | operation e => e.message
  | fault f => f.message

end Cause

/-- An error in words, with its place. -/
def Located.message (e : Error) : String :=
  (if e.cause.isFault then "Fatal error at offset " else "Error at offset ") ++
    toString e.offset ++ ": " ++ e.cause.message

end Formula
