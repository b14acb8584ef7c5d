import Formula.Decimal.Shortest

/-!
# Values

What a formula computes with: numbers, texts, and the absence of a value. There
are no truth values; a comparison gives the number one or zero, and any value
can be asked whether it counts as true.
-/

namespace Formula

/-- A value. -/
inductive Value
  /-- No value, for instance of a variable with nothing to report. -/
  | undefined
  /-- A number. -/
  | number (x : Float)
  /-- A text. -/
  | text (s : String)
  deriving Inhabited

/-- The types of values. -/
inductive Kind
  | text
  | number
  | undefined
  deriving DecidableEq

namespace Kind

/-- The name of a type. -/
def name : Kind → String
  | text => "string"
  | number => "numeric"
  | undefined => "undefined"

end Kind

namespace Value

/-- The type of a value. -/
def kind : Value → Kind
  | undefined => .undefined
  | number _ => .number
  | text _ => .text

/-- The number that a condition gives. -/
def ofBool (b : Bool) : Value := number (if b then 1.0 else 0.0)

/-- Whether a value counts as true: a number other than zero, a text other than
    the empty one. The value that is not a number counts as true. -/
def isTrue : Value → Bool
  | undefined => false
  | number x => !(x == 0.0)
  | text s => !s.isEmpty

/-- Whether two values are equal: both numbers and numerically equal, or both the
    same text. No value is undefined in the same way as another. -/
def equal : Value → Value → Bool
  | number x, number y => x == y
  | text s, text t => s == t
  | _, _ => false

/-- A value as text; a text stands for itself. -/
def display : Value → String
  | undefined => "undefined"
  | number x => Decimal.text x
  | text s => s

end Value

end Formula
