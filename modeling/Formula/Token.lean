import Formula.Operator

/-!
# Tokens

The words of a formula. A sign that is a binary operator is the token of that
operator; `-` is the token of the subtraction also where it negates.
-/

namespace Formula

/-- A unit written behind a number: its place in the list of known units, and its
    name. -/
structure UnitSuffix where
  index : Nat
  name : String
  deriving DecidableEq

/-- A number as it is written. -/
structure Numeral where
  /-- The number, before any conversion. -/
  value : Float
  /-- The digits, with a point as separator and a small `e` before the exponent. -/
  text : String
  /-- The unit, if one follows. -/
  unit : Option UnitSuffix

/-- What a name or a pair `object.field` refers to. -/
inductive Reference
  /-- The variable of that name. -/
  | name (n : String)
  /-- A field of an object. -/
  | field (object field : String)
  deriving DecidableEq

/-- A reference as it is written; also the key of what it refers to. -/
def Reference.text : Reference → String
  | name n => n
  | field o f => o ++ "." ++ f

/-- A word of a formula. -/
inductive Token
  | number (n : Numeral)
  | name (n : String)
  | field (object field : String)
  | text (s : String)
  | operator (op : BinaryOp)
  | not
  | assign
  | opening
  | closing
  | comma
  | dot

namespace Token

/-- The tokens with a fixed spelling, the longer spellings first. -/
def signs : List (String × Token) :=
  [("<=", operator .lessEqual), (">=", operator .greaterEqual), ("==", operator .equal),
    ("!=", operator .notEqual), ("&&", operator .and), ("||", operator .or),
    ("<", operator .less), (">", operator .greater), ("=", assign), ("+", operator .add),
    ("-", operator .sub), ("*", operator .mul), ("/", operator .div), ("!", not),
    ("(", opening), (")", closing), (",", comma), (".", dot)]

/-- A token as it is named in messages. -/
def describe : Token → String
  | number n => "number '" ++ n.text ++ "'"
  | name n => "identifier '" ++ n ++ "'"
  | field o f => "reference '" ++ o ++ "." ++ f ++ "'"
  | text s => "string '" ++ s ++ "'"
  | operator op => "'" ++ op.symbol ++ "'"
  | not => "'!'"
  | assign => "'='"
  | opening => "'('"
  | closing => "')'"
  | comma => "','"
  | dot => "'.'"

end Token

/-- A token and the number of bytes before it. -/
structure Lexeme where
  token : Token
  offset : Nat

end Formula
