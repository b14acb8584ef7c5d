import Formula.Syntax

/-!
# Printing formulas

A formula is printed as tokens with a space between any two of them, and with the
parentheses that it cannot do without: around an operand whose operator binds less
tightly than its place asks for. The left operand of an operator may have one of
the same level, the right operand may not, as operators associate to the left.
-/

namespace Formula

/-- Characters of a text as they stand between quotes. -/
def Token.quote (s : String) : List Char :=
  '\'' :: s.toList.flatMap (fun c => if c = '\'' ∨ c = '\\' then ['\\', c] else [c]) ++ ['\'']

/-- How a token is written. -/
def Token.written : Token → List Char
  | .number n => n.text.toList ++ n.unit.elim [] fun u => ' ' :: u.name.toList
  | .name n => n.toList
  | .field o f => o.toList ++ '.' :: f.toList
  | .text s => quote s
  | .operator op => op.symbol.toList
  | .not => ['!']
  | .assign => ['=']
  | .opening => ['(']
  | .closing => [')']
  | .comma => [',']
  | .dot => ['.']

/-- The token of a reference. -/
def Reference.token : Reference → Token
  | name n => .name n
  | field o f => .field o f

/-- The token of a prefix operator. -/
def UnaryOp.token : UnaryOp → Token
  | not => .not
  | negate => .operator .sub

namespace Syntax

/-- How tightly a place holds what stands in it. -/
inductive Place
  /-- Operators of the levels below a bound may stand here. -/
  | below (level : Nat)
  /-- A prefix operator may stand here, but no binary one. -/
  | operand
  /-- No operator may stand here. -/
  | receiver
  deriving DecidableEq

/-- Whether an expression needs parentheses in a place. -/
def needsParentheses : Place → Expr → Bool
  | .below level, .binary _ op _ _ => level ≤ op.level
  | .operand, .binary .. => true
  | .receiver, .binary .. | .receiver, .unary .. => true
  | _, _ => false

/-- Tokens with parentheses around them, if they need some. -/
def parenthesized (needed : Bool) (ts : List Token) : List Token :=
  if needed then .opening :: ts ++ [.closing] else ts

end Syntax

namespace Expr

open Syntax

mutual

/-- The tokens of an expression in a place. -/
def tokens (p : Place) (e : Expr) : List Token :=
  match e with
  | .number _ n => [.number n]
  | .text _ s => [.text s]
  | .reference _ r => [r.token]
  | .unary o op x =>
    parenthesized (needsParentheses p (.unary o op x)) (op.token :: tokens .operand x)
  | .binary o op l r =>
    parenthesized (needsParentheses p (.binary o op l r))
      (tokens (.below (op.level + 1)) l ++ .operator op :: tokens (.below op.level) r)
  | .call _ name args => .name name :: .opening :: argumentTokens args ++ [.closing]
  | .method _ e name args =>
    tokens .receiver e ++ .dot :: .name name :: .opening :: argumentTokens args ++ [.closing]

/-- The tokens of arguments, with commas between them. -/
def argumentTokens : List Expr → List Token
  | [] => []
  | [e] => tokens (.below BinaryOp.levels) e
  | e :: es => tokens (.below BinaryOp.levels) e ++ .comma :: argumentTokens es

end

mutual

/-- How deeply operands lie within each other when an expression is printed in a
    place. -/
def nesting (p : Place) (e : Expr) : Nat :=
  match e with
  | .number _ _ | .text _ _ | .reference _ _ => 1
  | .unary o op x =>
    (if needsParentheses p (.unary o op x) then 1 else 0) + nesting .operand x + 1
  | .binary o op l r =>
    (if needsParentheses p (.binary o op l r) then 1 else 0) +
      max (nesting (.below (op.level + 1)) l) (nesting (.below op.level) r)
  | .call _ _ args => argumentNesting args + 1
  | .method _ e _ args => max (nesting .receiver e) (argumentNesting args + 1)

/-- How deeply operands lie within each other in arguments. -/
def argumentNesting : List Expr → Nat
  | [] => 0
  | e :: es => max (nesting (.below BinaryOp.levels) e) (argumentNesting es)

end

end Expr

namespace Statement

open Syntax

/-- The tokens of a formula. -/
def tokens : Statement → List Token
  | .expression e => e.tokens (.below BinaryOp.levels)
  | .assignment _ _ r e => r.token :: .assign :: e.tokens (.below BinaryOp.levels)

/-- How deeply operands lie within each other when a formula is printed. -/
def nesting : Statement → Nat
  | .expression e => e.nesting (.below BinaryOp.levels)
  | .assignment _ _ _ e => e.nesting (.below BinaryOp.levels)

/-- A formula as text. -/
def print (s : Statement) : String :=
  String.ofList ((s.tokens.map Token.written).intersperse [' ']).flatten

end Statement

end Formula
