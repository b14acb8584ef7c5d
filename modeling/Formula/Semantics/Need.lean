import Formula.Syntax

/-!
# What a formula needs

How deep the stack becomes and how many heap cells are used when a formula is
evaluated to its end. The operands and arguments to the left of one that is being
evaluated are on the stack; every result that is computed or read takes a cell,
while constants, receivers and assignments take none.
-/

namespace Formula

namespace Expr

mutual

/-- The greatest depth of the stack. -/
def stackNeed : Expr → Nat
  | .number _ _ | .text _ _ | .reference _ _ => 1
  | .unary _ _ x => stackNeed x
  | .binary _ _ l r => max (stackNeed l) (1 + stackNeed r)
  | .call _ _ args | .method _ _ _ args => max 1 (stackNeedAll args)

/-- The greatest depth of the stack while arguments are evaluated. -/
def stackNeedAll : List Expr → Nat
  | [] => 0
  | e :: es => max (stackNeed e) (1 + stackNeedAll es)

end

mutual

/-- The number of heap cells. -/
def heapNeed : Expr → Nat
  | .number _ _ | .text _ _ => 0
  | .reference _ _ => 1
  | .unary _ _ x => heapNeed x + 1
  | .binary _ _ l r => heapNeed l + heapNeed r + 1
  | .call _ _ args | .method _ _ _ args => heapNeedAll args + 1

/-- The number of heap cells of several expressions. -/
def heapNeedAll : List Expr → Nat
  | [] => 0
  | e :: es => heapNeed e + heapNeedAll es

end

end Expr

/-- The greatest depth of the stack. -/
def Statement.stackNeed : Statement → Nat
  | .expression e => e.stackNeed
  | .assignment _ _ _ e => e.stackNeed

/-- The number of heap cells. -/
def Statement.heapNeed : Statement → Nat
  | .expression e => e.heapNeed
  | .assignment _ _ _ e => e.heapNeed

end Formula
