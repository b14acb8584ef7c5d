import Formula.Host.Units
import Formula.Program
import Formula.Syntax.Nodes

/-!
# Quantities

The numbers of a formula in the three forms that they take: words of the formula, nodes of
its tree, and constants of its program. In each form they are listed with their places, in
the order in which they are written.

What a numeral means is said by the name of its unit, while tables convert by the place of
the unit among their names. Units are given their factors one after the other, and the
last one counts (`UnitTable.lastFactor`).
-/

namespace Formula

/-- The number that an instruction pushes as a constant, and its place. -/
def Instruction.number? {σ : Type} (i : Instruction σ) : Option (Nat × Float) :=
  match i.op with
  | .const (.number x) => some (i.offset, x)
  | _ => none

/-- The factor that a unit was given last. -/
def UnitTable.lastFactor (inserts : List (String × Float)) (name : String) : Option Float :=
  inserts.reverse.lookup name

end Formula
