import Formula.CommandLine.Options
import Formula.Host.Alike
import Formula.Quantities

/-!
# Definitions of the command line

The options that define variables and units, apart from how they are read. Each is an
equation `NAME=VALUE` (`Equation`, `Definition`), given in one argument of the command
line or in two (`Definition.Given`).

What they define together is said by the last option of a name and by the order in which
the names appear (`Table.Reflects`), not by a table that is changed option by option.
-/

namespace Formula

namespace CommandLine

open Text (trim)

/-- A text `NAME=VALUE`, of which the name ends at the first equals sign. -/
structure Equation where
  name : String
  value : String
  noEquals : '=' ∉ name.toList

namespace Equation

/-- The equation as it is written. -/
def text (e : Equation) : String := e.name ++ "=" ++ e.value

/-- What is defined: the name without the blanks around it. -/
def key (e : Equation) : String := String.ofList (trim e.name.toList)

end Equation

/-- What a text without blanks around it means as the value of a variable. -/
inductive Means : List Char → Value → Prop
  | number {cs : List Char} {x : Float} : Decimal.read? cs = some x → Means cs (.number x)
  | quoted (s : List Char) : Means (['\''] ++ s ++ ['\'']) (.text (String.ofList s))
  | bare {cs : List Char} : Decimal.read? cs = none → (∀ s, cs ≠ ['\''] ++ s ++ ['\'']) →
      Means cs (.text (String.ofList cs))

/-- An option that defines something. -/
inductive Definition
  | var (e : Equation)
  /-- The factor of a unit is a number. -/
  | unit (e : Equation) (factor : Float)
      (reads : Decimal.read? (trim e.value.toList) = some factor)

namespace Definition

/-- The name of the option. -/
def option : Definition → String
  | .var _ => "--var"
  | .unit .. => "--unit"

/-- The value of the option. -/
def equation : Definition → Equation
  | .var e | .unit e .. => e

/-- The name of a unit, and its factor. -/
def factor? : Definition → Option (String × Float)
  | .var _ => none
  | .unit e factor _ => some (e.key, factor)

/-- The units among the definitions, with their factors. -/
def factors (ds : List Definition) : List (String × Float) := ds.filterMap factor?

/-- The arguments that give the definitions. The value of an option is set off from it by an
    equals sign, or is an argument of its own, which must not look like an option then. -/
inductive Given : List Definition → List String → Prop
  | nil : Given [] []
  | joined (d : Definition) {ds : List Definition} {args : List String} : Given ds args →
      Given (d :: ds) ((d.option ++ "=" ++ d.equation.text) :: args)
  | apart (d : Definition) {ds : List Definition} {args : List String} :
      d.equation.text.toList.head? ≠ some '-' → Given ds args →
      Given (d :: ds) (d.option :: d.equation.text :: args)

end Definition

end CommandLine

open CommandLine in
/-- The variables and the units of a table are those of the definitions. -/
structure Table.Reflects (t : Table Unit) (ds : List Definition) : Prop where
  /-- The names are those of the variables, each once, -/
  nodup_names : (t.names.map Prod.fst).Nodup
  mem_names (name : String) :
    name ∈ t.names.map Prod.fst ↔ ∃ e, .var e ∈ ds ∧ e.key = name
  /-- and each has a cell of its own. -/
  place_inj {m n : String} {place : Nat} :
    t.place? m = some place → t.place? n = some place → m = n
  /-- The cell can be assigned to, and has the value of the last option of the name: a text in
      quotes is what stands between them. It is what the name stands for in a formula, be it
      the one of a field or of a variable. -/
  cell {before behind : List Definition} {e : Equation} :
    ds = before ++ .var e :: behind → (∀ e', .var e' ∈ behind → e'.key ≠ e.key) →
      ∃ place v, t.place? e.key = some place ∧ t.store.cells[place]? = some ⟨v, true⟩ ∧
        Means (Text.trim e.value.toList) v ∧ (∀ s, e.value = "'" ++ s ++ "'" → v = .text s) ∧
        (∀ object field, e.key = object ++ "." ++ field →
          t.host.reference? (.field object field) = some (.cell place)) ∧
        ('.' ∉ e.key.toList → t.host.reference? (.name e.key) = some (.cell place))
  /-- Behind the units of length there are the new ones in the order in which they appear, -/
  unit_names :
    t.host.units.names = ["mm", "mil", "in"] ++
      (((Definition.factors ds).map Prod.fst).filter (· ∉ ["mm", "mil", "in"])).eraseDups
  /-- and each unit has the factor that was given last. -/
  factor {i : Nat} {name : String} : t.host.units.names[i]? = some name →
    ∃ factor, UnitTable.lastFactor
        ([("mm", 1.0), ("mil", 0.0254), ("in", 25.4)] ++ Definition.factors ds) name = some factor ∧
      t.units.entries[i]? = some (name, factor)

end Formula
