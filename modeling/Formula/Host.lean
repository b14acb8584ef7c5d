import Formula.Machine.Context

/-!
# Hosts

A formula never sees the objects of the application that evaluates it. Its names
are looked up in a *host* when it is compiled, and what the host gives back,
variables and functions, is what the program later works with.

The state of the application is a value of a type `σ` that the application
chooses. Reading a variable and calling a function may change it; so every order
in which a program does these things shows in the state it leaves.
-/

namespace Formula

/-- Why a variable that only the application changes cannot be assigned to. -/
def readOnlyReason : String := "variable is read-only"

/-- A variable of the host. -/
structure Variable (σ : Type) where
  /-- The type of the value it holds. -/
  kind : σ → Kind
  /-- Reads it. -/
  read : View → StateM σ Value
  /-- Assigns to it, or gives the reason why that cannot be. -/
  write : View → Value → EStateM String σ Unit := fun _ _ => throw readOnlyReason

/-- A function of the host. It is given the arguments in the order of the formula
    and, when called as a method, the variable it is called on; it may fail with a
    message. -/
abbrev Function (σ : Type) : Type :=
  View → List Value → Option (Variable σ) → EStateM String σ Value

/-- The units of the host. -/
structure Units where
  /-- The names that may follow a number. -/
  names : List String := []
  /-- The number that a numeral means in the unit at a place of `names`. -/
  convert : String → Nat → Option Float := fun _ _ => none

/-- What the names of a formula stand for. -/
structure Host (σ : Type) where
  /-- The variable that a reference stands for. -/
  reference? : Reference → Option (Variable σ)
  /-- The function of a name. -/
  function? : String → Option (Function σ)
  /-- The units. -/
  units : Units := {}

/-- A variable with one value, which cannot be assigned to. -/
def Variable.fixed {σ : Type} (v : Value) : Variable σ where
  kind _ := v.kind
  read _ := pure v

end Formula
