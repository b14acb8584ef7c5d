import Formula.Host

/-!
# Programs

A program is a row of instructions for a stack machine, without jumps. Each knows
the place in the formula that it comes from. The names of the formula are
resolved: instructions hold the variables and functions themselves.
-/

namespace Formula

variable {σ : Type}

/-- A variable and the reference that it was found by. -/
structure Binding (σ : Type) where
  name : String
  target : Variable σ

/-- What an instruction does. -/
inductive Op (σ : Type)
  /-- Pushes a constant. -/
  | const (v : Value)
  /-- Reads a variable and pushes its value. -/
  | load (b : Binding σ)
  /-- Assigns the top value to a variable and leaves it there. -/
  | store (b : Binding σ)
  /-- Replaces two values by a result. -/
  | binary (op : Opcode)
  /-- Replaces a value by a result. -/
  | unary (op : Opcode)
  /-- Replaces arguments by the result of a function. -/
  | call (name : String) (function : Function σ) (argc : Nat) (receiver : Option (Binding σ))

/-- An operation and the place in the formula that it is reported at. -/
structure Instruction (σ : Type) where
  offset : Nat
  op : Op σ

/-- Instructions in the order in which they are executed. -/
structure Program (σ : Type) where
  code : Array (Instruction σ) := #[]

namespace Program

/-- The number of instructions. -/
def size (p : Program σ) : Nat := p.code.size

/-- Whether there is no instruction. -/
def isEmpty (p : Program σ) : Bool := p.code.isEmpty

/-- The program without its instructions. -/
def clear (p : Program σ) : Program σ := { p with code := #[] }

/-- The program with another instruction at its end. -/
def push (p : Program σ) (offset : Nat) (op : Op σ) : Program σ := ⟨p.code.push ⟨offset, op⟩⟩

/-- The constant that the instruction at a place pushes. -/
def const? (p : Program σ) (index : Nat) : Option Value :=
  match p.code[index]? with
  | some ⟨_, .const v⟩ => some v
  | _ => none

/-- The value that a slot refers to. -/
def lookup (p : Program σ) (c : Context) (s : Slot) : Except Fault Value :=
  match s with
  | .const index => (p.const? index).elim (.error .danglingSlot) .ok
  | .scratch index => c.heap[index]?.elim (.error .danglingSlot) .ok

end Program

end Formula
