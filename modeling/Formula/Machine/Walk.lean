import Formula.Program

/-!
# Walking through a program

How far a program gets before it leaves the stack or the heap can be told from
its instructions alone: they all take and leave fixed numbers of entries and
cells. A walk keeps the depth of the stack and the number of cells, and ends at
the first instruction that faults.
-/

namespace Formula

variable {σ : Type}

/-- How full a context is. -/
structure Level where
  /-- The depth of the stack. -/
  depth : Nat := 0
  /-- The number of heap cells in use. -/
  cells : Nat := 0
  deriving DecidableEq

namespace Level

/-- The level with another stack entry. -/
def push (c : Capacities) (l : Level) : Except Fault Level :=
  if l.depth < c.stack then .ok { l with depth := l.depth + 1 }
  else .error (.stackOverflow c.stack)

/-- The level without the `n` upper stack entries. -/
def pop (n : Nat) (l : Level) : Except Fault Level :=
  if n ≤ l.depth then .ok { l with depth := l.depth - n } else .error .stackUnderflow

/-- The level with another value in a heap cell. -/
def pushValue (c : Capacities) (l : Level) : Except Fault Level :=
  if l.cells < c.heap then push c { l with cells := l.cells + 1 }
  else .error (.heapExhausted c.heap)

end Level

/-- The level behind an operation. -/
def Op.walk (c : Capacities) (l : Level) : Op σ → Except Fault Level
  | .const _ => l.push c
  | .load _ => l.pushValue c
  | .store _ => do (← l.pop 1).push c
  | .binary _ => do (← l.pop 2).pushValue c
  | .unary _ => do (← l.pop 1).pushValue c
  | .call _ _ argc _ => do (← l.pop argc).pushValue c

namespace Program

/-- How a walk ends: behind all instructions, or at the one at a place. -/
inductive WalkEnd
  | behind (l : Level)
  | faultAt (pc offset : Nat) (f : Fault)

/-- The walk through instructions, the first of which stands at `pc`. -/
def walkFrom (c : Capacities) (pc : Nat) (l : Level) : List (Instruction σ) → WalkEnd
  | [] => .behind l
  | i :: is =>
    match i.op.walk c l with
    | .ok l => walkFrom c (pc + 1) l is
    | .error f => .faultAt pc i.offset f

/-- The walk through a program. -/
def walk (p : Program σ) (c : Capacities) : WalkEnd := walkFrom c 0 {} p.code.toList

end Program

end Formula
