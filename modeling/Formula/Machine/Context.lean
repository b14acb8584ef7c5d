import Formula.Error

/-!
# Execution contexts

A context is what a program works in: a stack of slots, and a heap of the values
computed so far. A slot refers to a constant of the program or to a heap cell;
values themselves are never on the stack. Both stack and heap have a capacity,
and going beyond it is a fault. Heap cells are not given back before the context
is reset.

An operation that takes several steps and fails at a later one leaves what the
earlier ones did.

Two choices are made here. An application may attach data of any type to a context; here it
is a value, as formulas have them. And a function of the host is handed the context as a
whole, so that it could look up heap cells whose slots it guesses; here it sees the
capacities, the depth of the stack and the data (`View`), which is all that it is told of.
-/

namespace Formula

/-- What a stack entry refers to. -/
inductive Slot
  /-- The constant that the instruction at this place pushes. -/
  | const (index : Nat)
  /-- The heap cell at this place. -/
  | scratch (index : Nat)
  deriving DecidableEq

/-- How much a context can hold. -/
structure Capacities where
  /-- The greatest depth of the stack. -/
  stack : Nat := 128
  /-- The number of heap cells. -/
  heap : Nat := 128
  deriving DecidableEq

/-- What programs work in. Not all capacities can be had: `Context.reserve?`. -/
structure Context where
  /-- The stack, its top first. -/
  stack : List Slot := []
  /-- The heap cells, the oldest first. -/
  heap : Array Value := #[]
  capacities : Capacities := {}
  /-- What the application hands to its variables and functions, here always a value. -/
  data : Value := .undefined

/-- What the host sees of a context: not the slots of the stack, and not the heap cells that it
    could only find by guessing at their slots. -/
structure View where
  capacities : Capacities
  /-- The depth of the stack. -/
  depth : Nat
  data : Value

namespace Context

/-- The depth of the stack. -/
def depth (c : Context) : Nat := c.stack.length

/-- What the host sees of the context. -/
def view (c : Context) : View := ⟨c.capacities, c.depth, c.data⟩

/-- The context without stack entries and heap cells. -/
def reset (c : Context) : Context := { c with stack := [], heap := #[] }

/-- Puts a slot on the stack. -/
def push (s : Slot) : EStateM Fault Context Unit := fun c =>
  if c.depth < c.capacities.stack then .ok () { c with stack := s :: c.stack }
  else .error (.stackOverflow c.capacities.stack) c

/-- Takes the top slot off the stack. -/
def pop : EStateM Fault Context Slot := fun c =>
  match c.stack with
  | s :: below => .ok s { c with stack := below }
  | [] => .error .stackUnderflow c

/-- Takes `n` slots off the stack; gives them in the order in which they were put
    there, before `above`. Room for them is reserved before, see `Op.Reservable`. -/
def popMany (n : Nat) (above : List Slot := []) : EStateM Fault Context (List Slot) :=
  match n with
  | 0 => pure above
  | n + 1 => do
    let s ← pop
    popMany n (s :: above)

/-- Puts a value into a new heap cell. -/
def alloc (v : Value) : EStateM Fault Context Slot := fun c =>
  if c.heap.size < c.capacities.heap then
    .ok (.scratch c.heap.size) { c with heap := c.heap.push v }
  else .error (.heapExhausted c.capacities.heap) c

/-- Puts a value into a new heap cell and its slot on the stack. -/
def pushValue (v : Value) : EStateM Fault Context Unit := do
  let s ← alloc v
  push s

end Context

end Formula
