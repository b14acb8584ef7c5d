import Formula.Program
import Formula.Value.Operation

/-!
# Running programs

The machine executes the instructions of a program one after the other. Values
are taken from the stack before an operation and its result is put into a new
heap cell after it, so an operation that fails has already taken its operands.
A program has to end with one value on the stack, its result.

Errors leave the machine as it is at that moment: the context can still be asked
for the heap cells, and what the host did before is not undone.

A call is taken here as one that looks for its arguments at once. That room for them is
reserved before, and that this ends the process if they are too many, is told by
`Program.attempt`.
-/

namespace Formula

variable {σ : Type}

/-- A context and the state of the host. -/
structure Machine (σ : Type) where
  context : Context
  host : σ

/-- Something that the machine does. -/
abbrev Run (σ α : Type) := EStateM Error (Machine σ) α

namespace Run

/-- Works on the context; faults are reported at `offset`. -/
def onContext {α : Type} (offset : Nat) (x : EStateM Fault Context α) : Run σ α :=
  fun ⟨c, s⟩ =>
    match x c with
    | .ok a c => .ok a ⟨c, s⟩
    | .error f c => .error ⟨offset, .fault f⟩ ⟨c, s⟩

/-- Lets the host act; a refusal is reported at `offset` as `cause` says. -/
def onHost {α : Type} (offset : Nat) (cause : String → OperationError)
    (x : View → EStateM String σ α) : Run σ α :=
  fun ⟨c, s⟩ =>
    match x c.view s with
    | .ok a s => .ok a ⟨c, s⟩
    | .error reason s => .error ⟨offset, .operation (cause reason)⟩ ⟨c, s⟩

/-- Reads a variable. -/
def read (x : Variable σ) : Run σ Value := fun ⟨c, s⟩ =>
  let (v, s) := x.read c.view s
  .ok v ⟨c, s⟩

/-- The value of a slot. -/
def value (p : Program σ) (offset : Nat) (s : Slot) : Run σ Value := fun m =>
  match p.lookup m.context s with
  | .ok v => .ok v m
  | .error f => .error ⟨offset, .fault f⟩ m

/-- The result of an operation. -/
def result (offset : Nat) (x : Except OperationError Value) : Run σ Value := fun m =>
  match x with
  | .ok v => .ok v m
  | .error e => .error ⟨offset, .operation e⟩ m

end Run

namespace Program

open Run

/-- Executes the instruction `i`, which stands at `pc`. -/
def step (p : Program σ) (pc : Nat) (i : Instruction σ) : Run σ Unit :=
  match i.op with
  | .const _ => onContext i.offset (Context.push (.const pc))
  | .load b => do
    let v ← read b.target
    onContext i.offset (Context.pushValue v)
  | .store b => do
    let s ← onContext i.offset Context.pop
    let v ← value p i.offset s
    onHost i.offset (.readOnly b.name) (b.target.write · v)
    onContext i.offset (Context.push s)
  | .binary op => do
    let right ← onContext i.offset Context.pop
    let left ← onContext i.offset Context.pop
    let x ← value p i.offset left
    let y ← value p i.offset right
    let v ← result i.offset (op.applyBinary x y)
    onContext i.offset (Context.pushValue v)
  | .unary op => do
    let operand ← onContext i.offset Context.pop
    let x ← value p i.offset operand
    let v ← result i.offset (op.applyUnary x)
    onContext i.offset (Context.pushValue v)
  | .call name f argc receiver => do
    let slots ← onContext i.offset (Context.popMany argc)
    let args ← slots.mapM (value p i.offset)
    let v ← onHost i.offset (.functionFailed name) (f · args (receiver.map (·.target)))
    onContext i.offset (Context.pushValue v)

/-- Executes instructions, the first of which stands at `pc`. -/
def steps (p : Program σ) (pc : Nat) : List (Instruction σ) → Run σ Unit
  | [] => pure ()
  | i :: is => do
    p.step pc i
    steps p (pc + 1) is

/-- The place at which the end of a program is reported: that of the last
    instruction. -/
def lastOffset (p : Program σ) : Nat := p.code.back?.elim 0 (·.offset)

/-- Takes the one value that a program has left. -/
def finish (p : Program σ) : Run σ Value := fun m =>
  if m.context.depth = 1 then
    (do
      let s ← onContext p.lastOffset Context.pop
      value p p.lastOffset s : Run σ Value) m
  else .error ⟨p.lastOffset, .fault (.unbalancedStack m.context.depth)⟩ m

/-- Executes all of a program. -/
def execute (p : Program σ) : Run σ Value := do
  p.steps 0 p.code.toList
  p.finish

/-- How a run ends: with a value or an error, and what it leaves. -/
structure Outcome (σ : Type) where
  result : Except Error Value
  context : Context
  host : σ

/-- Runs a program in a context, which is reset first, with the host in the state
    `s`. -/
def run (p : Program σ) (c : Context) (s : σ) : Outcome σ :=
  match p.execute ⟨c.reset, s⟩ with
  | .ok v m => ⟨.ok v, m.context, m.host⟩
  | .error e m => ⟨.error e, m.context, m.host⟩

/-! ## Traces -/

/-- An instruction that is executed, and the machine before it is. -/
structure Executed (σ : Type) where
  pc : Nat
  instruction : Instruction σ
  before : Machine σ

/-- The instructions that are executed from a machine on, the one that fails
    included. -/
def traceFrom (p : Program σ) (pc : Nat) (m : Machine σ) :
    List (Instruction σ) → List (Executed σ)
  | [] => []
  | i :: is =>
    ⟨pc, i, m⟩ :: match p.step pc i m with
      | .ok _ m => traceFrom p (pc + 1) m is
      | .error _ _ => []

/-- The instructions that a run executes. -/
def trace (p : Program σ) (c : Context) (s : σ) : List (Executed σ) :=
  p.traceFrom 0 ⟨c.reset, s⟩ p.code.toList

end Program

end Formula
