import Formula.History

/-!
# Answers of a context

What a context gives back for what is done with it (`Context.answer`), use by use
(`Context.log`). To look up a slot (`Program.lookup`) is no use: it leaves the context
as it is.

A reset and a run empty the context before they do anything else (`Use.restarts`). The
cells that are taken between two of them can be counted by the answers alone, and those
that a run takes by how its instructions end (`Context.taken`).
-/

namespace Formula

/-- Whether a computation has put a value into a new cell, if that is followed by putting
    its slot on the stack and by nothing else: it has succeeded, or failed at that. -/
def tookCell {σ α : Type} : EStateM.Result Error (Machine σ) α → Bool
  | .ok .. | .error ⟨_, .fault (.stackOverflow _)⟩ _ => true
  | .error .. => false

/-- Whether an instruction that is executed has put its result into a new cell. -/
def Program.Executed.takesCell {σ : Type} (p : Program σ) (x : Executed σ) : Bool :=
  match x.instruction.op with
  | .const _ | .store _ => false
  | .load _ | .binary _ | .unary _ | .call .. => tookCell (p.step x.pc x.instruction x.before)

namespace Context

/-- What is given back for a use. -/
inductive Answer
  | done
  | slot (s : Slot)
  | fault (f : Fault)
  /-- How a run ended. -/
  | result (r : Except Error Value)

/-- The answer of an operation of the context. -/
def Answer.of {α : Type} (give : α → Answer) : EStateM.Result Fault Context α → Answer
  | .ok a _ => give a
  | .error f _ => .fault f

/-- What is given back for a use. -/
def answer (c : Context) : Use → Answer
  | .push s => .of (fun _ => .done) (push s c)
  | .pop => .of .slot (pop c)
  | .alloc v => .of .slot (alloc v c)
  | .pushValue v => .of (fun _ => .done) (pushValue v c)
  | .reset => .done
  | .run p s => .result (p.run c s).result

/-- Several uses, one after the other, with their answers. -/
def log (c : Context) : List Use → List (Use × Answer)
  | [] => []
  | u :: uses => (u, c.answer u) :: log (c.use u) uses

/-- Whether a use empties the context first. -/
def Use.restarts : Use → Bool
  | .reset | .run .. => true
  | .push _ | .pop | .alloc _ | .pushValue _ => false

/-- The number of cells that a use takes. -/
def cellsOf (c : Context) (u : Use) : Nat :=
  match u, c.answer u with
  | .alloc _, .slot _ => 1
  -- There was a cell, but no room on the stack for its slot.
  | .pushValue _, .done | .pushValue _, .fault (.stackOverflow _) => 1
  | .run p s, _ => (p.trace c s).countP (·.takesCell p)
  | _, _ => 0

/-- The number of cells that uses have taken since the context was last emptied, if there
    were `n` before them. -/
def taken (c : Context) (n : Nat) : List Use → Nat
  | [] => n
  | u :: uses => taken (c.use u) ((if u.restarts then 0 else n) + c.cellsOf u) uses

end Context

end Formula
