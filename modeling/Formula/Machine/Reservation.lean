import Formula.Machine.Run

/-!
# Reservations

Before a call takes its arguments off the stack, it reserves room for them, and before a
context is made, room for all that it may hold is reserved. There is an end to how much can
be reserved at once, whatever memory the machine has: beyond `maxBytes` nothing could be
addressed. To try it ends the whole process. There is no error then and no result, and
nothing is left to look at: this is the outcome `none`.

* `Context.reserve?`: a context is made only of capacities that can be reserved.
* `Program.attempt`: a run up to the first call whose arguments cannot be reserved. Up to
  there it is the run that `Program.run` tells of, which has such calls look for their
  arguments.

That the memory is used up before is not told here, neither by these definitions nor by
others.
-/

namespace Formula

variable {σ : Type}

/-- The greatest number of bytes that can be reserved at once, that of the positive signed
    words. -/
def maxBytes : Nat := UInt64.size / 2 - 1

/-- The bytes of a slot: its kind and its place, of a word each. -/
def Slot.bytes : Nat := 16

/-- The bytes of a value, three words: those of a text, which has its kind among them. -/
def Value.bytes : Nat := 24

/-- The capacities can be reserved, those of the stack and those of the heap. -/
def Capacities.Reservable (c : Capacities) : Prop :=
  c.stack * Slot.bytes ≤ maxBytes ∧ c.heap * Value.bytes ≤ maxBytes

instance (c : Capacities) : Decidable c.Reservable :=
  inferInstanceAs (Decidable (_ ∧ _))

/-- The context of some capacities, if they can be reserved. -/
def Context.reserve? (capacities : Capacities) (data : Value := .undefined) : Option Context :=
  if capacities.Reservable then some { capacities, data } else none

/-- The number of slots for which an operation reserves room. -/
def Op.arguments : Op σ → Nat
  | .call _ _ argc _ => argc
  | _ => 0

/-- The arguments of an operation can be reserved. -/
def Op.Reservable (op : Op σ) : Prop := op.arguments * Slot.bytes ≤ maxBytes

instance (op : Op σ) : Decidable op.Reservable := inferInstanceAs (Decidable (_ ≤ _))

namespace Program

/-- Executes instructions, the first of which stands at `pc`, and takes the value that is
    left. -/
def attemptFrom (p : Program σ) (pc : Nat) (m : Machine σ) :
    List (Instruction σ) → Option (EStateM.Result Error (Machine σ) Value)
  | [] => some (p.finish m)
  | i :: is =>
    if i.op.Reservable then
      match p.step pc i m with
      | .ok _ m => attemptFrom p (pc + 1) m is
      | .error e m => some (.error e m)
    else none

/-- Runs a program in a context, which is reset first, with the host in the state `s`. -/
def attempt (p : Program σ) (c : Context) (s : σ) : Option (Outcome σ) :=
  (p.attemptFrom 0 ⟨c.reset, s⟩ p.code.toList).map fun
    | .ok v m => ⟨.ok v, m.context, m.host⟩
    | .error e m => ⟨.error e, m.context, m.host⟩

end Program

end Formula
