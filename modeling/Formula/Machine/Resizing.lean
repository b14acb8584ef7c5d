import Formula.Machine.Run

/-!
# Contexts of other sizes

The same context with other capacities (`Context.resize`), and the same for all that
holds a context: what the host sees of it, a machine, an instruction that is executed.

The host is told the capacities of the context. Variables and functions that make no
use of them do the same in a context of whatever size (`Program.IgnoresCapacities`).
-/

namespace Formula

variable {σ : Type}

/-- Capacities that are no smaller. -/
instance : LE Capacities := ⟨fun k k' => k.stack ≤ k'.stack ∧ k.heap ≤ k'.heap⟩

/-- What the host sees of the same context with other capacities. -/
def View.resize (k : Capacities) (view : View) : View := { view with capacities := k }

/-- The context with other capacities. -/
def Context.resize (k : Capacities) (c : Context) : Context := { c with capacities := k }

/-- The machine with other capacities of its context. -/
def Machine.resize (k : Capacities) (m : Machine σ) : Machine σ :=
  { m with context := m.context.resize k }

/-- The same instruction, executed with other capacities. -/
def Program.Executed.resize (k : Capacities) (x : Executed σ) : Executed σ :=
  { x with before := x.before.resize k }

/-- The machine has no room for what a program wants to keep. -/
inductive Fault.IsExhaustion : Fault → Prop
  | stack (capacity : Nat) : IsExhaustion (.stackOverflow capacity)
  | heap (capacity : Nat) : IsExhaustion (.heapExhausted capacity)

/-- What the host does for an operation does not depend on the capacities of the
    context. -/
def Op.IgnoresCapacities : Op σ → Prop
  | .const _ | .binary _ | .unary _ => True
  | .load b => ∀ view k, b.target.read (view.resize k) = b.target.read view
  | .store b => ∀ view k v, b.target.write (view.resize k) v = b.target.write view v
  | .call _ f _ receiver => ∀ view k args,
      f (view.resize k) args (receiver.map (·.target)) = f view args (receiver.map (·.target))

/-- What the host does for a program does not depend on the capacities of the context. -/
def Program.IgnoresCapacities (p : Program σ) : Prop :=
  ∀ i ∈ p.code.toList, i.op.IgnoresCapacities

end Formula
