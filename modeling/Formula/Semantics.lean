import Formula.Program.Code
import Formula.Value.Operation

/-!
# What a formula means

The value of a formula, by recursion on its tree and without a machine. Operands
and arguments are evaluated from left to right, all of them: `&&` and `||` have
values on both sides. The receiver of a method is handed over without being
read. An assignment evaluates its value, stores it and has it as its own. The
first operation that fails ends the evaluation.

The host can tell how many values lie on the stack when it is called. That
number is part of the meaning, as `depth`: the operands and arguments to the left
that are waiting for the one that is evaluated.
-/

namespace Formula

variable {σ : Type}

/-- What the evaluation of a formula does to the state of the host, and how it ends. -/
abbrev Meaning (σ α : Type) := EStateM Error σ α

namespace Meaning

/-- The outcome of looking something up. -/
def linked {α : Type} (x : Except (Located LinkError) α) : Meaning σ α :=
  match x with
  | .ok a => pure a
  | .error e => throw (e.map .linking)

/-- The outcome of an operation at `offset`. -/
def operation (offset : Nat) (x : Except OperationError Value) : Meaning σ Value :=
  match x with
  | .ok v => pure v
  | .error e => throw ⟨offset, .operation e⟩

/-- Reads a variable. -/
def read (x : Variable σ) (view : View) : Meaning σ Value := fun s =>
  let (v, s) := x.read view s
  .ok v s

/-- Lets the host act at `offset`; a refusal is an error as `cause` says. -/
def host {α : Type} (offset : Nat) (cause : String → OperationError)
    (x : EStateM String σ α) : Meaning σ α := fun s =>
  match x s with
  | .ok a s => .ok a s
  | .error reason s => .error ⟨offset, .operation (cause reason)⟩ s

end Meaning

namespace Expr

open Meaning

mutual

/-- The meaning of an expression while `depth` values are on the stack; `view` is what
    the host sees at a depth. -/
def eval (host : Host σ) (view : Nat → View) (depth : Nat) : Expr → Meaning σ Value
  | .number o n => linked (host.literal o n)
  | .text _ s => pure (.text s)
  | .reference o r => do
    let b ← linked (host.bind o r)
    read b.target (view depth)
  | .unary o op x => do
    let v ← eval host view depth x
    operation o (op.apply v)
  | .binary o op l r => do
    let x ← eval host view depth l
    let y ← eval host view (depth + 1) r
    operation o (op.apply x y)
  | .call o name args => do
    let vs ← evalAll host view depth args
    let f ← linked (host.function o name)
    Meaning.host o (.functionFailed name) (f (view depth) vs none)
  | .method o e name args => do
    let b ← linked (e.receiver host o name)
    let vs ← evalAll host view depth args
    let f ← linked (host.function o name)
    Meaning.host o (.functionFailed name) (f (view depth) vs (some b.target))

/-- The meaning of arguments, the first of which is evaluated while `depth` values are
    on the stack. -/
def evalAll (host : Host σ) (view : Nat → View) (depth : Nat) : List Expr → Meaning σ (List Value)
  | [] => pure []
  | e :: es => do
    let v ← eval host view depth e
    let vs ← evalAll host view (depth + 1) es
    return v :: vs

end

end Expr

open Meaning in
/-- The meaning of a formula. -/
def Statement.eval (host : Host σ) (view : Nat → View) : Statement → Meaning σ Value
  | .expression e => e.eval host view 0
  | .assignment _ o r e => do
    let v ← e.eval host view 0
    let b ← linked (host.bind o r)
    Meaning.host o (.readOnly b.name) (b.target.write (view 0) v)
    return v

end Formula
