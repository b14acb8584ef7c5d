import Formula.Machine.Run
import Formula.Semantics

/-!
# What is asked of the host

The host takes part in an evaluation when a variable is read, a function is called
or something is assigned. These *actions*, with all that the host is given, are
said twice: of a formula, where they follow from what it means (`Statement.actions`),
and of a run, whose instructions they belong to (`Program.actions`).

An evaluation that fails has made the actions up to the operation that fails; if
it was the host that refused, that action is the last one.
-/

namespace Formula

variable {σ : Type}

/-- Something that the host is asked to do. -/
inductive Action (σ : Type)
  /-- To read a variable. -/
  | read (x : Variable σ) (view : View)
  /-- To call a function with arguments and perhaps a receiver. -/
  | call (f : Function σ) (view : View) (args : List Value) (receiver : Option (Variable σ))
  /-- To assign to a variable. -/
  | write (x : Variable σ) (view : View) (v : Value)

/-! ## Formulas -/

namespace Expr

mutual

/-- The actions that an expression makes from a state of the host on. -/
def actions (host : Host σ) (view : Nat → View) (depth : Nat) : Expr → σ → List (Action σ)
  | .number .., _ | .text .., _ => []
  | .reference o r, _ =>
    match host.bind o r with
    | .ok b => [.read b.target (view depth)]
    | .error _ => []
  | .unary _ _ x, s => actions host view depth x s
  | .binary _ _ l r, s =>
    actions host view depth l s ++
      match l.eval host view depth s with
      | .ok _ s => actions host view (depth + 1) r s
      | .error .. => []
  | .call o name args, s =>
    actionsAll host view depth args s ++
      match host.function o name with
      | .ok f =>
        match evalAll host view depth args s with
        | .ok vs _ => [.call f (view depth) vs none]
        | .error .. => []
      | .error _ => []
  | .method o e name args, s =>
    match e.receiver host o name with
    | .ok b =>
      actionsAll host view depth args s ++
        match host.function o name with
        | .ok f =>
          match evalAll host view depth args s with
          | .ok vs _ => [.call f (view depth) vs (some b.target)]
          | .error .. => []
        | .error _ => []
    | .error _ => []

/-- The actions that arguments make, one after the other. -/
def actionsAll (host : Host σ) (view : Nat → View) (depth : Nat) :
    List Expr → σ → List (Action σ)
  | [], _ => []
  | e :: es, s =>
    actions host view depth e s ++
      match e.eval host view depth s with
      | .ok _ s => actionsAll host view (depth + 1) es s
      | .error .. => []

end

end Expr

/-- The actions that a formula makes from a state of the host on. -/
def Statement.actions (host : Host σ) (view : Nat → View) : Statement → σ → List (Action σ)
  | .expression e, s => e.actions host view 0 s
  | .assignment _ o r e, s =>
    e.actions host view 0 s ++
      match host.bind o r with
      | .ok b =>
        match e.eval host view 0 s with
        | .ok v _ => [.write b.target (view 0) v]
        | .error .. => []
      | .error _ => []

/-! ## Runs -/

namespace Program

open Run

/-- What an instruction asks of the host, if anything, once it has taken its operands
    from the stack. -/
def request (p : Program σ) (i : Instruction σ) : Run σ (Option (Action σ)) :=
  match i.op with
  | .load b => fun m => .ok (some (.read b.target m.context.view)) m
  | .store b => do
    let s ← onContext i.offset Context.pop
    let v ← value p i.offset s
    fun m => .ok (some (.write b.target m.context.view v)) m
  | .call _ f argc receiver => do
    let slots ← onContext i.offset (Context.popMany argc)
    let args ← slots.mapM (value p i.offset)
    fun m => .ok (some (.call f m.context.view args (receiver.map (·.target)))) m
  | .const _ | .binary _ | .unary _ => pure none

/-- The action of an instruction that is executed; none if its operands are not
    there. -/
def Executed.action? (p : Program σ) (x : Executed σ) : Option (Action σ) :=
  match p.request x.instruction x.before with
  | .ok a _ => a
  | .error .. => none

/-- The actions made by instructions, the first of which stands at `pc`. -/
def actionsFrom (p : Program σ) (pc : Nat) (m : Machine σ) (is : List (Instruction σ)) :
    List (Action σ) :=
  (p.traceFrom pc m is).filterMap (·.action? p)

/-- The actions that a run makes. -/
def actions (p : Program σ) (c : Context) (s : σ) : List (Action σ) :=
  (p.trace c s).filterMap (·.action? p)

end Program

end Formula
