import Formula.Host.Table
import Formula.Machine.Run

/-!
# Histories

A program outlives the moment at which it was compiled. Until it is run, the
application may write to the names of its table, and programs may have been run on
the table (`Table.Event`); the context that the program is run in may have been worked
in before, step by step or by other runs (`Context.Use`). None of these has to
succeed: what counts is the table, or the context, that is left.
-/

namespace Formula

variable {τ : Type}

/-- The state that a computation leaves, however it ends. -/
def stateLeft {ε σ α : Type} : EStateM.Result ε σ α → σ
  | .ok _ s | .error _ s => s

/-- Something that happens to a table once its names are defined. -/
inductive Table.Event (τ : Type)
  /-- The application writes to a name. -/
  | set (name : String) (v : Value)
  /-- A program is run in a context. -/
  | run (p : Program (Store τ)) (c : Context)

namespace Table

/-- The table behind an event. -/
def after (t : Table τ) : Event τ → Table τ
  | .set name v => t.set name v
  | .run p c => { t with store := (p.run c t.store).host }

/-- The table behind several events, one after the other. -/
def afterAll (t : Table τ) (events : List (Event τ)) : Table τ := events.foldl after t

end Table

/-- Something that is done with a context. -/
inductive Context.Use : Type 1
  | push (s : Slot)
  | pop
  | alloc (v : Value)
  | pushValue (v : Value)
  | reset
  /-- A program is run in it, for whatever host, with the host in a state. -/
  | run {σ : Type} (p : Program σ) (s : σ)

namespace Context

/-- The context behind a use. -/
def use (c : Context) : Use → Context
  | .push s => stateLeft (push s c)
  | .pop => stateLeft (pop c)
  | .alloc v => stateLeft (alloc v c)
  | .pushValue v => stateLeft (pushValue v c)
  | .reset => c.reset
  | .run p s => (p.run c s).context

/-- The context behind several uses, one after the other. -/
def useAll (c : Context) (uses : List Use) : Context := uses.foldl use c

end Context

end Formula
