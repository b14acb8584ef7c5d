import Formula.History

/-!
# Sessions

What an application does with a table of its own, in whatever order (`Table.Use`): it
defines names, writes to them, looks up what they stand for, and writes to the handles that
it got when it looked them up. Compiled programs do no more to a table than to hold such
handles and to read and write to them.

A session says what the table makes of this (`Session.after`). What it should amount to is
said beside it, of the uses alone, the last of them first: which cell a name has
(`Table.current`), which cell a handle holds (`Table.held`), whether a cell can be assigned
to (`Table.assignable`) and what was written to it last (`Table.lastWritten`). Cells are
counted in the order in which they are made.
-/

namespace Formula

variable {τ : Type}

/-- Something that is done with a table. Handles are counted in the order in which they were
    looked up. -/
inductive Table.Use
  | variable (name : String) (v : Value)
  | constant (name : String) (v : Value)
  | field (object name : String) (v : Value)
  /-- The application writes to a name. -/
  | set (name : String) (v : Value)
  /-- The application looks up what a reference stands for. -/
  | resolve (r : Reference)
  /-- Somebody writes to a handle, in a context. -/
  | write (handle : Nat) (view : View) (v : Value)

/-- A table, and the handles that were looked up in it; there is none where the table did
    not know the reference. -/
structure Session (τ : Type) where
  table : Table τ
  handles : List (Option (Variable (Store τ))) := []

namespace Session

/-- The handle that was looked up at a place. -/
def handle? (s : Session τ) (h : Nat) : Option (Variable (Store τ)) := s.handles[h]?.join

/-- What is read from a handle, in a context. -/
def value? (s : Session τ) (h : Nat) (view : View) : Option Value :=
  (s.handle? h).map fun x => (x.read view s.table.store).1

/-- The session behind a use. -/
def use (s : Session τ) : Table.Use → Session τ
  | .variable name v => { s with table := s.table.withVariable name v }
  | .constant name v => { s with table := s.table.withConstant name v }
  | .field object name v => { s with table := s.table.withField object name v }
  | .set name v => { s with table := s.table.set name v }
  | .resolve r => { s with handles := s.handles ++ [s.table.host.reference? r] }
  | .write h view v =>
    match s.handle? h with
    | some x => { s with table.store := stateLeft (x.write view v s.table.store) }
    | none => s

/-- The session behind several uses, the last of them first, that began with a table without
    names. -/
def after (functions : List (String × Function (Store τ))) (units : UnitTable) (own : τ) :
    List Table.Use → Session τ
  | [] => { table := { functions, units, store := { own } } }
  | u :: past => (after functions units own past).use u

end Session

/-! ## Uses alone -/

namespace Table

/-- The name that a use makes a new cell for, where `known` are the names that have one. -/
def Use.makes (known : String → Bool) : Use → Option String
  | .variable name _ | .constant name _ => some name
  | .field object name _ => some (Reference.field object name).text
  | .set name _ => if known name then none else some name
  | .resolve _ | .write .. => none

mutual

/-- The cell of a name. -/
def current : List Use → String → Option Nat
  | [], _ => none
  | u :: past, name =>
    if u.makes (fun n => (current past n).isSome) = some name then some (made past)
    else current past name

/-- The number of cells. -/
def made : List Use → Nat
  | [] => 0
  | u :: past =>
    if (u.makes fun n => (current past n).isSome).isSome then made past + 1 else made past

end

/-- The number of handles. -/
def resolved : List Use → Nat
  | [] => 0
  | .resolve _ :: past => resolved past + 1
  | _ :: past => resolved past

/-- The cell that a handle holds: the one that the reference had when it was looked up. -/
def held : List Use → Nat → Option Nat
  | [], _ => none
  | .resolve r :: past, h => if h = resolved past then current past r.text else held past h
  | _ :: past, h => held past h

/-- Whether a use makes something that can be assigned to. -/
def Use.isWritable : Use → Bool
  | .constant .. => false
  | _ => true

/-- Whether a cell can be assigned to. -/
def assignable : List Use → Nat → Bool
  | [], _ => false
  | u :: past, cell =>
    if (u.makes fun n => (current past n).isSome).isSome ∧ cell = made past then u.isWritable
    else assignable past cell

/-- The use defines the name, whether it has a cell already or not. -/
def Use.Defines (name : String) : Use → Prop
  | .variable n _ | .constant n _ => n = name
  | .field object n _ => (Reference.field object n).text = name
  | _ => False

/-- The cell that a use writes to, and the value. Who defines a name writes to a new cell, and
    what is written to the handle of a constant is refused. -/
def Use.written (past : List Use) : Use → Option (Nat × Value)
  | .variable _ v | .constant _ v | .field _ _ v => some (made past, v)
  | .set name v => some ((current past name).getD (made past), v)
  | .resolve _ => none
  | .write h _ v => (held past h).bind fun cell =>
    if assignable past cell then some (cell, v) else none

/-- What was written to a cell last. -/
def lastWritten : List Use → Nat → Option Value
  | [], _ => none
  | u :: past, cell =>
    match u.written past with
    | some (c, v) => if c = cell then some v else lastWritten past cell
    | none => lastWritten past cell

end Table

end Formula
