import Formula.CommandLine.Options
import Formula.Evaluation
import Formula.Machine.Reservation
import Formula.Program.Listing

/-!
# What the command line prints

The value of the formula goes to the standard output, behind the listing of its
program if that is asked for. Errors go to the standard error output, and so do
the lines of the log: how the compilation ended, every instruction before it is
executed, and how the run failed.

The capacity of the stack is an option. One that cannot be reserved ends the process when the
formula has been compiled (`Options.stackSize`, `Context.reserve?`).
-/

namespace Formula.CommandLine

/-- What is printed, and the code with which the command ends. -/
structure Report where
  code : Nat := 0
  output : String := ""
  /-- What goes to the error output, each with a line feed behind it. -/
  errors : List String := []

/-- A character of a logged message. Those that would act on a terminal are spelled
    out. -/
def logged (c : Char) : String :=
  let n := c.toNat
  if n = 0x07 ∨ n = 0x08 ∨ n = 0x0C ∨ n = 0x1B ∨ n = 0x7F then
    "\\x" ++ (if n < 0x10 then "0" else "") ++ String.ofList (Nat.toDigits 16 n)
  else if 0x80 ≤ n ∧ n ≤ 0x9F then "\\u\x7b" ++ String.ofList (Nat.toDigits 16 n) ++ "\x7d"
  else c.toString

/-- A line of the log: its level, a message and named values. -/
def logLine (level message : String) (fields : List (String × String)) : String :=
  level ++ " " ++ String.join (message.toList.map logged) ++
    String.join (fields.map fun (name, value) => " " ++ name ++ "=" ++ value)

/-- The log line of a stage that failed. -/
def failureLine (what : String) (e : Error) : String :=
  logLine "DEBUG" (what ++ " failed: " ++ e.message)
    [("stage", e.cause.stage.name), ("offset", toString e.offset)]

/-- The log line of an instruction that is about to be executed. -/
def traceLine {σ : Type} (x : Program.Executed σ) : String :=
  logLine "TRACE" "execute"
    [("pc", toString x.pc), ("offset", toString x.instruction.offset),
      ("op", x.instruction.op.display x.before.host)]

/-- The line in which an error is reported. -/
def errorLine (e : Error) : String :=
  e.cause.stage.name ++ " at offset " ++ toString e.offset ++ ": " ++ e.message

/-- The code of a process that is ended. -/
def endedCode : Nat := 101

/-- What the process is ended for. It says so among lines of its own, on where that was. -/
def endedLine : String := "capacity overflow"

/-- Evaluates a formula, which ends before the blanks at the end of `source`. -/
def Options.evaluate (o : Options) (source : String) : Report :=
  let source := String.ofList (Text.trimEnd source.toList)
  let table := o.table
  match compile table.host { decimalSeparator := o.decimalSeparator } source with
  | .error e =>
    { code := 1
      errors := (if 1 ≤ o.verbosity then [failureLine "compile" e] else []) ++ [errorLine e] }
  | .ok p =>
    let listing := if o.dump then p.listing table.store else ""
    let compiled := if 1 ≤ o.verbosity then
        [logLine "DEBUG" ("compiled '" ++ source ++ "'") [("instructions", toString p.size)]]
      else []
    match Context.reserve? { stack := o.stackSize } with
    | none => { code := endedCode, output := listing, errors := compiled ++ [endedLine] }
    | some context =>
      let trace := if 2 ≤ o.verbosity then (p.trace context table.store).map traceLine else []
      match (p.run context table.store).result with
      | .ok v => { output := listing ++ v.display ++ "\n", errors := compiled ++ trace }
      | .error e =>
        { code := 1
          output := listing
          errors := compiled ++ trace ++
            (if 1 ≤ o.verbosity then [failureLine "run" e] else []) ++ [errorLine e] }

/-- The report on a file that cannot be read as text. -/
def unreadable (file : String) : Report :=
  { code := 1
    errors := ["Failed to read the input file '" ++ file ++
      "'. Perhaps this file does not exist?"] }

/-- The report on a command line that cannot be read. An argument may hold control
    characters, which are left out of the message as its highlighting is. -/
def unusable (e : UsageError) : Report := { code := 2, errors := [Text.plain e.message] }

/-- The report on a command line with these options. `file` is what the file holds, if
    the formula is in one and it can be read as text. -/
def Options.report (o : Options) (file : Option String) : Report :=
  if o.fromFile then file.elim (unreadable o.contents) o.evaluate else o.evaluate o.contents

end Formula.CommandLine
