import Formula.CommandLine.Report

/-!
# The command

Reads the command line and the file that it may name, and prints the report.
-/

namespace Formula.CommandLine

/-- The text of a file, if it can be read and is text. -/
def fileContents (name : String) : IO (Option String) := do
  try
    return String.fromUTF8? (← IO.FS.readBinFile name)
  catch _ => return none

/-- Prints a report and gives its code. -/
def Report.print (r : Report) : IO UInt32 := do
  IO.print r.output
  for line in r.errors do
    IO.eprintln line
  return r.code.toUInt32

end Formula.CommandLine

open Formula.CommandLine in
def main (args : List String) : IO UInt32 := do
  if args.contains "--help" then
    IO.print usage
    return 0
  match Options.read args with
  | .error e => (unusable e).print
  | .ok o =>
    let file ← if o.fromFile then fileContents o.contents else pure none
    (o.report file).print
