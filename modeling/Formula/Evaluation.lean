import Formula.Arena.Layout
import Formula.Machine.Run
import Formula.Program.Generate
import Formula.Syntax.Reading
import Formula.Token.Scan

/-!
# Evaluating formulas

A formula is cut into tokens, read as a tree, laid out in an arena and turned
into a program (`compile`); the program can be run as often as needed. Nothing is
kept from one compilation to the next.
-/

namespace Formula

variable {σ : Type}

/-- How formulas are read. -/
structure Settings where
  /-- A character that may stand for the point in numbers, besides the point. -/
  decimalSeparator : Char := '.'
  /-- How deeply operands may lie within each other. -/
  maxDepth : Nat := 256

/-- Reads a formula. -/
def Statement.read (units : List String) (settings : Settings) (source : String) :
    Except (Located SyntaxError) Statement := do
  let lexemes ← tokenize { units, separator := settings.decimalSeparator } source
  Statement.ofLexemes source.utf8ByteSize settings.maxDepth lexemes

/-- Replaces a program by that of a formula; it is empty if there is an error. -/
def Program.compile (p : Program σ) (host : Host σ) (settings : Settings) (source : String) :
    Program σ × Except Error Unit :=
  match Statement.read host.units.names settings source with
  | .error e => (p.clear, .error (e.map .reading))
  | .ok s =>
    let (p, result) := p.generate host s.arena
    (p, result.mapError (·.map .linking))

/-- The program of a formula. -/
def compile (host : Host σ) (settings : Settings) (source : String) :
    Except Error (Program σ) :=
  match Program.compile {} host settings source with
  | (p, .ok ()) => .ok p
  | (_, .error e) => .error e

/-- Compiles a formula and runs it once, with the usual settings and capacities. -/
def evaluate (host : Host σ) (source : String) (s : σ) : Except Error Value × σ :=
  match compile host {} source with
  | .error e => (.error e, s)
  | .ok p =>
    let outcome := p.run {} s
    (outcome.result, outcome.host)

end Formula
