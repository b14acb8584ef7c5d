import Formula.Host.Table
import Formula.Text.Blank
import Formula.Text.Plain

/-!
# Options of the command line

The command line names the variables and units that a formula may use, how it is
read, and how much is printed. An option that takes a value checks it when it is
read; the first value that is not acceptable is reported (`InvalidValue`).

A variable is `NAME=VALUE`: a number, or a text in quotes or without them. A unit
is `NAME=FACTOR`. The name ends at the first `=`; blanks around names and values
do not count.
-/

namespace Formula.CommandLine

open Text (trim highlighted)

/-- Why the value of an option is not acceptable. -/
inductive Reason
  /-- There is no `=` in it. -/
  | noDefinition (form given : String)
  /-- The factor of a unit is not a number. -/
  | factor (unit : String) (isEmpty : Bool)
  /-- It should be one character. -/
  | character (isEmpty : Bool)
  /-- It should be a whole number. -/
  | wholeNumber (isEmpty : Bool)
  /-- It is a whole number, but too large. -/
  | tooLarge
  deriving DecidableEq

/-- A reason in words. -/
def Reason.message : Reason → String
  | noDefinition form given => "expected " ++ form ++ ", got '" ++ given ++ "'"
  | factor unit true =>
    "invalid factor for unit '" ++ unit ++ "': cannot parse float from empty string"
  | factor unit false => "invalid factor for unit '" ++ unit ++ "': invalid float literal"
  | character true => "cannot parse char from empty string"
  | character false => "too many characters in string"
  | wholeNumber true => "cannot parse integer from empty string"
  | wholeNumber false => "invalid digit found in string"
  | tooLarge => "number too large to fit in target type"

/-- An option with a value that is not acceptable. -/
structure InvalidValue where
  /-- The option, with the form of its value. -/
  option : String
  value : String
  reason : Reason
  deriving DecidableEq

/-- An invalid value in words, for a terminal. -/
def InvalidValue.message (e : InvalidValue) : String :=
  "invalid value '" ++ highlighted e.value ++ "' for '" ++ highlighted e.option ++ "': " ++
    e.reason.message

/-- What is wrong with a command line. -/
inductive UsageError
  | invalidValue (e : InvalidValue)
  /-- An argument that has no place. -/
  | unexpected (arg : String)
  /-- An option whose value is missing. -/
  | noValue (option : String)
  /-- There is no formula. -/
  | noContents
  deriving DecidableEq

/-- What is wrong with a command line, in words, for a terminal. -/
def UsageError.reason : UsageError → String
  | invalidValue e => e.message
  | unexpected arg => "unexpected argument '" ++ highlighted arg ++ "' found"
  | noValue option =>
    "a value is required for '" ++ highlighted option ++ "' but none was supplied"
  | noContents =>
    "the following required arguments were not provided: " ++ highlighted "<CONTENTS>"

/-- The message on a command line that cannot be read, for a terminal: what is wrong, and
    where to look. -/
def UsageError.message (e : UsageError) : String :=
  highlighted "error:" ++ " " ++ e.reason ++ "\n\nFor more information, try '" ++
    highlighted "--help" ++ "'."

/-! ## Values of options -/

/-- What stands before the first `mark` in `cs` and behind it. -/
def splitAt? (mark : Char) (cs : List Char) : Option (List Char × List Char) :=
  match cs with
  | [] => none
  | c :: cs =>
    if c = mark then some ([], cs)
    else (splitAt? mark cs).map fun (before, behind) => (c :: before, behind)

/-- The text between two quotes around `cs`. -/
def unquote? (cs : List Char) : Option (List Char) :=
  match cs with
  | '\'' :: cs => if cs.getLast? = some '\'' then some cs.dropLast else none
  | _ => none

/-- The value that is meant by `cs`: a number if it spells one, and else a text, which
    may stand in quotes. -/
def readValue (cs : List Char) : Value :=
  match Decimal.read? cs with
  | some x => .number x
  | none => .text (String.ofList ((unquote? cs).getD cs))

/-- A variable and its value. -/
def readVariable (arg : String) : Except Reason (String × Value) :=
  match splitAt? '=' arg.toList with
  | none => .error (.noDefinition "NAME=VALUE" arg)
  | some (name, value) => .ok (String.ofList (trim name), readValue (trim value))

/-- A unit and its factor. -/
def readUnit (arg : String) : Except Reason (String × Float) :=
  match splitAt? '=' arg.toList with
  | none => .error (.noDefinition "NAME=FACTOR" arg)
  | some (name, factor) =>
    match Decimal.read? (trim factor) with
    | none => .error (.factor (String.ofList name) (trim factor).isEmpty)
    | some x => .ok (String.ofList (trim name), x)

/-- A character. -/
def readCharacter (arg : String) : Except Reason Char :=
  match arg.toList with
  | [] => .error (.character true)
  | [c] => .ok c
  | _ => .error (.character false)

/-- A whole number of at most 64 bits. -/
def readWholeNumber (arg : String) : Except Reason Nat :=
  let digits := match arg.toList with
    | '+' :: d :: ds => d :: ds
    | ds => ds
  if digits.isEmpty then .error (.wholeNumber true)
  else if !digits.all Char.isDigit then .error (.wholeNumber false)
  else
    let n := Decimal.ofDigits digits
    if n < UInt64.size then .ok n else .error .tooLarge

/-! ## Options -/

/-- What the command line says. -/
structure Options where
  /-- Whether the formula is in a file. -/
  fromFile : Bool := false
  /-- The variables with their values, in the order in which they are given. -/
  definitions : List (String × Value) := []
  /-- The units, in the order in which they are given. -/
  units : List (String × Float) := []
  decimalSeparator : Char := '.'
  stackSize : Nat := 128
  /-- Whether the program is printed. -/
  dump : Bool := false
  /-- How much is logged: nothing, how the stages end, or every instruction. -/
  verbosity : Nat := 0
  /-- The formula, or the name of its file. -/
  contents : String := ""

namespace Options

/-- The form of the value of an option, if it takes one. -/
def form? : String → Option String
  | "--var" => some "NAME=VALUE"
  | "--unit" => some "NAME=FACTOR"
  | "--decimal-separator" => some "DECIMAL_SEPARATOR"
  | "--stack-size" => some "STACK_SIZE"
  | _ => none

/-- The options with one of them set to a value. -/
def withValue (o : Options) (option value : String) : Except Reason Options :=
  match option with
  | "--var" => (readVariable value).map fun v => { o with definitions := o.definitions ++ [v] }
  | "--unit" => (readUnit value).map fun u => { o with units := o.units ++ [u] }
  | "--decimal-separator" =>
    (readCharacter value).map fun c => { o with decimalSeparator := c }
  | "--stack-size" => (readWholeNumber value).map fun n => { o with stackSize := n }
  | _ => .ok o

/-- The options with an option that takes no value. -/
def withFlag? (o : Options) (option : String) : Option Options :=
  match option with
  | "-f" | "--file" => some { o with fromFile := true }
  | "--dump" => some { o with dump := true }
  | "-v" | "--verbose" => some { o with verbosity := o.verbosity + 1 }
  | "-vv" => some { o with verbosity := o.verbosity + 2 }
  | _ => none

/-- The options with the formula or the name of its file, which may be given once. -/
def withContents (o : Options) : (earlier : Option String) → (arg : String) →
    Except UsageError Options
  | none, arg => .ok { o with contents := arg }
  | some _, arg => .error (.unexpected arg)

/-- The options with an option set to a value that it takes; `form` is the form of such
    values. -/
def withArgument (o : Options) (option form value : String) : Except UsageError Options :=
  (o.withValue option value).mapError fun reason =>
    .invalidValue ⟨option ++ " <" ++ form ++ ">", value, reason⟩

/-- Reads the arguments of a command line from left to right. `contents` is the one
    that is not an option, once it is found; behind `--` there are no options. The
    value of an option stands behind an equals sign or is the next argument. -/
def readFrom (o : Options) (contents : Option String) (args : List String) :
    Except UsageError Options :=
  match args with
  | [] => if contents.isSome then .ok o else .error .noContents
  | "--" :: [] => if contents.isSome then .ok o else .error .noContents
  | "--" :: [arg] => o.withContents contents arg
  | "--" :: _ :: arg :: _ => .error (.unexpected arg)
  | arg :: args =>
    match o.withFlag? arg with
    | some o => readFrom o contents args
    | none =>
      match splitAt? '=' arg.toList with
      | some (option, value) =>
        match form? (String.ofList option) with
        | some form => do
          readFrom (← o.withArgument (String.ofList option) form (String.ofList value))
            contents args
        | none => do readFrom (← o.withContents contents arg) (some arg) args
      | none =>
        match form? arg, args with
        | some form, value :: args => do
          readFrom (← o.withArgument arg form value) contents args
        | some form, [] => .error (.noValue (arg ++ " <" ++ form ++ ">"))
        | none, args =>
          if arg.startsWith "-" then .error (.unexpected arg)
          else do readFrom (← o.withContents contents arg) (some arg) args
termination_by args.length

/-- Reads the arguments of a command line. -/
def read (args : List String) : Except UsageError Options := readFrom {} none args

end Options

/-- How the command is used. -/
def usage : String :=
  "Usage: formula [OPTIONS] <CONTENTS>\n\n" ++
    "  <CONTENTS>                    the formula, or the name of its file\n" ++
    "  -f, --file                    reads the formula from a file\n" ++
    "  --var <NAME=VALUE>            defines a variable or a field\n" ++
    "  --unit <NAME=FACTOR>          defines a unit\n" ++
    "  --decimal-separator <DECIMAL_SEPARATOR>\n" ++
    "                                may stand for the point in numbers\n" ++
    "  --stack-size <STACK_SIZE>     the greatest depth of the stack\n" ++
    "  --dump                        prints the program\n" ++
    "  -v, --verbose                 logs more\n"

/-- A table with a variable of the command line. A name with a point in it is a field. -/
def withDefinition (t : Table Unit) (name : String) (v : Value) : Table Unit :=
  match splitAt? '.' name.toList with
  | some (object, field) => t.withField (String.ofList object) (String.ofList field) v
  | none => t.set name v

/-- The host that the options describe: units of length and those given, and the
    variables. -/
def Options.table (o : Options) : Table Unit :=
  let units := o.units.foldl (fun t (name, factor) => t.insert name factor) UnitTable.lengths
  o.definitions.foldl (fun t (name, v) => withDefinition t name v) { units, store := { own := () } }

end Formula.CommandLine
