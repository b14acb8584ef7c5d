/-!
# Decimal numerals

A numeral is a run of digits with a point somewhere in or around it and a power
of ten. It denotes the double nearest to its exact value, the even one of two
equally near ones (`Decimal.nearest`).

`Decimal.read?` reads a text as a number: an optional sign, then either a
numeral or one of the words `inf`, `infinity` and `nan` in any case. In the
numeral, digits may be missing on one side of the point but not on both, and an
exponent needs a digit. Nothing may stand before or after the number.
-/

namespace Formula.Decimal

/-- The number that a run of digits denotes. -/
def ofDigits (digits : List Char) : Nat :=
  digits.foldl (fun n d => 10 * n + (d.toNat - '0'.toNat)) 0

/-- The double nearest to `m * 10 ^ e`. Powers far beyond the doubles are told
    apart first, as `m < 10 ^ (m.log2 + 1)`: they never have to be computed. -/
def nearest (m : Nat) (e : Int) : Float :=
  if m = 0 ∨ e + m.log2 < -400 then 0.0
  else if 400 < e then 1.0 / 0.0
  else match e with
    | .ofNat k => Float.ofScientific m false k
    | .negSucc k => Float.ofScientific m true (k + 1)

/-- A signed run of digits: the exponent of a numeral. -/
structure Exponent where
  /-- Whether the sign is a minus. -/
  negative : Bool
  /-- The digits, as written. -/
  digits : List Char

/-- The exponent as a number. -/
def Exponent.value (e : Exponent) : Int :=
  if e.negative then -(ofDigits e.digits : Int) else ofDigits e.digits

/-- The double that the digits `whole` before the point, the digits `fraction`
    behind it and an exponent denote. -/
def value (whole fraction : List Char) (exponent : Option Exponent) : Float :=
  nearest (ofDigits (whole ++ fraction)) ((exponent.elim 0 Exponent.value) - fraction.length)

/-- The digits at the front of `cs`, and the rest. -/
def takeDigits (cs : List Char) : List Char × List Char :=
  (cs.takeWhile Char.isDigit, cs.dropWhile Char.isDigit)

/-- The exponent behind the letter `e` that ends a numeral. -/
def readExponent? (cs : List Char) : Option Exponent :=
  let (negative, digits) := match cs with
    | '-' :: ds => (true, ds)
    | '+' :: ds => (false, ds)
    | ds => (false, ds)
  if digits.isEmpty || !digits.all Char.isDigit then none else some ⟨negative, digits⟩

/-- The numeral `cs`, without a sign. -/
def readNumeral? (cs : List Char) : Option Float :=
  let (whole, rest) := takeDigits cs
  let (fraction, rest) := match rest with
    | '.' :: rest => takeDigits rest
    | _ => ([], rest)
  if whole.isEmpty && fraction.isEmpty then none
  else match rest with
    | [] => some (value whole fraction none)
    | c :: rest =>
      if c = 'e' ∨ c = 'E' then (readExponent? rest).map fun e => value whole fraction (some e)
      else none

/-- The number `cs`, without a sign. -/
def readUnsigned? (cs : List Char) : Option Float :=
  let word := String.ofList (cs.map Char.toLower)
  if word = "inf" ∨ word = "infinity" then some (1.0 / 0.0)
  else if word = "nan" then some (0.0 / 0.0)
  else readNumeral? cs

/-- The number that `cs` spells, if it spells one. -/
def read? (cs : List Char) : Option Float :=
  match cs with
  | '-' :: cs => (readUnsigned? cs).map (-·)
  | '+' :: cs => readUnsigned? cs
  | cs => readUnsigned? cs

end Formula.Decimal
