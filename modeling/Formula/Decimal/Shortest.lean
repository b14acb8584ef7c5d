/-!
# The shortest decimal

A finite double is written with the fewest digits that still read back as it;
of several such decimals the nearest is taken, and of two equally near ones the
larger.

A positive double is `m * 2 ^ q` for whole numbers `m` and `q`, and the reals
that round to it form an interval around it (`Binary.Rounding`). A decimal with
few digits is a point of a coarse grid of multiples of a power of ten, so the
grids are tried from coarse to fine: the first that has a point in the interval
gives the digits. All of it is exact arithmetic on whole numbers.
-/

namespace Formula.Decimal

/-- The positive number `mantissa * 2 ^ exponent`. -/
structure Binary where
  /-- The significant bits. -/
  mantissa : Nat
  /-- The place of the last of them. -/
  exponent : Int

/-- The least mantissa of 53 bits. -/
def Binary.leastFull : Nat := 0x10000000000000

/-- The magnitude of a finite double that is not zero, from its bits. -/
def Binary.ofBits (bits : UInt64) : Binary :=
  let fraction := (bits &&& 0xFFFFFFFFFFFFF).toNat
  let scale := ((bits >>> 52) &&& 0x7FF).toNat
  if scale = 0 then ⟨fraction, -1074⟩ else ⟨leastFull + fraction, (scale : Int) - 1075⟩

/-- The reals that round to a double. In quarters of the double's last place, all
    of `low`, `centre` and `high` are whole numbers; the ends belong to the
    interval if the mantissa is even. -/
structure Binary.Rounding where
  /-- The lower end. -/
  low : Nat
  /-- The double itself. -/
  centre : Nat
  /-- The upper end. -/
  high : Nat
  /-- Whether the ends round to the double, too. -/
  closed : Bool

/-- The interval of a double. Below a power of two the doubles lie twice as
    close, unless the power is the least one with a full mantissa. -/
def Binary.rounding (b : Binary) : Rounding where
  low := if b.mantissa = leastFull ∧ b.exponent ≠ -1074 then 4 * b.mantissa - 1
    else 4 * b.mantissa - 2
  centre := 4 * b.mantissa
  high := 4 * b.mantissa + 2
  closed := b.mantissa % 2 = 0

/-- The point of the grid of multiples of `10 ^ k` that is in the interval of `b`
    and nearest to `b`, the upper one of two equally near ones; it is given as a
    multiple of `10 ^ k`. -/
def Binary.gridPoint? (b : Binary) (k : Int) : Option Nat :=
  -- Both the quarters of the last place and the grid become whole numbers when
  -- multiplied by the same powers of two and ten.
  let unit := Nat.pow 2 (b.exponent - 2).toNat * Nat.pow 10 (-k).toNat
  let step := Nat.pow 2 (2 - b.exponent).toNat * Nat.pow 10 k.toNat
  let r := b.rounding
  let centre := r.centre * unit
  let inside (n : Nat) : Bool :=
    let x := n * step
    if r.closed then r.low * unit ≤ x && x ≤ r.high * unit
    else r.low * unit < x && x < r.high * unit
  let below := centre / step
  let above := below + 1
  match inside below, inside above with
  | true, true =>
    some (if above * step - centre ≤ centre - below * step then above else below)
  | true, false => some below
  | false, true => some above
  | false, false => none

/-- The digits `n` and the place `k` of the shortest decimal `n * 10 ^ k` of `b`.
    The first grid tried is too coarse for any but a power of ten; one with
    seventeen digits always has a point in the interval. -/
def Binary.shortest (b : Binary) : Nat × Int :=
  let bits : Int := b.mantissa.log2 + 1 + b.exponent
  let top := bits * 30103 / 100000 + 1
  ((List.range 22).findSome? fun (i : Nat) =>
    let k := top - i
    (b.gridPoint? k).map fun n => (n, k)).getD (0, 0)

/-- The decimal `n * 10 ^ k` written out, without an exponent. -/
def positional (n : Nat) (k : Int) : String :=
  let digits := Nat.toDigits 10 n
  match k with
  | .ofNat k => String.ofList (digits ++ List.replicate k '0')
  | .negSucc k =>
    let places := k + 1
    let padded := List.replicate (places + 1 - digits.length) '0' ++ digits
    let whole := padded.length - places
    String.ofList (padded.take whole ++ '.' :: padded.drop whole)

/-- A double as text: the shortest decimal, never with an exponent and without a
    fraction that is zero; `-` before negative numbers and the negative zero; the
    words `inf` and `NaN`. -/
def text (x : Float) : String :=
  let bits := x.toBits
  let sign := if bits >>> 63 = 1 then "-" else ""
  let magnitude := bits &&& 0x7FFFFFFFFFFFFFFF
  if magnitude = 0 then sign ++ "0"
  else if magnitude = 0x7FF0000000000000 then sign ++ "inf"
  else if 0x7FF0000000000000 < magnitude then "NaN"
  else
    let (n, k) := (Binary.ofBits bits).shortest
    sign ++ positional n k

end Formula.Decimal
