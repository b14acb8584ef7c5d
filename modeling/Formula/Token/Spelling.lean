import Formula.Decimal.Numeral

/-!
# The spelling of numbers

In a formula a number is a run of digits, then perhaps a fraction (a point or
the separator in use, and digits) and an exponent (`e` or `E`, perhaps a sign,
and digits); or a point and digits, then perhaps an exponent. A fraction or an
exponent without digits does not belong to the number.

`Spelling.scan` takes the longest spelling off the front of a text and loses
nothing of it (`written_append_scan`). `Spelling.text` is the spelling in the
one form that does not depend on the separator.
-/

namespace Formula

open Decimal (takeDigits)

/-- A number, spelled. -/
structure Spelling where
  /-- The digits before the fraction. -/
  whole : List Char
  /-- The separator and the digits of the fraction. -/
  fraction : Option (Char × List Char)
  /-- The letter, the sign and the digits of the exponent. -/
  exponent : Option (Char × Option Char × List Char)

namespace Spelling

/-- The spelling, character by character. -/
def written (s : Spelling) : List Char :=
  s.whole ++ (s.fraction.elim [] fun (mark, digits) => mark :: digits) ++
    s.exponent.elim [] fun (letter, sign, digits) => letter :: (sign.toList ++ digits)

/-- The spelling with a point as separator and `e` as letter, without a plus. -/
def text (s : Spelling) : List Char :=
  s.whole ++ (s.fraction.elim [] fun (_, digits) => '.' :: digits) ++
    s.exponent.elim [] fun (_, sign, digits) =>
      'e' :: ((if sign = some '-' then ['-'] else []) ++ digits)

/-- The number that is spelled. -/
def value (s : Spelling) : Float :=
  Decimal.value s.whole (s.fraction.elim [] Prod.snd)
    (s.exponent.map fun (_, sign, digits) => ⟨sign = some '-', digits⟩)

/-- The fraction at the front of `cs`, and the rest. -/
def scanFraction (separator : Char) (cs : List Char) : Option (Char × List Char) × List Char :=
  match cs with
  | mark :: d :: rest =>
    if (mark = '.' ∨ mark = separator) ∧ d.isDigit then
      let (digits, rest) := takeDigits (d :: rest)
      (some (mark, digits), rest)
    else (none, cs)
  | _ => (none, cs)

/-- The sign at the front of `cs`, and the rest. -/
def scanSign (cs : List Char) : Option Char × List Char :=
  match cs with
  | c :: rest => if c = '+' ∨ c = '-' then (some c, rest) else (none, cs)
  | [] => (none, [])

/-- The exponent at the front of `cs`, and the rest. -/
def scanExponent (cs : List Char) : Option (Char × Option Char × List Char) × List Char :=
  match cs with
  | letter :: rest =>
    if letter = 'e' ∨ letter = 'E' then
      let (sign, rest) := scanSign rest
      let (digits, rest) := takeDigits rest
      if digits.isEmpty then (none, cs) else (some (letter, sign, digits), rest)
    else (none, cs)
  | [] => (none, [])

/-- Whether a number starts at the front of `cs`. -/
def startsAt (cs : List Char) : Bool :=
  match cs with
  | c :: d :: _ => c.isDigit || (c == '.' && d.isDigit)
  | [c] => c.isDigit
  | [] => false

/-- The spelling at the front of `cs`, where a number starts, and the rest. -/
def scan (separator : Char) (cs : List Char) : Spelling × List Char :=
  let (whole, rest) := takeDigits cs
  -- A spelling without digits before the point has a point, not the separator.
  let (fraction, rest) := scanFraction (if whole.isEmpty then '.' else separator) rest
  let (exponent, rest) := scanExponent rest
  (⟨whole, fraction, exponent⟩, rest)

/-! ## Nothing is lost -/

theorem takeDigits_append (cs : List Char) : (takeDigits cs).1 ++ (takeDigits cs).2 = cs :=
  List.takeWhile_append_dropWhile

/-- What is read as a fraction, if anything, and what is left are all there was. -/
theorem scanFraction_append (separator : Char) (cs : List Char) :
    ((scanFraction separator cs).1.elim [] fun (mark, digits) => mark :: digits) ++
      (scanFraction separator cs).2 = cs := by
  unfold scanFraction
  split
  · split
    · simp [takeDigits_append]
    · rfl
  · rfl

theorem scanSign_append (cs : List Char) :
    (scanSign cs).1.toList ++ (scanSign cs).2 = cs := by
  unfold scanSign
  split
  · split <;> rfl
  · rfl

/-- What is read as an exponent, if anything, and what is left are all there was: a letter
    without digits is left where it stands. -/
theorem scanExponent_append (cs : List Char) :
    ((scanExponent cs).1.elim [] fun (letter, sign, digits) => letter :: (sign.toList ++ digits)) ++
      (scanExponent cs).2 = cs := by
  unfold scanExponent
  split
  · rename_i letter rest
    have h : (scanSign rest).1.toList ++ ((takeDigits (scanSign rest).2).1 ++
        (takeDigits (scanSign rest).2).2) = rest := by
      rw [takeDigits_append, scanSign_append]
    split
    · dsimp only
      split
      · rfl
      · simp [h]
    · rfl
  · rfl

/-- A spelling is written as it was read. -/
theorem written_append_scan (separator : Char) (cs : List Char) :
    (scan separator cs).1.written ++ (scan separator cs).2 = cs := by
  simp only [scan, written, List.append_assoc, scanExponent_append, scanFraction_append,
    takeDigits_append]

/-- A number that is started has characters. -/
theorem written_ne_nil (separator : Char) {cs : List Char} (h : startsAt cs) :
    (scan separator cs).1.written ≠ [] := by
  unfold startsAt at h
  split at h
  · rename_i c d rest
    by_cases hc : c.isDigit
    · simp [scan, written, takeDigits, hc]
    · obtain ⟨rfl, hd⟩ : c = '.' ∧ d.isDigit := by simpa [hc] using h
      simp [scan, written, takeDigits, scanFraction, hd]
  · simp [scan, written, takeDigits, h]
  · simp at h

end Spelling

end Formula
