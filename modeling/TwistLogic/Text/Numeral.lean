import TwistLogic.Text.Basic

/-!
# Decimal numerals

`Text.decimal` writes a natural number in base ten.  `Text.readSigned` reads a numeral at the front
of a text: white space, an optional sign and at least one digit; what follows the digits is left
unread.  The two readers built on it differ in the numbers that they admit: `Text.readWord64`
takes the whole text, admits magnitudes below `2 ^ 64` and lets a negative numeral count down
from `2 ^ 64`; `Text.readInt32` ignores trailing text and admits signed 32-bit numbers.
-/

namespace TwistLogic.Text

/-- The decimal numeral of a natural number. -/
def decimal (n : Nat) : Text := (Nat.toDigits 10 n).map byte

/-- The decimal numeral of an integer. -/
def signedDecimal (n : Int) : Text :=
  if n < 0 then byte '-' :: decimal n.natAbs else decimal n.natAbs

/-- The number shown by a sequence of digits, the most significant first. -/
def ofDigits (ds : Text) : Nat := ds.foldl (fun n d => 10 * n + (d - byte '0').toNat) 0

/-- A numeral found at the front of a text. -/
structure SignedNumeral where
  /-- Whether a minus sign stands before the digits. -/
  negative : Bool
  /-- The number shown by the digits. -/
  magnitude : Nat
  /-- The text behind the digits. -/
  rest : Text

/-- Removes a sign from the front of a text and says whether it was a minus. -/
def splitSign : Text → Bool × Text
  | [] => (false, [])
  | c :: cs =>
    if c = byte '-' then (true, cs)
    else if c = byte '+' then (false, cs)
    else (false, c :: cs)

/-- Reads white space, an optional sign and at least one digit. -/
def readSigned (s : Text) : Option SignedNumeral :=
  let (negative, body) := splitSign (s.dropWhile isSpace)
  let digits := body.takeWhile isDigit
  if digits.isEmpty then none
  else some { negative, magnitude := ofDigits digits, rest := body.dropWhile isDigit }

/-- Reads a text that is one numeral as a 64-bit word: the magnitude has to fit, and `-k` stands
for `2 ^ 64 - k`. -/
def readWord64 (s : Text) : Option Nat := do
  let n ← readSigned s
  if n.rest.isEmpty && n.magnitude < UInt64.size then
    some (if n.negative then (UInt64.size - n.magnitude) % UInt64.size else n.magnitude)
  else none

/-- Reads the numeral at the front of a text as a signed 32-bit number. -/
def readInt32 (s : Text) : Option Int := do
  let n ← readSigned s
  let value : Int := if n.negative then -n.magnitude else n.magnitude
  if -2147483648 ≤ value ∧ value < 2147483648 then some value else none

end TwistLogic.Text
