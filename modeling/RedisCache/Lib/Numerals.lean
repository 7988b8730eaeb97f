import Mathlib
import RedisCache.Lib.Decimal

/-!
# Numerals as the C library reads them

`std::stoi` and `std::stoull`: unlike `fromChars` they skip leading space, take
a plus sign, and ignore whatever follows the digits.
-/

namespace Decimal

/-- `isspace` in the C locale. -/
def isSpace (b : UInt8) : Bool := b == 32 || (decide (9 ≤ b.toNat) && decide (b.toNat ≤ 13))

/-- The sign of a numeral and what follows it. -/
def sign : List UInt8 → Int × List UInt8
  | 45 :: s => (-1, s)
  | 43 :: s => (1, s)
  | s => (1, s)

/-- The number at the front, of any size. -/
def scan (s : List UInt8) : Option Int :=
  let (sgn, body) := sign (s.dropWhile isSpace)
  if body.takeWhile isDigit = [] then none else some (sgn * value (body.takeWhile isDigit))

/-- `std::stoi(s)`, or the exception it throws. -/
def stoi (s : List UInt8) : Except Errc Int :=
  match scan s with
  | none => .error .invalidArgument
  | some v => if -2 ^ 31 ≤ v ∧ v < 2 ^ 31 then .ok v else .error .resultOutOfRange

/-- `std::stoull(s)`: a minus sign negates modulo `2^64`. -/
def stoull (s : List UInt8) : Except Errc Nat :=
  match scan s with
  | none => .error .invalidArgument
  | some v => if v.natAbs < 2 ^ 64 then .ok (v % 2 ^ 64).toNat else .error .resultOutOfRange

end Decimal
