import Boogie.Text.Cut
import Boogie.Text.Numeral

/-! Exact decimal numbers: a mantissa times a power of ten. The exponent is held by 32 bits. -/
namespace Boogie

structure Decimal where
  mantissa : Int
  exponent : Int
  deriving DecidableEq, Repr, Inhabited

namespace Decimal

def zero : Decimal := ⟨0, 0⟩

/-- The parts of a decimal: digits, the digits after the point, and what follows the `e`. -/
def parts (text : List Char) : List Char × List Char × Option (List Char) :=
  let (number, exponent) := match Text.cutFirst (fun c => c == 'e' || c == 'E') text with
    | some (number, exponent) => (number, some exponent)
    | none => (text, none)
  let (whole, fraction) := (Text.cutFirst (· == '.') number).getD (number, [])
  (whole, fraction, exponent)

/-- Reads `123e-4`, `12.5` or `12.5e3`. -/
def read (text : List Char) : Option Decimal := do
  let (whole, fraction, written) := parts text
  let shift ← match written with
    | some digits => Text.readInteger 32 digits
    | none => some 0
  let exponent := shift - fraction.length
  if Text.isDigits whole && fraction.all Text.isDigit && Text.fitsInteger 32 fraction.length &&
      Text.fitsInteger 32 exponent then
    some ⟨Text.decimalValue (whole ++ fraction), exponent⟩
  else none

def text (d : Decimal) : String :=
  let digits := toString d.mantissa
  let places := (-d.exponent).toNat
  if d.exponent < 0 ∧ d.mantissa ≠ 0 ∧ places < digits.length then
    let whole := digits.toList.take (digits.length - places)
    let fraction := digits.toList.drop (digits.length - places)
    String.ofList (whole ++ '.' :: fraction)
  else digits ++ "e" ++ toString d.exponent

end Decimal

end Boogie
