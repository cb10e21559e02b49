import Boogie.Text.Cut
import Boogie.Text.Numeral

/-! Floating-point literals. The digits are hexadecimal, the exponent and the sizes of significand and
exponent are decimal. -/
namespace Boogie

inductive FloatValue where
  /-- The last `fractionDigits` digits of the significand stand after the point. -/
  | finite (significand : Int) (fractionDigits : Nat) (exponent : Int)
  | notANumber
  | positiveInfinity
  | negativeInfinity
  deriving DecidableEq, Repr

structure FloatLiteral where
  value : FloatValue
  significandSize : Nat
  exponentSize : Nat
  deriving DecidableEq, Repr

namespace FloatLiteral

def zero (significandSize exponentSize : Nat) : FloatLiteral :=
  ⟨.finite 0 1 0, significandSize, exponentSize⟩

/-- After `0x`: `1.8e3f24e8`. The letters `e` and `f` are digits as well, so the decimal fields are cut
off from the right. -/
def readFinite (text : List Char) : Option FloatLiteral := do
  let (rest, exponentSize) ← Text.cutLast (· == 'e') text
  let (rest, significandSize) ← Text.cutLast (· == 'f') rest
  let (digits, exponent) ← Text.cutLast (· == 'e') rest
  let (whole, fraction) ← Text.cutFirst (· == '.') digits
  if whole.isEmpty || fraction.isEmpty then none
  else
    let significand ← Text.readBased 16 (whole ++ fraction)
    let exponent ← Text.readInteger 64 exponent
    let significandSize ← Text.readWord 32 significandSize
    let exponentSize ← Text.readWord 32 exponentSize
    if fraction.length < Text.wordCount 32 then
      some ⟨.finite significand fraction.length exponent, significandSize, exponentSize⟩
    else none

/-- The sizes after a special value: `24e8`. -/
def readSpecial (value : FloatValue) (text : List Char) : Option FloatLiteral := do
  let (significandSize, exponentSize) ← Text.cutFirst (· == 'e') text
  some ⟨value, ← Text.readWord 32 significandSize, ← Text.readWord 32 exponentSize⟩

/-- Reads `0x1.8e3f24e8`, `0NaN24e8`, `0+oo53e11` or `0-oo53e11`. -/
def read : List Char → Option FloatLiteral
  | '0' :: 'x' :: rest => readFinite rest
  | '0' :: 'N' :: 'a' :: 'N' :: rest => readSpecial .notANumber rest
  | '0' :: 'n' :: 'a' :: 'n' :: rest => readSpecial .notANumber rest
  | '0' :: '+' :: 'o' :: 'o' :: rest => readSpecial .positiveInfinity rest
  | '0' :: '-' :: 'o' :: 'o' :: rest => readSpecial .negativeInfinity rest
  | _ => none

def sizes (f : FloatLiteral) : String := toString f.significandSize ++ "e" ++ toString f.exponentSize

/-- The digits of a significand around the point, with zeros in front so that one digit precedes it. -/
def pointed (significand : Int) (fractionDigits : Nat) : List Char :=
  let digits := Text.basedDigits 16 significand
  let padded := List.replicate (fractionDigits + 1 - digits.length) '0' ++ digits
  let whole := padded.length - fractionDigits
  padded.take whole ++ '.' :: padded.drop whole

def text (f : FloatLiteral) : String :=
  match f.value with
  | .finite significand fractionDigits exponent =>
    "0x" ++ String.ofList (pointed significand fractionDigits) ++ "e" ++ toString exponent ++ "f" ++
      f.sizes
  | .notANumber => "0NaN" ++ f.sizes
  | .positiveInfinity => "0+oo" ++ f.sizes
  | .negativeInfinity => "0-oo" ++ f.sizes

end FloatLiteral

end Boogie
