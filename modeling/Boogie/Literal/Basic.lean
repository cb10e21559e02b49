import Boogie.Literal.Decimal
import Boogie.Literal.Float

/-! Literal constants. Numbers are exact and of any size. -/
namespace Boogie

inductive RoundingMode where
  | nearestEven
  | nearestAway
  | towardPositive
  | towardNegative
  | towardZero
  deriving DecidableEq, Repr

def RoundingMode.text : RoundingMode → String
  | .nearestEven => "roundNearestTiesToEven"
  | .nearestAway => "roundNearestTiesToAway"
  | .towardPositive => "roundTowardPositive"
  | .towardNegative => "roundTowardNegative"
  | .towardZero => "roundTowardZero"

inductive Literal where
  | bool (value : Bool)
  | int (value : Int)
  | real (value : Decimal)
  | float (value : FloatLiteral)
  | bitVector (value : Int) (width : Nat)
  | string (content : String)
  | rounding (mode : RoundingMode)
  deriving DecidableEq, Repr

namespace Literal

/-- Reads `5bv8` as a value and a width. -/
def readBitVector (text : List Char) : Option (Nat × Nat) :=
  let value := text.takeWhile Text.isDigit
  match text.dropWhile Text.isDigit with
  | 'b' :: 'v' :: width =>
    if Text.isDigits value && Text.isDigits width then
      (Text.readWord 32 width).map fun w => (Text.decimalValue value, w)
    else none
  | _ => none

def stringContent (written : String) : String :=
  let chars := written.toList
  let chars := if chars.head? = some '"' then chars.tail else chars
  String.ofList (if chars.getLast? = some '"' then chars.dropLast else chars)

def text : Literal → String
  | .bool true => "true"
  | .bool false => "false"
  | .int value => toString value
  | .real value => value.text
  | .float value => value.text
  | .bitVector value width => toString value ++ "bv" ++ toString width
  | .string content => "\"" ++ content ++ "\""
  | .rounding mode => mode.text

end Literal

end Boogie
