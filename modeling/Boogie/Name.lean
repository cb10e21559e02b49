import Boogie.Text.Numeral

/-! Names and how they are written. A backslash in front of a name keeps it from being read as a reserved
word or as a bitvector type. -/
namespace Boogie.Name

def reserved : List String :=
  ["RNA", "RNE", "RTN", "RTP", "RTZ", "assert", "assume", "async", "axiom", "bool", "break", "call",
   "complete", "const", "div", "else", "ensures", "exists", "extends", "false", "forall", "free",
   "function", "goto", "havoc", "if", "implementation", "int", "invariant", "lambda", "mod", "modifies",
   "old", "par", "procedure", "real", "requires", "return", "returns", "roundNearestTiesToAway",
   "roundNearestTiesToEven", "roundTowardNegative", "roundTowardPositive", "roundTowardZero", "then",
   "true", "type", "unique", "var", "where", "while", "yield"]

def isReserved (name : String) : Bool := reserved.contains name

def bitVectorDigits (name : String) : Option (List Char) :=
  match name.toList with
  | 'b' :: 'v' :: digits => if Text.isDigits digits then some digits else none
  | _ => none

def bitVectorWidth (name : String) : Option Nat := do
  Text.readWord 32 (← bitVectorDigits name)

def unescape (written : String) : String :=
  match written.toList with
  | '\\' :: name => String.ofList name
  | _ => written

def escape (name : String) : String :=
  if isReserved name || (bitVectorDigits name).isSome then "\\" ++ name else name

end Boogie.Name
