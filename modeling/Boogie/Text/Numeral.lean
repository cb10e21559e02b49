/-! Numbers as they are written. Digits are the ASCII ones. -/
namespace Boogie.Text

def isDigit (c : Char) : Bool := '0' ≤ c && c ≤ '9'

def isHexDigit (c : Char) : Bool :=
  isDigit c || ('a' ≤ c && c ≤ 'f') || ('A' ≤ c && c ≤ 'F')

def isLetter (c : Char) : Bool := ('a' ≤ c && c ≤ 'z') || ('A' ≤ c && c ≤ 'Z')

def isDigits (text : List Char) : Bool := !text.isEmpty && text.all isDigit

def digitValue (c : Char) : Option Nat :=
  if isDigit c then some (c.toNat - '0'.toNat)
  else if 'a' ≤ c && c ≤ 'z' then some (c.toNat - 'a'.toNat + 10)
  else if 'A' ≤ c && c ≤ 'Z' then some (c.toNat - 'A'.toNat + 10)
  else none

def decimalValue (digits : List Char) : Nat :=
  digits.foldl (fun n c => 10 * n + (c.toNat - '0'.toNat)) 0

theorem decimalValueNil : decimalValue [] = 0 := rfl

theorem decimalValueSnoc (digits : List Char) (c : Char) :
    decimalValue (digits ++ [c]) = 10 * decimalValue digits + (c.toNat - '0'.toNat) := by
  simp [decimalValue]

def readNat (text : List Char) : Option Nat :=
  if isDigits text then some (decimalValue text) else none

def readUnsigned (text : List Char) : Option Nat :=
  match text with
  | '+' :: rest => readNat rest
  | _ => readNat text

def readSigned (text : List Char) : Option Int :=
  match text with
  | '-' :: rest => (readNat rest).map fun n => -(n : Int)
  | _ => (readUnsigned text).map Int.ofNat

def wordCount (bits : Nat) : Nat := Nat.pow 2 bits

theorem wordCount32 : wordCount 32 = 4294967296 := rfl

def readWord (bits : Nat) (text : List Char) : Option Nat :=
  (readUnsigned text).filter fun n => n < wordCount bits

def fitsInteger (bits : Nat) (n : Int) : Bool :=
  -(wordCount (bits - 1) : Int) ≤ n && n < (wordCount (bits - 1) : Int)

def readInteger (bits : Nat) (text : List Char) : Option Int :=
  (readSigned text).filter (fitsInteger bits)

def addDigit (base : Nat) (value : Option Nat) (c : Char) : Option Nat :=
  if c = '_' then value
  else do
    let n ← value
    let d ← digitValue c
    if d < base then some (base * n + d) else none

def readGrouped (base : Nat) (text : List Char) : Option Nat :=
  match text with
  | [] => none
  | '_' :: _ => none
  | _ => text.foldl (addDigit base) (some 0)

def readBased (base : Nat) (text : List Char) : Option Int :=
  match text with
  | '-' :: rest => (readGrouped base rest).map fun n => -(n : Int)
  | '+' :: rest => (readGrouped base rest).map Int.ofNat
  | _ => (readGrouped base text).map Int.ofNat

def basedDigits (base : Nat) (n : Int) : List Char :=
  if n < 0 then '-' :: Nat.toDigits base n.natAbs else Nat.toDigits base n.natAbs

end Boogie.Text
