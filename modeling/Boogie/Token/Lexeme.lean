import Boogie.Text.Numeral
import Boogie.Token.Kind

/-! Lexemes: what the characters at the head of a text form, and how many of them there are. Of all the
forms that fit, the longest is taken; a word is a reserved word rather than a name. -/
namespace Boogie.Token

inductive Role where
  | layout
  | token (kind : Kind)
  deriving DecidableEq, Repr

structure Lexeme where
  role : Role
  length : Nat
  deriving DecidableEq, Repr

def isSpace (c : Char) : Bool := c == ' ' || c == '\t' || c == '\r' || c == '\n' || c == '\x0c'

def nameMarks : List Char := ['\'', '~', '#', '$', '^', '_', '.', '?', '\x60']

def isNameStart (c : Char) : Bool := Text.isLetter c || nameMarks.contains c

def isNamePart (c : Char) : Bool := isNameStart c || Text.isDigit c

def run (p : Char → Bool) (text : List Char) : Nat := (text.takeWhile p).length

/-- The length of a comment from within, where `depth` more comments are open than the innermost.
Each opening and each closing mark is one unit. -/
def commentLength (depth count : Nat) : List Char → Option Nat
  | '/' :: '*' :: rest => commentLength (depth + 1) (count + 2) rest
  | '*' :: '/' :: rest =>
    match depth with
    | 0 => some (count + 2)
    | depth + 1 => commentLength depth (count + 2) rest
  | _ :: rest => commentLength depth (count + 1) rest
  | [] => none

/-- The length of a string from within and whether it is closed. A backslash keeps the character after
it; a string ends before a line break. -/
def stringLength (count : Nat) : List Char → Nat × Bool
  | '"' :: _ => (count + 1, true)
  | '\\' :: c :: rest => if c = '\n' then (count, false) else stringLength (count + 2) rest
  | ['\\'] => (count, false)
  | c :: rest => if c = '\n' then (count, false) else stringLength (count + 1) rest
  | [] => (count, false)

/-- The length of what follows the point of a hexadecimal float: letters, digits, and a minus sign
directly after an `e`. -/
def hexTailLength (last : Char) (count : Nat) : List Char → Nat
  | c :: rest =>
    if Text.isLetter c || Text.isDigit c || (c == '-' && last == 'e') then
      hexTailLength c (count + 1) rest
    else count
  | [] => count

def exponentLength : List Char → Option Nat
  | 'e' :: '-' :: rest => let n := run Text.isDigit rest; if n = 0 then none else some (n + 2)
  | 'e' :: rest => let n := run Text.isDigit rest; if n = 0 then none else some (n + 1)
  | _ => none

def widthLength : List Char → Option Nat
  | 'b' :: 'v' :: rest => let n := run Text.isDigit rest; if n = 0 then none else some (n + 2)
  | _ => none

def fractionLength : List Char → Option Nat
  | '.' :: rest => let n := run Text.isDigit rest; if n = 0 then none else some (n + 1)
  | _ => none

def plainNumber (text : List Char) : Lexeme :=
  let digits := run Text.isDigit text
  let rest := text.drop digits
  match widthLength rest, fractionLength rest, exponentLength rest with
  | some n, _, _ => ⟨.token .bitVector, digits + n⟩
  | _, some n, _ => ⟨.token .fraction, digits + n + (exponentLength (rest.drop n)).getD 0⟩
  | _, _, some n => ⟨.token .decimal, digits + n⟩
  | _, _, _ => ⟨.token .digits, digits⟩

def hexFloat (text : List Char) : Option Lexeme :=
  let digits := run Text.isHexDigit text
  if digits = 0 then none
  else match text.drop digits with
    | '.' :: rest => some ⟨.token .float, digits + 3 + hexTailLength '.' 0 rest⟩
    | _ => some ⟨.token .invalid, digits + 2⟩

/-- After `0NaN`, `0nan`, `0+oo` or `0-oo`: once digits have been read the rest of the sizes is
required. -/
def specialFloat (text : List Char) : Option Lexeme :=
  let digits := run Text.isDigit text
  if digits = 0 then none
  else match text.drop digits with
    | 'e' :: rest =>
      let more := run Text.isDigit rest
      if more = 0 then some ⟨.token .invalid, digits + 4⟩
      else some ⟨.token .float, digits + more + 5⟩
    | _ => some ⟨.token .invalid, digits + 4⟩

def floatNumber : List Char → Option Lexeme
  | '0' :: 'x' :: rest => hexFloat rest
  | '0' :: 'N' :: 'a' :: 'N' :: rest => specialFloat rest
  | '0' :: 'n' :: 'a' :: 'n' :: rest => specialFloat rest
  | '0' :: '+' :: 'o' :: 'o' :: rest => specialFloat rest
  | '0' :: '-' :: 'o' :: 'o' :: rest => specialFloat rest
  | _ => none

def number (text : List Char) : Lexeme := (floatNumber text).getD (plainNumber text)

def spelled (table : List (String × Kind)) : List (List Char × Kind) :=
  table.map fun (spelling, kind) => (spelling.toList, kind)

def wordTable : List (List Char × Kind) := spelled reservedWords

def symbolTable : List (List Char × Kind) := spelled symbols

def wordKind (word : List Char) : Kind := (wordTable.lookup word).getD .identifier

def symbol (text : List Char) : Lexeme :=
  match symbolTable.find? fun (spelling, _) => spelling.isPrefixOf text with
  | some (spelling, kind) => ⟨.token kind, spelling.length⟩
  | none => ⟨.token .invalid, 1⟩

def lexeme (c : Char) (rest : List Char) : Lexeme :=
  if isSpace c then ⟨.layout, 1⟩
  else if Text.isDigit c then number (c :: rest)
  else if isNameStart c then
    let n := run isNamePart rest
    ⟨.token (wordKind (c :: rest.take n)), n + 1⟩
  else match c, rest with
    | '/', '/' :: more => ⟨.layout, run (· != '\n') more + 2⟩
    | '/', '*' :: more =>
      match commentLength 0 2 more with
      | some n => ⟨.layout, n⟩
      | none => ⟨.token .invalid, more.length + 2⟩
    | '"', more =>
      let (n, closed) := stringLength 1 more
      ⟨.token (if closed then .string else .invalid), n⟩
    | '\\', d :: more =>
      if isNameStart d then ⟨.token .identifier, run isNamePart more + 2⟩
      else ⟨.token .invalid, 1⟩
    | _, _ => symbol (c :: rest)

end Boogie.Token
