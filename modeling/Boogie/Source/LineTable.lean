import Boogie.Source.Span
import Boogie.Text.Cut

/-! Where the lines of a text begin, for finding the line and column of a byte offset. The table keeps
one row per line; a text has one line more than it has newlines. -/
namespace Boogie

def byteLength (text : List Char) : Nat := text.foldl (fun n c => n + c.utf8Size) 0

def splitLines (text : List Char) : List (List Char) := Text.split '\n' text

theorem splitLinesLength (text : List Char) : (splitLines text).length = text.count '\n' + 1 :=
  Text.splitLength '\n' text

structure Line where
  start : Nat
  text : List Char
  deriving DecidableEq, Repr, Inhabited

structure LineTable where
  rows : Array Line
  deriving DecidableEq, Repr

namespace LineTable

def addLines (rows : Array Line) (offset : Nat) : List Char → Array Line
  | [] => rows
  | c :: rest =>
    let next := offset + c.utf8Size
    addLines (if c = '\n' then rows.push ⟨min next Span.maxOffset, rest⟩ else rows) next rest

def ofText (text : List Char) : LineTable := ⟨addLines #[⟨0, text⟩] 0 text⟩

def lineCount (t : LineTable) : Nat := t.rows.size

/-- Halves the range `low … high` of rows, which holds the last row that starts at or before
`offset`. -/
def search (t : LineTable) (offset low high : Nat) : Nat :=
  if low + 1 < high then
    let middle := (low + high) / 2
    match t.rows[middle]? with
    | some row => if row.start ≤ offset then search t offset middle high else search t offset low middle
    | none => search t offset low middle
  else low
termination_by high - low

def rowIndex (t : LineTable) (offset : Nat) : Nat := t.search offset 0 t.lineCount

def lineAt (t : LineTable) (offset : Nat) : Nat := Position.number (t.rowIndex offset)

/-- How many characters make up the first `bytes` bytes of a text, all of them when the text is
shorter. A cut inside a character has no count. -/
def charsBefore (bytes : Nat) (text : List Char) (count : Nat) : Option Nat :=
  match bytes, text with
  | 0, _ => some count
  | _, [] => some count
  | bytes, c :: rest =>
    if c.utf8Size ≤ bytes then charsBefore (bytes - c.utf8Size) rest (count + 1) else none

def row (t : LineTable) (line : Nat) : Line :=
  t.rows[(line + Position.maxNumber) % (Position.maxNumber + 1)]?.getD default

/-- The line and column of a byte offset. An offset inside a character is given the first column. -/
def position (t : LineTable) (offset : Nat) : Position :=
  let line := t.lineAt offset
  let row := t.row line
  ⟨line, Position.number ((charsBefore (offset - row.start) row.text 0).getD 0)⟩

end LineTable

end Boogie
