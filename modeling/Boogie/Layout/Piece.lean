/-! Printed text as a row of pieces, and what becomes of the pieces: a string, or calls that write it. -/
namespace Boogie.Layout

inductive Piece where
  | text (s : String)
  | newline
  | indent (columns : Nat)
  | space
  deriving DecidableEq, Repr

def Piece.string : Piece → String
  | .text s => s
  | .newline => "\n"
  | .indent columns => "".pushn ' ' columns
  | .space => " "

def append (text : String) (pieces : List Piece) : String :=
  pieces.foldl (fun text p => text ++ p.string) text

def fragment (pieces : List Piece) : String := append "" pieces

def endLine (text : String) : String :=
  if text.isEmpty then text
  else String.ofList ((text.toList.reverse.dropWhile (· == '\n')).reverse ++ ['\n'])

def document (pieces : List Piece) : String := endLine (fragment pieces)

def Piece.writes : Piece → List String
  | .text s => [s]
  | .newline => ["\n"]
  | .indent columns => List.replicate columns " "
  | .space => [" "]

def commaList (items : List (List Piece)) : List Piece := List.intercalate [.text ", "] items

def wrapped (pieces : List Piece) : List Piece := .text "(" :: pieces ++ [.text ")"]

def wrappedIf (condition : Bool) (pieces : List Piece) : List Piece :=
  if condition then wrapped pieces else pieces

end Boogie.Layout
