import Boogie.Layout.Expr
import Boogie.Tree.Stmt

/-! Statements as they are printed: a label, a command or a transfer to a line, and nested lists one level
deeper. -/
namespace Boogie.Layout

def indentWidth : Nat := 2

def lineStart (depth : Nat) : Piece := .indent (depth * indentWidth)

def line (depth : Nat) (pieces : List Piece) : List Piece := lineStart depth :: pieces ++ [.newline]

def cmdLines (depth : Nat) (cs : List Cmd) : List Piece := cs.flatMap fun c => line depth (cmd c)

def openedLine (depth : Nat) (pieces : List Piece) : List Piece := .newline :: lineStart depth :: pieces

def clause (keyword : String) (c : Clause) : List Piece :=
  .text ((if c.free then "free " else "") ++ keyword ++ " ") :: attributes c.attributes ++
    expr c.condition ++ [.text ";"]

def clauseLines (depth : Nat) (keyword : String) (cs : List Clause) : List Piece :=
  cs.flatMap fun c => openedLine depth (clause keyword c)

def guard : Option Expr → List Piece
  | some e => wrapped (expr e)
  | none => [.text "(*)"]

def labelLine (depth : Nat) : Option String → List Piece
  | some label => line depth (name label ++ [.text ":"])
  | none => []

def breakLabel : Option String → List Piece
  | some label => .space :: name label
  | none => []

def invariantLines (depth : Nat) (invariants : List Clause) : List Piece :=
  if invariants.isEmpty then [.space]
  else clauseLines (depth + 1) "invariant" invariants ++ [.newline, lineStart depth]

mutual

def stmts (depth : Nat) : StmtList → List Piece
  | ⟨bs, _⟩ => bigBlocks depth bs

def nested (depth : Nat) : StmtList → List Piece
  | ⟨bs, _⟩ =>
    .text "\x7b" :: .newline :: bigBlocks (depth + 1) bs ++ [lineStart depth, .text "\x7d"]

def bigBlocks (depth : Nat) : List BigBlock → List Piece
  | [] => []
  | b :: rest => bigBlock depth b ++ bigBlocks depth rest

def bigBlock (depth : Nat) : BigBlock → List Piece
  | ⟨_, label, cs, t⟩ => labelLine depth label ++ cmdLines depth cs ++ optionalTail depth t

def optionalTail (depth : Nat) : Option Tail → List Piece
  | none => []
  | some t => line depth (tail depth t)

def tail (depth : Nat) : Tail → List Piece
  | .branch c => ifCmd depth c
  | .loop c => whileCmd depth c
  | .break _ label => .text "break" :: breakLabel label ++ [.text ";"]
  | .transfer t => transfer t

def ifCmd (depth : Nat) : IfCmd → List Piece
  | ⟨condition, thenBranch, elseBranch, _⟩ =>
    .text "if " :: guard condition ++ .space :: nested depth thenBranch ++ optionalElse depth elseBranch

def optionalElse (depth : Nat) : Option ElseBranch → List Piece
  | none => []
  | some b => .text " else " :: elseBranch depth b

def elseBranch (depth : Nat) : ElseBranch → List Piece
  | .elseIf c => ifCmd depth c
  | .block body => nested depth body

def whileCmd (depth : Nat) : WhileCmd → List Piece
  | ⟨condition, invariants, body, _⟩ =>
    .text "while " :: guard condition ++ invariantLines depth invariants ++ nested depth body

end

def body (depth : Nat) (locals : List Variable) (statements : StmtList) : List Piece :=
  .text "\x7b" :: .newline :: (locals.flatMap fun v => line (depth + 1) (variableDecl v)) ++
    stmts (depth + 1) statements ++ [lineStart depth, .text "\x7d"]

end Boogie.Layout
