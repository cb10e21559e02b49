import Boogie.Tree.Expr

/-! Statements. A statement list is a sequence of big blocks: each holds commands without branches and is
closed by at most one structured command or transfer. -/
namespace Boogie

/-- A condition with attributes: an invariant of a loop, or a clause of a contract. A free one is assumed
and not checked. -/
structure Clause where
  free : Bool
  condition : Expr
  attributes : List Attribute
  span : Span

mutual

structure StmtList where
  blocks : List BigBlock
  /-- The span of the closing brace. -/
  closing : Span

structure BigBlock where
  span : Span
  label : Option String
  cmds : List Cmd
  tail : Option Tail

inductive Tail where
  | branch (command : IfCmd)
  | loop (command : WhileCmd)
  | break (span : Span) (label : Option String)
  | transfer (command : Transfer)

structure IfCmd where
  guard : Option Expr
  thenBranch : StmtList
  elseBranch : Option ElseBranch
  span : Span

inductive ElseBranch where
  | elseIf (command : IfCmd)
  | block (body : StmtList)

structure WhileCmd where
  guard : Option Expr
  invariants : List Clause
  body : StmtList
  span : Span

end

def Tail.span : Tail → Span
  | .branch command => command.span
  | .loop command => command.span
  | .break span _ => span
  | .transfer command => command.span

end Boogie
