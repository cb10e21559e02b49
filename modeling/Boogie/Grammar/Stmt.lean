import Boogie.Grammar.Expr
import Boogie.Tree.Stmt

/-! Statements. Commands are gathered into big blocks: a label opens one, a structured command or a
transfer closes one, and what is open at the closing brace is the last. -/
namespace Boogie.Grammar

open Token (Kind KindSet)

structure OpenBlock where
  span : Span
  label : Option String
  cmds : List Cmd

def OpenBlock.close (b : OpenBlock) (tail : Option Tail) : BigBlock :=
  ⟨b.span, b.label, b.cmds.reverse, tail⟩

structure Gathered where
  closed : List BigBlock
  opened : Option OpenBlock

namespace Gathered

def empty : Gathered := ⟨[], none⟩

def addCmd (g : Gathered) (c : Cmd) : Gathered :=
  match g.opened with
  | some b => { g with opened := some { b with cmds := c :: b.cmds } }
  | none => { g with opened := some ⟨c.span, none, [c]⟩ }

def addLabel (g : Gathered) (label : Ident) : Gathered :=
  let closed := match g.opened with
    | some b => b.close none :: g.closed
    | none => g.closed
  ⟨closed, some ⟨label.span, some label.name, []⟩⟩

def add (g : Gathered) : LabelOrCmd → Gathered
  | .cmd c => g.addCmd c
  | .label id => g.addLabel id
  | .mistake => g

def addTail (g : Gathered) (tail : Tail) : Gathered :=
  let b := g.opened.getD ⟨tail.span, none, []⟩
  ⟨b.close (some tail) :: g.closed, none⟩

/-- All big blocks in order. Where there is none, one without anything stands at the closing brace. -/
def finish (g : Gathered) (closing : Span) : List BigBlock :=
  match g.opened with
  | some b => (b.close none :: g.closed).reverse
  | none => if g.closed.isEmpty then [⟨closing, none, [], none⟩] else g.closed.reverse

end Gathered

/-- `"*" | Expression` -/
def condition : Production (Option Expr) := do
  if ← eat .star then return none
  else if ← checkAny exprStart then return some (← expression)
  else
    syntaxError (.invalid "Guard")
    return none

/-- `"(" Condition ")"` -/
def guard : Production (Option Expr) := do
  expect .leftParen
  let found ← condition
  expect .rightParen
  return found

/-- `["free"] "invariant" {Attribute} Expression ";"` -/
def loopInvariant : Production Clause := do
  let start ← currentSpan
  let free ← eat .kwFree
  expect .kwInvariant
  let found ← attributes expression
  let condition ← expression
  expect .semicolon
  return ⟨free, condition, found, ← spanFrom start⟩

/-- `"while" Guard {Invariant} "\x7b" Statements` -/
def whileCmd (stmts : Production StmtList) : Production WhileCmd := do
  let start := (← advance).span
  let condition ← guard
  let invariants ← many (checkAny (.ofList [.kwFree, .kwInvariant])) loopInvariant
  expect .leftBrace
  let body ← stmts
  return ⟨condition, invariants, body, ← spanFrom start⟩

/-- `"break" [Ident] ";"` -/
def breakCmd : Production Tail := do
  let start := (← advance).span
  let label ← ifNext (check .identifier) (do return some (← ident).name) (pure none)
  expect .semicolon
  return .break (← spanFrom start) label

/-- `["else" (Conditional | "\x7b" Statements)]` -/
def optionalElse (stmts : Production StmtList) (conditional : Production IfCmd) :
    Production (Option ElseBranch) := do
  if ← eat .kwElse then
    if ← check .kwIf then return some (.elseIf (← conditional))
    else if ← eat .leftBrace then return some (.block (← stmts))
    else
      syntaxError (.invalid "IfCmd")
      return none
  else return none

/-- `"if" Guard "\x7b" Statements ["else" (Conditional | "\x7b" Statements)]` -/
def ifCmd (stmts : Production StmtList) (conditional : Production IfCmd) : Production IfCmd := do
  let start ← currentSpan
  expect .kwIf
  let condition ← guard
  expect .leftBrace
  let thenBranch ← stmts
  let elseBranch ← optionalElse stmts conditional
  return ⟨condition, thenBranch, elseBranch, ← spanFrom start⟩

/-- `("goto" Idents | "return") ";"` -/
def transferCmd : Production Transfer := do
  let start ← currentSpan
  if ← eat .kwGoto then
    let labels ← idents
    expect .semicolon
    return .goto (← spanFrom start) labels
  else
    expect .kwReturn
    expect .semicolon
    return .leave (← spanFrom start)

/-- Stands for statements that nothing asks for: those in braces begin with fewer tokens ahead. -/
def noStmts : Production StmtList := do return ⟨[], ← currentSpan⟩

def conditional (stmts : Production StmtList) : Production IfCmd := do
  nest (fun _ => return ⟨none, ← noStmts, none, ← currentSpan⟩) (fun next _ => ifCmd stmts (next ()))
    (← ahead) ()

/-- What closes a big block. What is no statement is skipped up to where one may begin, or past the next
semicolon. -/
def blockTail (stmts : Production StmtList) : Production (Option Tail) := do
  match ← currentKind with
  | .kwIf => return some (.branch (← conditional stmts))
  | .kwWhile => return some (.loop (← whileCmd stmts))
  | .kwBreak => return some (← breakCmd)
  | .kwGoto | .kwReturn => return some (.transfer (← transferCmd))
  | _ =>
    syntaxError (.invalid "StmtList")
    synchronize (statementSync.insert .semicolon)
    let _ ← eat .semicolon
    return none

def stmtItem (stmts : Production StmtList) (g : Gathered) : Production Gathered := do
  if ← checkAny commandStart then return g.add (← labelOrCmd expression)
  else return (← blockTail stmts).elim g g.addTail

def stmtsBody (stmts : Production StmtList) : Production StmtList := do
  let g ← whileHolds (nextIs fun k => !listEnd.contains k) (stmtItem stmts) .empty
  let closing ← currentSpan
  expect .rightBrace
  return ⟨g.finish closing, closing⟩

def stmtList : Production StmtList := do
  nest (fun _ => noStmts) (fun stmts _ => stmtsBody (stmts ())) (← ahead) ()

end Boogie.Grammar
