import Boogie.Grammar.Attribute

/-! Labels and commands. -/
namespace Boogie.Grammar

inductive LabelOrCmd where
  | label (id : Ident)
  | cmd (c : Cmd)
  | mistake

def optionalExprs (expr : Production Expr) : Production (List Expr) := do
  if ← checkAny exprStart then commaSeparated expr else return []

/-- `{"[" [Expressions] "]"}` after a name. -/
def target (expr : Production Expr) (id : Ident) : Production Target := do
  whileHolds (eat .leftBracket) (fun map => do
    let indexes ← optionalExprs expr
    expect .rightBracket
    return .element (← spanFrom id.span) map indexes) (.name id)

/-- `Ident ":"` or `Target {"," Target} ":=" Expressions ";"` -/
def labelOrAssign (expr : Production Expr) : Production LabelOrCmd := do
  let id ← ident
  if ← eat .colon then return .label id
  else if ← checkAny (.ofList [.comma, .leftBracket, .assign]) then
    let first ← target expr id
    let rest ← many (eat .comma) (do target expr (← ident))
    expect .assign
    let values ← commaSeparated expr
    expect .semicolon
    return .cmd (.assign (← spanFrom id.span) (first :: rest) values)
  else
    syntaxError (.invalid "LabelOrAssign")
    return .mistake

def callArguments (expr : Production Expr) : Production (List Expr) := do
  let ins ← optionalExprs expr
  expect .rightParen
  return ins

/-- `[Ident {"," Ident} ":="] Ident "(" [Expressions] ")"` -/
def callParams (expr : Production Expr) (isAsync isFree : Bool) (attributes : List Attribute)
    (start : Span) : Production Call := do
  let first ← ident
  if ← eat .leftParen then
    let ins ← callArguments expr
    return ⟨isAsync, isFree, first, ins, [], attributes, ← spanFrom start⟩
  else if ← checkAny (.ofList [.comma, .assign]) then
    let rest ← many (eat .comma) ident
    expect .assign
    let callee ← ident
    expect .leftParen
    let ins ← callArguments expr
    return ⟨isAsync, isFree, callee, ins, first :: rest, attributes, ← spanFrom start⟩
  else
    syntaxError (.invalid "CallParams")
    return ⟨isAsync, isFree, first, [], [], attributes, ← spanFrom start⟩

/-- `["async"] ["free"] "call" {Attribute} CallParams` -/
def call (expr : Production Expr) : Production Call := do
  let start ← currentSpan
  let isAsync ← eat .kwAsync
  let isFree ← eat .kwFree
  expect .kwCall
  let found ← attributes expr
  callParams expr isAsync isFree found start

/-- `"par" {Attribute} CallParams {"|" CallParams}`; each call carries the attributes. -/
def parallelCalls (expr : Production Expr) : Production (List Call × List Attribute) := do
  let start := (← advance).span
  let found ← attributes expr
  let first ← callParams expr false false found start
  let rest ← many (eat .pipe) (do callParams expr false false found (← currentSpan))
  return (first :: rest, found)

/-- `("assert" | "assume") {Attribute} Expression ";"` -/
def conditionCmd (expr : Production Expr) (make : Span → List Attribute → Expr → Cmd) :
    Production LabelOrCmd := do
  let start := (← advance).span
  let found ← attributes expr
  let condition ← expr
  expect .semicolon
  return .cmd (make (← spanFrom start) found condition)

/-- `"havoc" Idents ";"` -/
def havocCmd : Production LabelOrCmd := do
  let start := (← advance).span
  let vars ← idents
  expect .semicolon
  return .cmd (.havoc (← spanFrom start) vars)

def callCmd (expr : Production Expr) : Production LabelOrCmd := do
  let start ← currentSpan
  let c ← call expr
  expect .semicolon
  return .cmd (.call (← spanFrom start) c)

def parallelCmd (expr : Production Expr) : Production LabelOrCmd := do
  let start ← currentSpan
  let (calls, found) ← parallelCalls expr
  expect .semicolon
  return .cmd (.parallel (← spanFrom start) calls found)

def yieldCmd : Production LabelOrCmd := do
  let start := (← advance).span
  expect .semicolon
  return .cmd (.yield (← spanFrom start))

def wordCmd (expr : Production Expr) : Production LabelOrCmd := do
  match ← currentKind with
  | .kwAssert => conditionCmd expr .assert
  | .kwAssume => conditionCmd expr .assume
  | .kwHavoc => havocCmd
  | .kwAsync | .kwFree | .kwCall => callCmd expr
  | .kwPar => parallelCmd expr
  | .kwYield => yieldCmd
  | _ =>
    syntaxError (.invalid "LabelOrCmd")
    return .mistake

def labelOrCmd (expr : Production Expr) : Production LabelOrCmd := do
  if ← check .identifier then labelOrAssign expr else wordCmd expr

end Boogie.Grammar
