import Boogie.Grammar.Attribute
import Boogie.Grammar.Ty

/-! Groups of typed names: `x, y: T where e`. -/
namespace Boogie.Grammar

inductive GroupRole where
  | localVariables
  | globalVariables
  | boundVariables
  | procedureFormals
  | implementationFormals
  deriving DecidableEq, Repr

namespace GroupRole

def text : GroupRole → String
  | .localVariables => "local variables"
  | .globalVariables => "global variables"
  | .boundVariables => "bound variables"
  | .procedureFormals => "procedure formals"
  | .implementationFormals => "the 'implementation' copies of formals"

def allowsWhere : GroupRole → Bool
  | .boundVariables | .implementationFormals => false
  | _ => true

def allowsAttributes (role : GroupRole) : Bool := role != .implementationFormals

end GroupRole

/-- `["where" Expression]`. A where-clause that has no place is read, reported and dropped. -/
def optionalWhere (expr : Production Expr) (role : GroupRole) : Production (Option Expr) := do
  if ← eat .kwWhere then
    let e ← expr
    if role.allowsWhere then return some e
    else
      broken (.whereForbidden role.text)
      return none
  else return none

/-- `Idents ":" Type ["where" Expression]`, one variable for each name. -/
def typedGroup (expr : Production Expr) (role : GroupRole) (attributes : List Attribute) :
    Production (List Variable) := do
  let names ← idents
  expect .colon
  let type ← type
  let whereClause ← optionalWhere expr role
  return names.map fun id => ⟨id.name, type, whereClause, attributes, id.span⟩

def attributedGroup (expr : Production Expr) (role : GroupRole) : Production (List Variable) := do
  let found ← attributes expr
  if !role.allowsAttributes && !found.isEmpty then
    broken (.attributesForbidden role.text)
    typedGroup expr role []
  else typedGroup expr role found

def attributedGroups (expr : Production Expr) (role : GroupRole) : Production (List Variable) := do
  return (← commaSeparated (attributedGroup expr role)).flatten

/-- `"var" {Attribute} Group {"," Group} ";"` -/
def variableDecl (expr : Production Expr) (role : GroupRole) : Production (List Variable) := do
  expect .kwVar
  let found ← attributes expr
  let groups ← commaSeparated (typedGroup expr role found)
  expect .semicolon
  return groups.flatten

def localVariables (expr : Production Expr) : Production (List Variable) := do
  return (← many (check .kwVar) (variableDecl expr .localVariables)).flatten

end Boogie.Grammar
