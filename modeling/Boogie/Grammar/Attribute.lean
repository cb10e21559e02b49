import Boogie.Grammar.Basic
import Boogie.Grammar.First
import Boogie.Tree.Expr

/-! Attributes and triggers. Both stand in braces; a colon after the brace makes an attribute. The key
`nopats` makes a negative trigger. -/
namespace Boogie.Grammar

inductive Braced where
  | keyed (a : Attribute)
  | trigger (t : Trigger)
  | mistake

def Braced.keyed? : Braced → Option Attribute
  | .keyed a => some a
  | _ => none

def Braced.trigger? : Braced → Option Trigger
  | .trigger t => some t
  | _ => none

def attributeParam (expr : Production Expr) : Production AttributeParam := do
  if ← check .string then return .string (Literal.stringContent (← advance).text)
  else return .expr (← expr)

def braced (expr : Production Expr) : Production Braced := do
  let start ← currentSpan
  expect .leftBrace
  if ← eat .colon then
    let key ← ident
    let params ← ifNext (checkAny exprStart) (commaSeparated (attributeParam expr)) (pure [])
    expect .rightBrace
    let span ← spanFrom start
    if key.name == "nopats" then
      match params with
      | [.expr e] => return .trigger ⟨false, [e], span⟩
      | _ =>
        broken .noPatterns
        return .mistake
    else return .keyed ⟨key.name, params, span⟩
  else if ← checkAny exprStart then
    let exprs ← commaSeparated expr
    expect .rightBrace
    return .trigger ⟨true, exprs, ← spanFrom start⟩
  else
    syntaxError (.invalid "AttributeOrTrigger")
    expect .rightBrace
    return .mistake

def bracedGroups (expr : Production Expr) : Production (List Attribute × List Trigger) := do
  let found ← many (check .leftBrace) (braced expr)
  return (found.filterMap Braced.keyed?, found.filterMap Braced.trigger?)

def attributeOnly (expr : Production Expr) : Production (Option Attribute) := do
  let found ← braced expr
  given found.trigger?.isSome (broken .triggersForbidden)
  return found.keyed?

def attributes (expr : Production Expr) : Production (List Attribute) := do
  return (← many (check .leftBrace) (attributeOnly expr)).filterMap id

end Boogie.Grammar
