import Boogie.Grammar.Basic
import Boogie.Grammar.First

/-! Types.

    Type     = TypeAtom | Ident [TypeArgs] | MapType
    TypeAtom = "int" | "real" | "bool" | "(" Type ")"
    TypeArgs = (TypeAtom | Ident) [TypeArgs] | MapType
    MapType  = ["<" Idents ">"] "[" [Type {"," Type}] "]" Type -/
namespace Boogie.Grammar

open Token (Kind)

def namedType (span : Span) (name : String) (escaped : Bool) (args : List Ty) : Ty :=
  match args, escaped, Name.bitVectorWidth name with
  | [], false, some width => .bitVector span width
  | _, _, _ => .named span name args

def basicType : Kind → Option BasicType
  | .kwInt => some .int
  | .kwReal => some .real
  | .kwBool => some .bool
  | _ => none

def typeParams : Production (List Ident) := do
  expect .less
  let names ← idents
  expect .greater
  return names

def optionalTypeParams : Production (List Ident) := ifNext (check .less) typeParams (pure [])

def typeAtom (type : Production Ty) : Production Ty := do
  let token ← advance
  match basicType token.kind with
  | some basic => return .basic token.span basic
  | none =>
    let inner ← type
    expect .rightParen
    return inner

def typeArgument (type : Production Ty) : Production Ty := do
  if ← check .identifier then
    let (name, escaped) ← identWritten
    return namedType name.span name.name escaped []
  else typeAtom type

/-- `[Type {"," Type}] "]" Type` -/
def mapRest (type : Production Ty) (start : Span) (params : List Ident) : Production Ty := do
  let args ← ifNext (checkAny typeStart) (commaSeparated type) (pure [])
  expect .rightBracket
  let result ← type
  return .map (← spanFrom start) params args result

def mapType (type : Production Ty) : Production Ty := do
  let start ← currentSpan
  let params ← optionalTypeParams
  expect .leftBracket
  mapRest type start params

def typeArgs (type : Production Ty) : Production (List Ty) := do
  let args ← many (checkAny argumentStart) (typeArgument type)
  if ← checkAny mapStart then return args ++ [← mapType type] else return args

def typeLevel (type : Production Ty) : Production Ty := do
  if ← check .identifier then
    let start ← currentSpan
    let (name, escaped) ← identWritten
    let args ← typeArgs type
    return namedType (← spanFrom start) name.name escaped args
  else if ← checkAny mapStart then mapType type
  else if ← checkAny argumentStart then typeAtom type
  else
    syntaxError (.invalid "Type")
    return .placeholder (← currentSpan)

def type : Production Ty := do
  nest (fun _ => return .placeholder (← currentSpan)) (fun type _ => typeLevel (type ()))
    (← ahead) ()

end Boogie.Grammar
