import Boogie.Grammar.Stmt
import Boogie.Tree.Decl

/-! Declarations. Each name of a group is a declaration of its own, a function that has a body and is not
inline is followed by its definition axiom, and a procedure that has a body by its implementation. -/
namespace Boogie.Grammar

open Token (Kind)

/-- `["unique"] Ident` -/
def parent : Production Parent := do
  let unique ← eat .kwUnique
  return ⟨← ident, unique⟩

/-- `[Parent {"," Parent}]` -/
def parents : Production (List Parent) :=
  ifNext (checkAny (.ofList [.identifier, .kwUnique])) (commaSeparated parent) (pure [])

/-- `["extends" Parents]`, and whether that is complete. -/
def extension : Production (Option (List Parent) × Bool) := do
  if ← eat .kwExtends then
    let parents ← parents
    return (some parents, ← eat .kwComplete)
  else return (none, false)

/-- `"const" {Attribute} ["unique"] Idents ":" Type ["extends" Parents] ";"` -/
def constants : Production (List Decl) := do
  let _ ← advance
  let found ← attributes expression
  let unique ← eat .kwUnique
  let names ← idents
  expect .colon
  let type ← type
  let (parents, complete) ← extension
  expect .semicolon
  return names.map fun id => .constant ⟨id.name, type, unique, parents, complete, found, id.span⟩

/-- `{Attribute} Type [":" Type]`. With a second type the first is the name of the formal. -/
def functionFormal (incoming : Bool) : Production Formal := do
  let found ← attributes expression
  let start ← currentSpan
  let first ← type
  if ← eat .colon then
    let name := first.bareName
    given name.isNone (broken .nameBeforeColon)
    let second ← type
    return ⟨name, second, none, incoming, found, ← spanFrom start⟩
  else return ⟨none, first, none, incoming, found, ← spanFrom start⟩

/-- What becomes of a formal without a name, read from right to left, once some formal has a name. -/
inductive Positional where
  | keeps
  | named (name : String)
  | applied

/-- A single name in the place of a type is the name of a formal that shares the type of the next. -/
def positional (f : Formal) : Positional :=
  match f.name, f.type with
  | some _, _ => .keeps
  | none, .named _ name [] => .named name
  | none, .named _ _ _ => .applied
  | none, _ => .keeps

/-- Names the formals from the last one on; `next` is the type of the one after. The formals stand in
reverse order. -/
def namePositional (next : Option Ty) : List Formal → Production (List Formal)
  | [] => return []
  | f :: rest =>
    match positional f with
    | .keeps => do return f :: (← namePositional (some f.type) rest)
    | .applied => do
      brokenAt f.span .parameterName
      return f :: (← namePositional next rest)
    | .named name =>
      match next with
      | some type => do return { f with name := some name, type } :: (← namePositional next rest)
      | none => do
        brokenAt f.span .lastParameterType
        return f :: rest

def nameFormals (formals : List Formal) : Production (List Formal) := do
  if formals.all fun f => f.name.isNone then return formals
  else return (← namePositional none formals.reverse).reverse

/-- What the definition axiom binds for the formal in a place. One without a name is bound as `_` and its
place. -/
def boundFormal (placed : Formal × Nat) : Variable :=
  ⟨placed.1.name.getD ("_" ++ toString placed.2), placed.1.type, none, [], placed.1.span⟩

/-- `forall xs :: {(f(xs) : R)} (f(xs) : R) == body`. With nothing to bind, the axiom is the bare
equation. -/
def definitionAxiom (f : Function) (body : Expr) : Axiom :=
  let span := body.span
  let vars : List Variable := f.formals.zipIdx.map boundFormal
  let application : Expr := .apply span (.call f.name) (vars.map fun v => .name v.span v.name)
  let result : Expr := .apply span (.coerce f.result.type) [application]
  let equation : Expr := .binary .equal result body
  if vars.isEmpty && f.params.isEmpty then ⟨equation, f.attributes, span⟩
  else ⟨.bind span .forall_ f.params vars f.attributes [⟨true, [result], span⟩] equation, [], span⟩

def resultMissing (formals : List Formal) : Production Unit := do
  let isEnd ← check .semicolon
  match formals.getLast? with
  | some last =>
    -- `function g(bool);` reads as a formal named `bool` without a type
    if isEnd && formals.all fun f => f.name.isNone then brokenAt last.span .lastParameterType
    else syntaxError (.invalid "Function")
  | none => syntaxError (.invalid "Function")

def functionResult (formals : List Formal) : Production (Option Formal) := do
  if ← eat .kwReturns then
    expect .leftParen
    let result ← functionFormal false
    expect .rightParen
    return some result
  else if ← eat .colon then
    let type ← type
    return some ⟨none, type, none, false, [], type.span⟩
  else
    resultMissing formals
    return none

/-- `"\x7b" Expression "\x7d"` or `";"` -/
def functionBody : Production (Option Expr) := do
  if ← eat .leftBrace then
    let body ← expression
    expect .rightBrace
    return some body
  else if ← eat .semicolon then return none
  else
    syntaxError (.invalid "Function")
    return none

/-- `"(" [Formal {"," Formal}] ")"` -/
def functionFormals : Production (List Formal) := do
  expect .leftParen
  let formals ← ifNext (checkAny (typeStart.insert .leftBrace)) (commaSeparated (functionFormal true))
    (pure [])
  expect .rightParen
  return formals

def functionDecls (f : Function) : Option Expr → List Decl
  | none => [.function f]
  | some body =>
    if Attribute.isSet f.attributes "inline" then [.function { f with body := some body }]
    else [.function f, .axiomatic (definitionAxiom f body)]

/-- `"function" {Attribute} Ident [TypeParams] "(" [Formal {"," Formal}] ")" Result Body` -/
def function : Production (List Decl) := do
  let start := (← advance).span
  let found ← attributes expression
  let name ← ident
  let params ← optionalTypeParams
  let formals ← functionFormals
  let result ← functionResult formals
  let body ← functionBody
  let last ← previousSpan
  let result := result.getD ⟨none, .placeholder last, none, false, [], last⟩
  let formals ← nameFormals formals
  return functionDecls ⟨name.name, params, formals, result, none, found, ← spanFrom start⟩ body

/-- `"axiom" {Attribute} Expression ";"` -/
def axiomDecl : Production (List Decl) := do
  let start := (← advance).span
  let found ← attributes expression
  let condition ← expression
  expect .semicolon
  return [.axiomatic ⟨condition, found, ← spanFrom start⟩]

/-- `Ident {Ident} ["=" Type]` -/
def typeDecl (found : List Attribute) : Production Decl := do
  let name ← ident
  let params ← many (check .identifier) ident
  if ← eat .equals then
    let body ← type
    return .typeSynonym ⟨name.name, params, body, found, ← spanFrom name.span⟩
  else return .typeConstructor ⟨name.name, params.length, found, ← spanFrom name.span⟩

/-- `"type" {Attribute} TypeDecl {"," TypeDecl} ";"` -/
def typeDecls : Production (List Decl) := do
  let _ ← advance
  let found ← attributes expression
  let decls ← commaSeparated (typeDecl found)
  expect .semicolon
  return decls

def globals : Production (List Decl) := do
  return (← variableDecl expression .globalVariables).map .global

/-- `{Attribute} Ident [TypeParams] "(" [Groups] ")" ["returns" "(" [Groups] ")"]` -/
structure Signature where
  name : String
  params : List Ident
  ins : List Formal
  outs : List Formal
  attributes : List Attribute

def formalOf (incoming : Bool) (v : Variable) : Formal :=
  ⟨some v.name, v.type, v.whereClause, incoming, v.attributes, v.span⟩

def formals (role : GroupRole) (incoming : Bool) : Production (List Formal) := do
  expect .leftParen
  let groups ← ifNext (checkAny groupStart) (attributedGroups expression role) (pure [])
  expect .rightParen
  return groups.map (formalOf incoming)

def signature (role : GroupRole) : Production Signature := do
  let found ← attributes expression
  let name ← ident
  let params ← optionalTypeParams
  let ins ← formals role true
  let outs ← ifNext (eat .kwReturns) (formals role false) (pure [])
  return ⟨name.name, params, ins, outs, found⟩

inductive Spec where
  | requires (clause : Clause)
  | modifies (vars : List Ident)
  | ensures (clause : Clause)
  | mistake

namespace Spec

def requires? : Spec → Option Clause
  | .requires clause => some clause
  | _ => none

def ensures? : Spec → Option Clause
  | .ensures clause => some clause
  | _ => none

def modified : Spec → List Ident
  | .modifies vars => vars
  | _ => []

end Spec

/-- `{Attribute} Expression ";"` after the word of the clause. -/
def clause (start : Span) (free : Bool) : Production Clause := do
  let _ ← advance
  let found ← attributes expression
  let condition ← expression
  expect .semicolon
  return ⟨free, condition, found, ← spanFrom start⟩

/-- `"modifies" [Idents] ";"` or `["free"] ("requires" | "ensures") {Attribute} Expression ";"` -/
def spec : Production Spec := do
  let start ← currentSpan
  if ← eat .kwModifies then
    let vars ← ifNext (check .identifier) idents (pure [])
    expect .semicolon
    return .modifies vars
  else
    let free ← eat .kwFree
    match ← currentKind with
    | .kwRequires => return .requires (← clause start free)
    | .kwEnsures => return .ensures (← clause start free)
    | _ =>
      syntaxError (.invalid "SpecPrePost")
      return .mistake

def specs : Production (List Spec) := many (checkAny clauseStart) spec

/-- `"\x7b" {LocalVariables} Statements` -/
def implementationBody : Production (List Variable × StmtList) := do
  expect .leftBrace
  let locals ← localVariables expression
  return (locals, ← stmtList)

def withoutWhere (formals : List Formal) : List Formal :=
  formals.map fun f => { f with whereClause := none }

/-- `";" {Spec} | {Spec} Body` -/
def contractAndBody : Production (List Spec × Option (List Variable × StmtList)) := do
  if ← eat .semicolon then return (← specs, none)
  else if ← checkAny (clauseStart.insert .leftBrace) then
    let contract ← specs
    return (contract, some (← implementationBody))
  else
    syntaxError (.invalid "Procedure")
    return ([], none)

def procedureDecls (sig : Signature) (span : Span) (contract : List Spec)
    (body : Option (List Variable × StmtList)) : List Decl :=
  let decl : Decl := .procedure
    ⟨sig.name, sig.params, sig.ins, sig.outs, contract.filterMap Spec.requires?,
      contract.flatMap Spec.modified, contract.filterMap Spec.ensures?, sig.attributes, span⟩
  match body with
  | none => [decl]
  | some (locals, stmts) =>
    [decl, .implementation
      ⟨sig.name, sig.params, withoutWhere sig.ins, withoutWhere sig.outs, locals, stmts,
        sig.attributes, span⟩]

/-- `"procedure" Signature (";" {Spec} | {Spec} Body)` -/
def procedure : Production (List Decl) := do
  let start := (← advance).span
  let sig ← signature .procedureFormals
  let (contract, body) ← contractAndBody
  return procedureDecls sig (← spanFrom start) contract body

/-- `"implementation" Signature Body` -/
def implementation : Production (List Decl) := do
  let start := (← advance).span
  let sig ← signature .implementationFormals
  let (locals, stmts) ← implementationBody
  return [.implementation
    ⟨sig.name, sig.params, sig.ins, sig.outs, locals, stmts, sig.attributes, ← spanFrom start⟩]

/-- One declaration, with those that follow from it. What begins none is skipped up to one that does. -/
def decl : Production (List Decl) := do
  match ← currentKind with
  | .kwConst => constants
  | .kwFunction => function
  | .kwAxiom => axiomDecl
  | .kwType => typeDecls
  | .kwVar => globals
  | .kwProcedure => procedure
  | .kwImplementation => implementation
  | _ =>
    syntaxError (.invalid "Declaration")
    synchronize declSync
    return []

def more : Production Bool := .read fun s => !s.cursor.isAtEnd

def program : Production Program := do
  return ⟨(← many more decl).flatten⟩

end Boogie.Grammar
