import Boogie.Grammar.Cmd
import Boogie.Grammar.Variable

/-! Expressions, one production for each level of binding strength.

    level            operators               grouping
    equivalence      <==>                    left
    implication      ==>, <==                right, left; not mixed
    logical          &&, ||                  left; one of them in a chain
    relational       == != < > <= >= <:      none
    concatenation    ++                      left
    additive         + -                     left
    multiplicative   * / div mod             left
    power            **                      right
    unary            - !                     in front
    coercion         e : T, h : l            behind
    bracket          e[…]                    behind

What nests takes the productions it nests as an argument; they are tied together at the end. -/
namespace Boogie.Grammar

open Token (Kind)

structure BitRange where
  upper : Nat
  lower : Nat
  span : Span
  deriving DecidableEq, Repr

inductive Operand where
  | expr (e : Expr)
  | bits (range : BitRange)

namespace Operand

def span : Operand → Span
  | .expr e => e.span
  | .bits range => range.span

def isBits : Operand → Bool
  | .expr _ => false
  | .bits _ => true

def exprOrPlaceholder : Operand → Expr
  | .expr e => e
  | .bits range => .placeholder range.span

def toExpr : Operand → Production Expr
  | .expr e => return e
  | .bits range => do
    brokenAt range.span .misplacedBounds
    return .placeholder range.span

end Operand

inductive Level where
  | whole
  | implication
  | power
  | unary
  deriving DecidableEq, Repr

abbrev Nested := Level → Production Operand

def Nested.expression (nested : Nested) : Production Expr := do (← nested .whole).toExpr

def logicalOp : Kind → Option BinaryOp
  | .and => some .and
  | .or => some .or
  | _ => none

def relationalOp : Kind → Option BinaryOp
  | .equal => some .equal
  | .notEqual => some .notEqual
  | .less => some .less
  | .greater => some .greater
  | .atMost => some .atMost
  | .atLeast => some .atLeast
  | .subtype => some .subtype
  | _ => none

def additiveOp : Kind → Option BinaryOp
  | .plus => some .add
  | .minus => some .subtract
  | _ => none

def multiplicativeOp : Kind → Option BinaryOp
  | .star => some .multiply
  | .kwDiv => some .divide
  | .kwMod => some .modulo
  | .slash => some .divideReal
  | _ => none

def unaryOp : Kind → Option UnaryOp
  | .minus => some .negate
  | .not => some .not
  | _ => none

def binderOf : Kind → Option Binder
  | .kwForall => some .forall_
  | .kwExists => some .exists_
  | .kwLambda => some .lambda
  | _ => none

def roundingMode : Kind → Option RoundingMode
  | .nearestEven => some .nearestEven
  | .nearestAway => some .nearestAway
  | .towardPositive => some .towardPositive
  | .towardNegative => some .towardNegative
  | .towardZero => some .towardZero
  | _ => none

def natValue (text : String) : Production Nat := do
  match Text.readNat text.toList with
  | some n => return n
  | none =>
    broken .malformedNumber
    return 0

def literalOf (token : Token) : Option Literal :=
  match token.kind with
  | .kwTrue => some (.bool true)
  | .kwFalse => some (.bool false)
  | .digits => (Text.readNat token.text.toList).map fun n => .int n
  | .decimal | .fraction => (Decimal.read token.text.toList).map .real
  | .float => (FloatLiteral.read token.text.toList).map .float
  | .bitVector => (Literal.readBitVector token.text.toList).map fun (value, width) => .bitVector value width
  | .string => some (.string (Literal.stringContent token.text))
  | kind => (roundingMode kind).map .rounding

def malformed : Kind → Rule × Literal
  | .digits => (.malformedNumber, .int 0)
  | .float => (.malformedFloat, .float (.zero 24 8))
  | .bitVector => (.malformedBitVector, .bitVector 0 0)
  | _ => (.malformedNumber, .real .zero)

def literalValue (token : Token) : Production Literal := do
  match literalOf token with
  | some value => return value
  | none =>
    broken (malformed token.kind).1
    return (malformed token.kind).2

/-- `Ident ["(" [Expressions] ")"]` -/
def nameOrCall (expr : Production Expr) : Production Expr := do
  let id ← ident
  if ← eat .leftParen then
    let args ← callArguments expr
    return .apply (← spanFrom id.span) (.call id.name) args
  else return .name id.span id.name

def parenthesized (expr : Production Expr) : Production Expr := do
  expect .leftParen
  let inner ← expr
  expect .rightParen
  return inner

/-- `TypeParams [Groups] | Groups` -/
def bound (expr : Production Expr) : Production (List Ident × List Variable) := do
  if ← check .less then
    let params ← typeParams
    let vars ← ifNext (checkAny groupStart) (attributedGroups expr .boundVariables) (pure [])
    return (params, vars)
  else if ← checkAny groupStart then return ([], ← attributedGroups expr .boundVariables)
  else
    syntaxError (.invalid "QuantifierBody")
    return ([], [])

/-- A binder over a body; a lambda keeps no triggers. One that binds nothing, which only a mistake leads
to, stands for its body. -/
def binding (start : Span) (binder : Binder) (params : List Ident) (vars : List Variable)
    (attributes : List Attribute) (triggers : List Trigger) (body : Expr) : Expr :=
  if params.isEmpty && vars.isEmpty then body
  else .bind (start.merge body.span) binder params vars attributes
    (if binder == .lambda then [] else triggers) body

/-- `Bound "::" {Attribute | Trigger} Expression`, after the binder. -/
def bindBody (expr : Production Expr) (binder : Binder) (start : Span) : Production Expr := do
  let (params, vars) ← bound expr
  expect .separator
  let (found, triggers) ← bracedGroups expr
  let body ← expr
  given (binder == .lambda && !triggers.isEmpty) (broken .lambdaTriggers)
  return binding start binder params vars found triggers body

def letVar (expr : Production Expr) : Production LetVar := do
  let found ← attributes expr
  let id ← ident
  return ⟨id.name, found, id.span⟩

/-- `"var" LetVar {"," LetVar} ":=" Expressions ";" {Attribute} Expression` -/
def letBody (expr : Production Expr) : Production Expr := do
  let start := (← advance).span
  let vars ← commaSeparated (letVar expr)
  expect .assign
  let values ← commaSeparated expr
  expect .semicolon
  let found ← attributes expr
  let body ← expr
  return .letIn (start.merge body.span) vars values found body

def inParens (nested : Nested) : Production Expr := do
  match ← nested .whole with
  | .expr e => return e
  | .bits range =>
    broken .parenthesizedBounds
    return .placeholder range.span

/-- `Expression | Binder … | "var" …`, after the parenthesis at `start`. -/
def parenBody (nested : Nested) (start : Span) : Production Expr := do
  if ← checkAny exprStart then inParens nested
  else if ← check .kwVar then letBody nested.expression
  else
    match binderOf (← currentKind) with
    | some binder =>
      let _ ← advance
      bindBody nested.expression binder start
    | none =>
      syntaxError (.invalid "AtomExpression")
      return .placeholder start

/-- `"(" (Expression | Binder … | "var" …) ")"` -/
def paren (nested : Nested) : Production Expr := do
  let start := (← advance).span
  let inner ← parenBody nested start
  expect .rightParen
  return inner

/-- `"if" Expression "then" Expression "else" Expression` -/
def ifThenElse (expr : Production Expr) : Production Expr := do
  let start := (← advance).span
  let condition ← expr
  expect .kwThen
  let thenPart ← expr
  expect .kwElse
  let elsePart ← expr
  return .apply (start.merge elsePart.span) .ifThenElse [condition, thenPart, elsePart]

def blockCmd (expr : Production Expr) : Production (Option Cmd) := do
  match ← labelOrCmd expr with
  | .cmd c => return some c
  | .label _ =>
    broken .severalLabels
    return none
  | .mistake => return none

/-- `"goto" Idents` or `"return" Expression` -/
def blockTransfer (expr : Production Expr) : Production Transfer := do
  let start ← currentSpan
  if ← eat .kwGoto then
    let labels ← idents
    return .goto (← spanFrom start) labels
  else if ← eat .kwReturn then
    let value ← expr
    return .leaveWith (← spanFrom start) value
  else
    syntaxError (.invalid "SpecBlock")
    return .leave (← spanFrom start)

/-- `Ident ":" {LabelOrCmd} Transfer ";"` -/
def block (expr : Production Expr) : Production Block := do
  let label ← ident
  expect .colon
  let cmds ← many (checkAny commandStart) (blockCmd expr)
  let transfer ← blockTransfer expr
  expect .semicolon
  return ⟨label.name, cmds.filterMap id, transfer, ← spanFrom label.span⟩

/-- `"|\x7b" {LocalVariables} Block {Block} "\x7d|"` -/
def codeExpr (expr : Production Expr) : Production Expr := do
  let start := (← advance).span
  let locals ← localVariables expr
  let first ← block expr
  let rest ← many (check .identifier) (block expr)
  expect .rightCode
  return .code (← spanFrom start) locals (first :: rest)

/-- `"old" "(" Expression ")"` -/
def oldExpr (expr : Production Expr) : Production Expr := do
  let start := (← advance).span
  let inner ← parenthesized expr
  return .old (← spanFrom start) inner

/-- `("int" | "real") "(" Expression ")"` -/
def converted (target : Conversion) (expr : Production Expr) : Production Expr := do
  let start := (← advance).span
  let inner ← parenthesized expr
  return .apply (← spanFrom start) (.convert target) [inner]

def literal : Production Expr := do
  let token ← advance
  return .literal token.span (← literalValue token)

def atom (nested : Nested) : Production Expr := do
  match ← currentKind with
  | .identifier => nameOrCall nested.expression
  | .leftParen => paren nested
  | .kwIf => ifThenElse nested.expression
  | .leftCode => codeExpr nested.expression
  | .kwOld => oldExpr nested.expression
  | .kwInt => converted .toInt nested.expression
  | .kwReal => converted .toReal nested.expression
  | kind =>
    if literalStart.contains kind then literal
    else
      syntaxError (.invalid "AtomExpression")
      return .placeholder (← currentSpan)

def further (nested : Nested) (first : Operand) (rule : Rule) : Production Expr := do
  let next ← nested .whole
  given (first.isBits || next.isBits) (broken rule)
  return next.exprOrPlaceholder

/-- `[":=" Expression]` behind indexes. -/
def stored (nested : Nested) (first : Operand) : Production (Option Expr) := do
  if ← eat .assign then return some (← further nested first .storedBounds) else return none

/-- The indexes between brackets, the bit range if that is the first of them, and the stored value. -/
def indexes (nested : Nested) : Production (List Expr × Option BitRange × Option Expr) := do
  if ← checkAny exprStart then
    let first ← nested .whole
    let rest ← many (eat .comma) (further nested first .severalBounds)
    let stored ← stored nested first
    match first with
    | .expr e => return (e :: rest, none, stored)
    | .bits range => return (rest, some range, stored)
  else if ← eat .assign then return ([], none, some (← nested.expression))
  else return ([], none, none)

def bracketed (span : Span) (base : Expr) :
    List Expr × Option BitRange × Option Expr → Expr
  | (indexes, _, some value) =>
    .apply span (.store indexes.length) (base :: (indexes ++ [value]))
  | (_, some range, none) => .apply span (.extract range.upper range.lower) [base]
  | (indexes, none, none) => .apply span (.select indexes.length) (base :: indexes)

def bracket (nested : Nested) (base : Expr) : Production Expr := do
  let _ ← advance
  let found ← indexes nested
  expect .rightBracket
  return bracketed (base.span.merge (← previousSpan)) base found

def brackets (nested : Nested) : Production Expr := do
  whileHolds (check .leftBracket) (bracket nested) (← atom nested)

def bitBound (value : Int) : Production Nat := do
  if 0 ≤ value ∧ value < Text.wordCount 32 then return value.toNat
  else
    broken .boundsTooLarge
    return 0

def upperBound : Operand → Production Nat
  | .expr (.literal _ (.int value)) => bitBound value
  | _ => do
    broken .boundsNotLiteral
    return 0

def coerced (operand : Operand) : Production Operand := do
  if ← checkAny typeStart then
    let type ← type
    let e ← operand.toExpr
    return .expr (.apply (e.span.merge type.span) (.coerce type) [e])
  else if ← check .digits then
    let token ← advance
    let lower ← bitBound (← natValue token.text)
    let upper ← upperBound operand
    return .bits ⟨upper, lower, operand.span.merge token.span⟩
  else
    syntaxError (.invalid "CoercionExpression")
    return operand

def coercion (nested : Nested) : Production Operand := do
  whileHolds (eat .colon) coerced (.expr (← brackets nested))

def unary (nested : Nested) : Production Operand := do
  match unaryOp (← currentKind) with
  | some op =>
    let start := (← advance).span
    let operand ← (← nested .unary).toExpr
    return .expr (.unary op start operand)
  | none =>
    if ← checkAny exprStart then coercion nested
    else
      syntaxError (.invalid "UnaryExpression")
      return .expr (.placeholder (← currentSpan))

def power (nested : Nested) : Production Operand := do
  let left ← unary nested
  if ← eat .power then
    let lhs ← left.toExpr
    let rhs ← (← nested .power).toExpr
    return .expr (.binary .power lhs rhs)
  else return left

def chainStep {β : Type} (operator : Kind → Option β) (join : β → Expr → Expr → Expr)
    (next : Production Operand) (left : Operand) : Production Operand := do
  match operator (← currentKind) with
  | some op =>
    let _ ← advance
    let lhs ← left.toExpr
    let rhs ← (← next).toExpr
    return .expr (join op lhs rhs)
  | none => return left

def chain {β : Type} (operator : Kind → Option β) (join : β → Expr → Expr → Expr)
    (next : Production Operand) : Production Operand := do
  whileHolds (nextIs fun k => (operator k).isSome) (chainStep operator join next) (← next)

def multiplicative (nested : Nested) : Production Operand :=
  chain multiplicativeOp Expr.binary (power nested)

def additive (nested : Nested) : Production Operand :=
  chain additiveOp Expr.binary (multiplicative nested)

def concatOp : Kind → Option Unit
  | .concat => some ()
  | _ => none

def concatenation (nested : Nested) : Production Operand :=
  chain concatOp (fun _ left right => .apply (left.span.merge right.span) .concat [left, right])
    (additive nested)

def relational (nested : Nested) : Production Operand := do
  let left ← concatenation nested
  match relationalOp (← currentKind) with
  | some op =>
    let _ ← advance
    let lhs ← left.toExpr
    let rhs ← (← concatenation nested).toExpr
    return .expr (.binary op lhs rhs)
  | none => return left

/-- One more operand of a chain that `first` opened. The other operator is reported and read all the
same. -/
def logicalStep (nested : Nested) (first : BinaryOp) (left : Expr) : Production Expr := do
  let op := (logicalOp (← currentKind)).getD first
  given (op != first)
    (syntaxError (.worded "illegal mixture of && and ||, use parentheses to disambiguate"))
  let _ ← advance
  let right ← (← relational nested).toExpr
  return .binary op left right

def logical (nested : Nested) : Production Operand := do
  let left ← relational nested
  match logicalOp (← currentKind) with
  | none => return left
  | some first =>
    let e ← left.toExpr
    return .expr (← whileHolds (nextIs fun k => (logicalOp k).isSome) (logicalStep nested first) e)

/-- One more operand after a `<==`, which is kept as `==>` with its operands exchanged. To the right of a
`==>` it needs parentheses. -/
def expliesStep (nested : Nested) : Expr × Bool → Production (Expr × Bool)
  | (left, mixed) => do
    given mixed (broken .mixedImplications)
    let right ← (← logical nested).toExpr
    return (.binary .implies right left, false)

def implication (nested : Nested) (afterImplies : Bool) : Production Operand := do
  let left ← logical nested
  match ← currentKind with
  | .implies =>
    let _ ← advance
    let lhs ← left.toExpr
    let rhs ← (← nested .implication).toExpr
    return .expr (.binary .implies lhs rhs)
  | .explies =>
    let e ← left.toExpr
    return .expr (← whileHolds (eat .explies) (expliesStep nested) (e, afterImplies)).1
  | _ => return left

def iffOp : Kind → Option BinaryOp
  | .iff => some .iff
  | _ => none

def equivalence (nested : Nested) : Production Operand :=
  chain iffOp Expr.binary (implication nested false)

def level (nested : Nested) : Level → Production Operand
  | .whole => equivalence nested
  | .implication => implication nested true
  | .power => power nested
  | .unary => unary nested

def operand : Nested := fun l => do
  nest (fun _ => return .expr (.placeholder (← currentSpan))) level (← ahead) l

def expression : Production Expr := operand.expression

end Boogie.Grammar
