import Boogie.Layout.Fallback
import Boogie.Layout.Ty

/-! Expressions as they are printed, on one line. Operands are put in parentheses only where the grammar
would group them otherwise; conditionals and coercions always carry their own. -/
namespace Boogie.Layout

inductive Grouping where
  | left
  | right
  | none
  deriving DecidableEq, Repr

def grouping : BinaryOp → Grouping
  | .implies | .power => .right
  | .equal | .notEqual | .less | .greater | .atMost | .atLeast | .subtype => .none
  | _ => .left

def concatPrecedence : Nat := 5

def unaryPrecedence : Nat := 9

def atomPrecedence : Nat := 10

def precedence : Expr → Nat
  | .apply _ (.binary op) _ => op.precedence
  | .apply _ .concat _ => concatPrecedence
  | .apply _ (.unary _) _ => unaryPrecedence
  | _ => atomPrecedence

/-- `&&` and `||` share a level and do not stand in one chain. -/
def isOtherLogical (op : BinaryOp) (operand : Expr) : Bool :=
  match op, operand.asBinary with
  | .and, some (.or, _, _) => true
  | .or, some (.and, _, _) => true
  | _, _ => false

abbrev Operand := Expr × List Piece

def wrapsLeft (op : BinaryOp) (e : Expr) : Bool :=
  match grouping op with
  | .left => precedence e < op.precedence || isOtherLogical op e
  | .right | .none => precedence e ≤ op.precedence

def wrapsRight (op : BinaryOp) (e : Expr) : Bool :=
  match grouping op with
  | .left | .none => precedence e ≤ op.precedence
  | .right => precedence e < op.precedence

def binary (op : BinaryOp) (left right : Operand) : List Piece :=
  wrappedIf (wrapsLeft op left.1) left.2 ++ .space :: .text op.symbol :: .space ::
    wrappedIf (wrapsRight op right.1) right.2

def base (operand : Operand) : List Piece :=
  wrappedIf (precedence operand.1 < atomPrecedence) operand.2

def piecesOf (operands : List Operand) : List Piece := commaList (operands.map Prod.snd)

def fitting (op : Operator) (operands : List Operand) : Option (List Piece) :=
  match op, operands with
  | .binary op, [left, right] => some (binary op left right)
  | .unary op, [operand] =>
    some (.text op.symbol :: wrappedIf (precedence operand.1 < unaryPrecedence) operand.2)
  | .concat, [left, right] =>
    some (wrappedIf (precedence left.1 < concatPrecedence) left.2 ++ .text " ++ " ::
      wrappedIf (precedence right.1 ≤ concatPrecedence) right.2)
  | .call function, args => some (name function ++ wrapped (piecesOf args))
  | .select _, map :: indexes => some (base map ++ .text "[" :: piecesOf indexes ++ [.text "]"])
  | .store _, map :: next :: more =>
    let indexes := (next :: more).dropLast
    let value := (next :: more).getLast (by simp)
    some (base map ++ .text "[" :: piecesOf indexes ++ (if indexes.isEmpty then [] else [.space]) ++
      .text ":= " :: value.2 ++ [.text "]"])
  | .extract upper lower, [operand] =>
    some (base operand ++ [.text ("[" ++ toString upper ++ ":" ++ toString lower ++ "]")])
  | .ifThenElse, [condition, thenPart, elsePart] =>
    some (.text "(if " :: condition.2 ++ .text " then " :: thenPart.2 ++ .text " else " :: elsePart.2 ++
      [.text ")"])
  | .convert target, [operand] => some (.text target.keyword :: wrapped operand.2)
  | .coerce type, [operand] => some (wrapped (base operand ++ .text " : " :: ty type))
  | _, _ => none

def application (op : Operator) (operands : List Operand) : List Piece :=
  (fitting op operands).getD (.text (describeOperator op) :: wrapped (piecesOf operands))

def quotedText (content : String) : List Piece := [.text ("\"" ++ content ++ "\"")]

def transferLabels (labels : List Ident) : List Piece := .text "goto " :: names labels ++ [.text ";"]

mutual

def expr : Expr → List Piece
  | .literal _ value => [.text value.text]
  | .name _ n => name n
  | .old _ body => .text "old" :: wrapped (expr body)
  | .apply _ op args => application op (operands args)
  | .bind _ binder ps vars as ts body =>
    .text ("(" ++ binder.keyword ++ " ") :: optionalTypeParams ps ++
      (if ps.isEmpty || vars.isEmpty then [] else [.space]) ++ commaList (boundVariables vars) ++
      .text " :: " :: attributes as ++ triggers ts ++ expr body ++ [.text ")"]
  | .letIn _ vars values as body =>
    .text "(var " :: commaList (letVars vars) ++ .text " := " :: commaList (exprs values) ++
      .text "; " :: attributes as ++ expr body ++ [.text ")"]
  | .code _ locals bs =>
    .text "|\x7b " :: localDecls locals ++ blocks bs ++ [.text "\x7d|"]

def exprs : List Expr → List (List Piece)
  | [] => []
  | e :: rest => expr e :: exprs rest

def operands : List Expr → List Operand
  | [] => []
  | e :: rest => (e, expr e) :: operands rest

def attributeParam : AttributeParam → List Piece
  | .string content => quotedText content
  | .expr e => expr e

def attributeParams : List AttributeParam → List (List Piece)
  | [] => []
  | p :: rest => attributeParam p :: attributeParams rest

def braced : Attribute → List Piece
  | ⟨key, ps, _⟩ =>
    .text "\x7b:" :: name key ++ (if ps.isEmpty then [] else [.space]) ++
      commaList (attributeParams ps) ++ [.text "\x7d"]

def attributes : List Attribute → List Piece
  | [] => []
  | a :: rest => braced a ++ .space :: attributes rest

def trigger : Trigger → List Piece
  | ⟨positive, es, _⟩ =>
    .text (if positive then "\x7b" else "\x7b:nopats ") :: commaList (exprs es) ++ [.text "\x7d"]

def triggers : List Trigger → List Piece
  | [] => []
  | t :: rest => trigger t ++ .space :: triggers rest

def boundVariable : Variable → List Piece
  | ⟨n, type, _, as, _⟩ => attributes as ++ name n ++ .text ": " :: ty type

def boundVariables : List Variable → List (List Piece)
  | [] => []
  | v :: rest => boundVariable v :: boundVariables rest

/-- `var {attributes} x: T [where e];` -/
def variableDecl : Variable → List Piece
  | ⟨n, type, whereClause, as, _⟩ =>
    .text "var " :: attributes as ++ name n ++ .text ": " :: ty type ++ optionalWhere whereClause ++
      [.text ";"]

def optionalWhere : Option Expr → List Piece
  | none => []
  | some e => .text " where " :: expr e

def localDecls : List Variable → List Piece
  | [] => []
  | v :: rest => variableDecl v ++ .space :: localDecls rest

def letVar : LetVar → List Piece
  | ⟨n, as, _⟩ => attributes as ++ name n

def letVars : List LetVar → List (List Piece)
  | [] => []
  | v :: rest => letVar v :: letVars rest

def target : Target → List Piece
  | .name id => name id.name
  | .element _ map indexes => target map ++ .text "[" :: commaList (exprs indexes) ++ [.text "]"]

def targets : List Target → List (List Piece)
  | [] => []
  | t :: rest => target t :: targets rest

/-- `[outs :=] callee(ins)` -/
def callParams : Call → List Piece
  | ⟨_, _, callee, ins, outs, _, _⟩ =>
    (if outs.isEmpty then [] else names outs ++ [.text " := "]) ++ name callee.name ++
      wrapped (commaList (exprs ins))

def callList : List Call → List (List Piece)
  | [] => []
  | c :: rest => callParams c :: callList rest

def callAttributes : Call → List Piece
  | ⟨_, _, _, _, _, as, _⟩ => attributes as

def cmd : Cmd → List Piece
  | .assign _ ts values =>
    commaList (targets ts) ++ .text " := " :: commaList (exprs values) ++ [.text ";"]
  | .assert _ as condition => .text "assert " :: attributes as ++ expr condition ++ [.text ";"]
  | .assume _ as condition => .text "assume " :: attributes as ++ expr condition ++ [.text ";"]
  | .havoc _ vars => .text "havoc " :: names vars ++ [.text ";"]
  | .call _ c =>
    .text ((if c.isAsync then "async " else "") ++ (if c.isFree then "free " else "") ++ "call ") ::
      callAttributes c ++ callParams c ++ [.text ";"]
  | .parallel _ calls as =>
    .text "par " :: attributes as ++ List.intercalate [.text " | "] (callList calls) ++ [.text ";"]
  | .yield _ => [.text "yield;"]

def cmds : List Cmd → List Piece
  | [] => []
  | c :: rest => cmd c ++ .space :: cmds rest

def transfer : Transfer → List Piece
  | .goto _ labels => transferLabels labels
  | .leave _ => [.text "return;"]
  | .leaveWith _ value => .text "return " :: expr value ++ [.text ";"]

def block : Block → List Piece
  | ⟨label, cs, t, _⟩ => name label ++ .text ": " :: cmds cs ++ transfer t

def blocks : List Block → List Piece
  | [] => []
  | b :: rest => block b ++ .space :: blocks rest

end

end Boogie.Layout
