import Boogie.Literal.Basic
import Boogie.Tree.Operator
import Boogie.Tree.Ty

/-! Expressions, with the attributes, variables and commands that they hold. Code expressions hold blocks
of commands, and commands hold expressions, so these types are one family. -/
namespace Boogie

inductive Operator where
  | binary (op : BinaryOp)
  | unary (op : UnaryOp)
  | call (function : String)
  | select (arity : Nat)
  | store (arity : Nat)
  | ifThenElse
  | convert (target : Conversion)
  | coerce (type : Ty)
  | concat
  | extract (upper lower : Nat)
  deriving Repr

namespace Operator

def arity : Operator → Option Nat
  | .binary _ | .concat => some 2
  | .unary _ | .convert _ | .coerce _ | .extract _ _ => some 1
  | .ifThenElse => some 3
  | .select n => some (n + 1)
  | .store n => some (n + 2)
  | .call _ => none

end Operator

mutual

inductive Expr where
  | literal (span : Span) (value : Literal)
  | name (span : Span) (name : String)
  | old (span : Span) (body : Expr)
  | apply (span : Span) (op : Operator) (args : List Expr)
  | bind (span : Span) (binder : Binder) (params : List Ident) (vars : List Variable)
      (attributes : List Attribute) (triggers : List Trigger) (body : Expr)
  | letIn (span : Span) (vars : List LetVar) (values : List Expr) (attributes : List Attribute)
      (body : Expr)
  | code (span : Span) (locals : List Variable) (blocks : List Block)

structure Attribute where
  key : String
  params : List AttributeParam
  span : Span

inductive AttributeParam where
  | string (content : String)
  | expr (e : Expr)

structure Trigger where
  positive : Bool
  exprs : List Expr
  span : Span

structure Variable where
  name : String
  type : Ty
  whereClause : Option Expr
  attributes : List Attribute
  span : Span

structure LetVar where
  name : String
  attributes : List Attribute
  span : Span

inductive Target where
  | name (id : Ident)
  | element (span : Span) (map : Target) (indexes : List Expr)

structure Call where
  isAsync : Bool
  isFree : Bool
  callee : Ident
  ins : List Expr
  outs : List Ident
  attributes : List Attribute
  span : Span

inductive Cmd where
  | assign (span : Span) (targets : List Target) (values : List Expr)
  | assert (span : Span) (attributes : List Attribute) (condition : Expr)
  | assume (span : Span) (attributes : List Attribute) (condition : Expr)
  | havoc (span : Span) (vars : List Ident)
  | call (span : Span) (call : Call)
  | parallel (span : Span) (calls : List Call) (attributes : List Attribute)
  | yield (span : Span)

inductive Transfer where
  | goto (span : Span) (labels : List Ident)
  | leave (span : Span)
  | leaveWith (span : Span) (value : Expr)

structure Block where
  label : String
  cmds : List Cmd
  transfer : Transfer
  span : Span

end

namespace Expr

def span : Expr → Span
  | .literal span _ | .name span _ | .old span _ | .apply span _ _ | .bind span _ _ _ _ _ _
  | .letIn span _ _ _ _ | .code span _ _ => span

def placeholder (span : Span) : Expr := .literal span (.bool false)

def binary (op : BinaryOp) (left right : Expr) : Expr :=
  .apply (left.span.merge right.span) (.binary op) [left, right]

def unary (op : UnaryOp) (start : Span) (operand : Expr) : Expr :=
  .apply (start.merge operand.span) (.unary op) [operand]

def asBinary : Expr → Option (BinaryOp × Expr × Expr)
  | .apply _ (.binary op) [left, right] => some (op, left, right)
  | _ => none

end Expr

namespace Attribute

def find (attributes : List Attribute) (key : String) : Option Attribute :=
  attributes.find? fun a => a.key == key

def isSet (attributes : List Attribute) (key : String) : Bool :=
  match find attributes key with
  | some a =>
    match a.params with
    | [] => true
    | [.expr (.literal _ (.bool b))] => b
    | _ => false
  | none => false

end Attribute

namespace Target

def span : Target → Span
  | .name id => id.span
  | .element span _ _ => span

def root : Target → Ident
  | .name id => id
  | .element _ map _ => map.root

end Target

def Cmd.span : Cmd → Span
  | .assign span _ _ | .assert span _ _ | .assume span _ _ | .havoc span _ | .call span _
  | .parallel span _ _ | .yield span => span

def Transfer.span : Transfer → Span
  | .goto span _ | .leave span | .leaveWith span _ => span

end Boogie
