/-! The operators of expressions and how strongly they bind. -/
namespace Boogie

inductive BinaryOp where
  | iff
  /-- Written `a ==> b`, or `b <== a`. -/
  | implies
  | and | or
  | equal | notEqual | less | greater | atMost | atLeast | subtype
  | add | subtract
  | multiply | divide | modulo | divideReal
  | power
  deriving DecidableEq, Repr

namespace BinaryOp

def symbol : BinaryOp → String
  | .iff => "<==>"
  | .implies => "==>"
  | .and => "&&"
  | .or => "||"
  | .equal => "=="
  | .notEqual => "!="
  | .less => "<"
  | .greater => ">"
  | .atMost => "<="
  | .atLeast => ">="
  | .subtype => "<:"
  | .add => "+"
  | .subtract => "-"
  | .multiply => "*"
  | .divide => "div"
  | .modulo => "mod"
  | .divideReal => "/"
  | .power => "**"

def precedence : BinaryOp → Nat
  | .iff => 1
  | .implies => 2
  | .and | .or => 3
  | .equal | .notEqual | .less | .greater | .atMost | .atLeast | .subtype => 4
  | .add | .subtract => 6
  | .multiply | .divide | .modulo | .divideReal => 7
  | .power => 8

def all : List BinaryOp :=
  [.iff, .implies, .and, .or, .equal, .notEqual, .less, .greater, .atMost, .atLeast, .subtype, .add,
    .subtract, .multiply, .divide, .modulo, .divideReal, .power]

end BinaryOp

inductive UnaryOp where
  | negate
  | not
  deriving DecidableEq, Repr

def UnaryOp.symbol : UnaryOp → String
  | .negate => "-"
  | .not => "!"

inductive Conversion where
  | toInt
  | toReal
  deriving DecidableEq, Repr

def Conversion.keyword : Conversion → String
  | .toInt => "int"
  | .toReal => "real"

inductive Binder where
  | forall_
  | exists_
  | lambda
  deriving DecidableEq, Repr

def Binder.keyword : Binder → String
  | .forall_ => "forall"
  | .exists_ => "exists"
  | .lambda => "lambda"

end Boogie
