import Boogie.Layout.Decl
import Boogie.Proofs.Printed.Pieces

/-! The texts that stand between the parts of a tree, as rows of terminals. -/
namespace Boogie.Layout

open Token (Kind)

instance : Fixed "(" '(' (some .leftParen) := .of [some .leftParen] rfl rfl rfl rfl
instance : Fixed ")" ')' (some .rightParen) := .of [some .rightParen] rfl rfl rfl rfl
instance : Fixed "[" '[' (some .leftBracket) := .of [some .leftBracket] rfl rfl rfl rfl
instance : Fixed "]" ']' (some .rightBracket) := .of [some .rightBracket] rfl rfl rfl rfl
instance : Fixed "\x7b" '{' (some .leftBrace) := .of [some .leftBrace] rfl rfl rfl rfl
instance : Fixed "\x7d" '}' (some .rightBrace) := .of [some .rightBrace] rfl rfl rfl rfl
instance : Fixed " \x7b " ' ' none := .of [none, some .leftBrace, none] rfl rfl rfl rfl
instance : Fixed " \x7d" ' ' (some .rightBrace) := .of [none, some .rightBrace] rfl rfl rfl rfl
instance : Fixed "\x7b:" '{' (some .colon) := .of [some .leftBrace, some .colon] rfl rfl rfl rfl
instance : Fixed "|\x7b " '|' none := .of [some .leftCode, none] rfl rfl rfl rfl
instance : Fixed "\x7d|" '}' (some .rightCode) := .of [some .rightCode] rfl rfl rfl rfl
instance : Fixed "<" '<' (some .less) := .of [some .less] rfl rfl rfl rfl
instance : Fixed ">" '>' (some .greater) := .of [some .greater] rfl rfl rfl rfl
instance : Fixed ", " ',' none := .of [some .comma, none] rfl rfl rfl rfl
instance : Fixed ";" ';' (some .semicolon) := .of [some .semicolon] rfl rfl rfl rfl
instance : Fixed "; " ';' none := .of [some .semicolon, none] rfl rfl rfl rfl
instance : Fixed ":" ':' (some .colon) := .of [some .colon] rfl rfl rfl rfl
instance : Fixed ": " ':' none := .of [some .colon, none] rfl rfl rfl rfl
instance : Fixed " : " ' ' none := .of [none, some .colon, none] rfl rfl rfl rfl
instance : Fixed " :: " ' ' none := .of [none, some .separator, none] rfl rfl rfl rfl
instance : Fixed ":= " ':' none := .of [some .assign, none] rfl rfl rfl rfl
instance : Fixed " := " ' ' none := .of [none, some .assign, none] rfl rfl rfl rfl
instance : Fixed " = " ' ' none := .of [none, some .equals, none] rfl rfl rfl rfl
instance : Fixed " | " ' ' none := .of [none, some .pipe, none] rfl rfl rfl rfl
instance : Fixed " ++ " ' ' none := .of [none, some .concat, none] rfl rfl rfl rfl
instance : Fixed "(*)" '(' (some .rightParen) := .of [some .leftParen, some .star, some .rightParen] rfl rfl rfl rfl

def kindOfBinary : BinaryOp → Kind
  | .iff => .iff
  | .implies => .implies
  | .and => .and
  | .or => .or
  | .equal => .equal
  | .notEqual => .notEqual
  | .less => .less
  | .greater => .greater
  | .atMost => .atMost
  | .atLeast => .atLeast
  | .subtype => .subtype
  | .add => .plus
  | .subtract => .minus
  | .multiply => .star
  | .divide => .kwDiv
  | .modulo => .kwMod
  | .divideReal => .slash
  | .power => .power

def kindOfUnary : UnaryOp → Kind
  | .negate => .minus
  | .not => .not

def kindOfBinder : Binder → Kind
  | .forall_ => .kwForall
  | .exists_ => .kwExists
  | .lambda => .kwLambda

def kindOfConversion : Conversion → Kind
  | .toInt => .kwInt
  | .toReal => .kwReal

def kindOfBasic : BasicType → Kind
  | .int => .kwInt
  | .real => .kwReal
  | .bool => .kwBool

instance (op : BinaryOp) : Terminals op.symbol where
  row := [some (kindOfBinary op)]
  same := by cases op <;> rfl
  apart := by cases op <;> rfl

instance (op : UnaryOp) : Terminals op.symbol where
  row := [some (kindOfUnary op)]
  same := by cases op <;> rfl
  apart := by cases op <;> rfl

instance (binder : Binder) : Terminals ("(" ++ binder.keyword ++ " ") where
  row := [some .leftParen, some (kindOfBinder binder), none]
  same := by cases binder <;> rfl
  apart := by cases binder <;> rfl

instance (target : Conversion) : Terminals target.keyword where
  row := [some (kindOfConversion target)]
  same := by cases target <;> rfl
  apart := by cases target <;> rfl

instance (b : BasicType) : Terminals b.keyword where
  row := [some (kindOfBasic b)]
  same := by cases b <;> rfl
  apart := by cases b <;> rfl

instance : Fixed "old" 'o' (some .kwOld) := .of [some .kwOld] rfl rfl rfl rfl
instance : Fixed "(if " '(' none := .of [some .leftParen, some .kwIf, none] rfl rfl rfl rfl
instance : Fixed " then " ' ' none := .of [none, some .kwThen, none] rfl rfl rfl rfl
instance : Fixed " else " ' ' none := .of [none, some .kwElse, none] rfl rfl rfl rfl
instance : Fixed "(var " '(' none := .of [some .leftParen, some .kwVar, none] rfl rfl rfl rfl

instance : Fixed "var " 'v' none := .of [some .kwVar, none] rfl rfl rfl rfl
instance : Fixed " where " ' ' none := .of [none, some .kwWhere, none] rfl rfl rfl rfl
instance : Fixed "assert " 'a' none := .of [some .kwAssert, none] rfl rfl rfl rfl
instance : Fixed "assume " 'a' none := .of [some .kwAssume, none] rfl rfl rfl rfl
instance : Fixed "havoc " 'h' none := .of [some .kwHavoc, none] rfl rfl rfl rfl
instance : Fixed "par " 'p' none := .of [some .kwPar, none] rfl rfl rfl rfl
instance : Fixed "yield;" 'y' (some .semicolon) := .of [some .kwYield, some .semicolon] rfl rfl rfl rfl
instance : Fixed "goto " 'g' none := .of [some .kwGoto, none] rfl rfl rfl rfl
instance : Fixed "return;" 'r' (some .semicolon) := .of [some .kwReturn, some .semicolon] rfl rfl rfl rfl
instance : Fixed "return " 'r' none := .of [some .kwReturn, none] rfl rfl rfl rfl
instance : Fixed "break" 'b' (some .kwBreak) := .of [some .kwBreak] rfl rfl rfl rfl
instance : Fixed "if " 'i' none := .of [some .kwIf, none] rfl rfl rfl rfl
instance : Fixed "while " 'w' none := .of [some .kwWhile, none] rfl rfl rfl rfl

def optionalWord (k : Kind) (present : Bool) : Token.Spelling := if present then [some k, none] else []

instance (isAsync isFree : Bool) :
    Terminals ((if isAsync then "async " else "") ++ (if isFree then "free " else "") ++ "call ") where
  row := optionalWord .kwAsync isAsync ++ optionalWord .kwFree isFree ++ [some .kwCall, none]
  same := by cases isAsync <;> cases isFree <;> rfl
  apart := by cases isAsync <;> cases isFree <;> rfl

instance (free : Bool) : Terminals ((if free then "free " else "") ++ "invariant" ++ " ") where
  row := optionalWord .kwFree free ++ [some .kwInvariant, none]
  same := by cases free <;> rfl
  apart := by cases free <;> rfl

instance (free : Bool) : Terminals ((if free then "free " else "") ++ "requires" ++ " ") where
  row := optionalWord .kwFree free ++ [some .kwRequires, none]
  same := by cases free <;> rfl
  apart := by cases free <;> rfl

instance (free : Bool) : Terminals ((if free then "free " else "") ++ "ensures" ++ " ") where
  row := optionalWord .kwFree free ++ [some .kwEnsures, none]
  same := by cases free <;> rfl
  apart := by cases free <;> rfl

instance : Fixed "const " 'c' none := .of [some .kwConst, none] rfl rfl rfl rfl
instance : Fixed " extends" ' ' (some .kwExtends) := .of [none, some .kwExtends] rfl rfl rfl rfl
instance : Fixed " complete" ' ' (some .kwComplete) := .of [none, some .kwComplete] rfl rfl rfl rfl
instance : Fixed "type " 't' none := .of [some .kwType, none] rfl rfl rfl rfl
instance : Fixed "function " 'f' none := .of [some .kwFunction, none] rfl rfl rfl rfl
instance : Fixed " returns " ' ' none := .of [none, some .kwReturns, none] rfl rfl rfl rfl
instance : Fixed "axiom " 'a' none := .of [some .kwAxiom, none] rfl rfl rfl rfl
instance : Fixed "procedure " 'p' none := .of [some .kwProcedure, none] rfl rfl rfl rfl
instance : Fixed "modifies " 'm' none := .of [some .kwModifies, none] rfl rfl rfl rfl
instance : Fixed "implementation " 'i' none := .of [some .kwImplementation, none] rfl rfl rfl rfl

instance (unique : Bool) : Terminals (if unique then "unique " else "") where
  row := optionalWord .kwUnique unique
  same := by cases unique <;> rfl
  apart := by cases unique <;> rfl

end Boogie.Layout
