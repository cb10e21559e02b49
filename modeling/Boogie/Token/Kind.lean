/-! The terminals of the language. A kind is what the grammar sees of a token; a class of spellings, such
as the names or the numbers, is one kind, and so are the ASCII and the Unicode spelling of an operator. -/
namespace Boogie.Token

inductive Kind where
  | endOfText | identifier | bitVector | digits | string | decimal | fraction | float
  | semicolon | leftParen | rightParen | colon | comma | leftBracket | rightBracket | leftBrace
  | rightBrace | less | greater | equals | assign | pipe | star | leftCode | rightCode
  | separator | iff | implies | explies | and | or | equal | notEqual | atMost | atLeast
  | subtype | concat | plus | minus | slash | power | not | kwVar | kwWhere | kwConst
  | kwUnique | kwExtends | kwComplete | kwFunction | kwReturns | kwAxiom | kwType | kwProcedure
  | kwImplementation | kwModifies | kwFree | kwRequires | kwEnsures | kwInt | kwReal | kwBool
  | kwGoto | kwReturn | kwIf | kwThen | kwElse | kwWhile | kwInvariant | kwBreak | kwAssert
  | kwAssume | kwHavoc | kwYield | kwAsync | kwCall | kwPar | kwDiv | kwMod | kwFalse | kwTrue
  | kwOld | kwForall | kwExists | kwLambda | nearestEven | nearestAway | towardPositive
  | towardNegative | towardZero | invalid
  deriving DecidableEq, Repr, Inhabited

namespace Kind

def count : Nat := 90

def index (k : Kind) : Nat := k.ctorIdx

theorem indexLt (k : Kind) : k.index < count := by cases k <;> decide

def all : List Kind :=
  [.endOfText, .identifier, .bitVector, .digits, .string, .decimal, .fraction, .float, .semicolon,
   .leftParen, .rightParen, .colon, .comma, .leftBracket, .rightBracket, .leftBrace, .rightBrace,
   .less, .greater, .equals, .assign, .pipe, .star, .leftCode, .rightCode, .separator, .iff,
   .implies, .explies, .and, .or, .equal, .notEqual, .atMost, .atLeast, .subtype, .concat, .plus,
   .minus, .slash, .power, .not, .kwVar, .kwWhere, .kwConst, .kwUnique, .kwExtends, .kwComplete,
   .kwFunction, .kwReturns, .kwAxiom, .kwType, .kwProcedure, .kwImplementation, .kwModifies,
   .kwFree, .kwRequires, .kwEnsures, .kwInt, .kwReal, .kwBool, .kwGoto, .kwReturn, .kwIf, .kwThen,
   .kwElse, .kwWhile, .kwInvariant, .kwBreak, .kwAssert, .kwAssume, .kwHavoc, .kwYield, .kwAsync,
   .kwCall, .kwPar, .kwDiv, .kwMod, .kwFalse, .kwTrue, .kwOld, .kwForall, .kwExists, .kwLambda,
   .nearestEven, .nearestAway, .towardPositive, .towardNegative, .towardZero, .invalid]

theorem allAtIndex (k : Kind) : all[k.index]? = some k := by cases k <;> rfl

theorem memAll (k : Kind) : k ∈ all := List.mem_of_getElem? (allAtIndex k)

theorem indexInj {a b : Kind} (h : a.index = b.index) : a = b := by
  have same := allAtIndex a
  rw [h, allAtIndex b] at same
  exact (Option.some.inj same).symm

def isTerminal (k : Kind) : Bool := k != .invalid

def isClass : Kind → Bool
  | .endOfText | .identifier | .bitVector | .digits | .string | .decimal | .fraction | .float
  | .invalid => true
  | _ => false

def spelling : Kind → String
  | .endOfText => "EOF"
  | .identifier => "ident"
  | .bitVector => "bvlit"
  | .digits => "digits"
  | .string => "string"
  | .decimal => "decimal"
  | .fraction => "dec_float"
  | .float => "float"
  | .semicolon => ";"
  | .leftParen => "("
  | .rightParen => ")"
  | .colon => ":"
  | .comma => ","
  | .leftBracket => "["
  | .rightBracket => "]"
  | .leftBrace => "\x7b"
  | .rightBrace => "\x7d"
  | .less => "<"
  | .greater => ">"
  | .equals => "="
  | .assign => ":="
  | .pipe => "|"
  | .star => "*"
  | .leftCode => "|\x7b"
  | .rightCode => "\x7d|"
  | .separator => "::"
  | .iff => "<==>"
  | .implies => "==>"
  | .explies => "<=="
  | .and => "&&"
  | .or => "||"
  | .equal => "=="
  | .notEqual => "!="
  | .atMost => "<="
  | .atLeast => ">="
  | .subtype => "<:"
  | .concat => "++"
  | .plus => "+"
  | .minus => "-"
  | .slash => "/"
  | .power => "**"
  | .not => "!"
  | .kwVar => "var"
  | .kwWhere => "where"
  | .kwConst => "const"
  | .kwUnique => "unique"
  | .kwExtends => "extends"
  | .kwComplete => "complete"
  | .kwFunction => "function"
  | .kwReturns => "returns"
  | .kwAxiom => "axiom"
  | .kwType => "type"
  | .kwProcedure => "procedure"
  | .kwImplementation => "implementation"
  | .kwModifies => "modifies"
  | .kwFree => "free"
  | .kwRequires => "requires"
  | .kwEnsures => "ensures"
  | .kwInt => "int"
  | .kwReal => "real"
  | .kwBool => "bool"
  | .kwGoto => "goto"
  | .kwReturn => "return"
  | .kwIf => "if"
  | .kwThen => "then"
  | .kwElse => "else"
  | .kwWhile => "while"
  | .kwInvariant => "invariant"
  | .kwBreak => "break"
  | .kwAssert => "assert"
  | .kwAssume => "assume"
  | .kwHavoc => "havoc"
  | .kwYield => "yield"
  | .kwAsync => "async"
  | .kwCall => "call"
  | .kwPar => "par"
  | .kwDiv => "div"
  | .kwMod => "mod"
  | .kwFalse => "false"
  | .kwTrue => "true"
  | .kwOld => "old"
  | .kwForall => "forall"
  | .kwExists => "exists"
  | .kwLambda => "lambda"
  | .nearestEven => "roundNearestTiesToEven"
  | .nearestAway => "roundNearestTiesToAway"
  | .towardPositive => "roundTowardPositive"
  | .towardNegative => "roundTowardNegative"
  | .towardZero => "roundTowardZero"
  | .invalid => "???"

def expectedName (k : Kind) : String :=
  if k.isClass then k.spelling else "\"" ++ k.spelling ++ "\""

end Kind

def reservedWords : List (String × Kind) := [
  ("var", .kwVar), ("where", .kwWhere), ("const", .kwConst), ("unique", .kwUnique),
  ("extends", .kwExtends), ("complete", .kwComplete), ("function", .kwFunction),
  ("returns", .kwReturns), ("axiom", .kwAxiom), ("type", .kwType), ("procedure", .kwProcedure),
  ("implementation", .kwImplementation), ("modifies", .kwModifies), ("free", .kwFree),
  ("requires", .kwRequires), ("ensures", .kwEnsures), ("int", .kwInt), ("real", .kwReal),
  ("bool", .kwBool), ("goto", .kwGoto), ("return", .kwReturn), ("if", .kwIf), ("then", .kwThen),
  ("else", .kwElse), ("while", .kwWhile), ("invariant", .kwInvariant), ("break", .kwBreak),
  ("assert", .kwAssert), ("assume", .kwAssume), ("havoc", .kwHavoc), ("yield", .kwYield),
  ("async", .kwAsync), ("call", .kwCall), ("par", .kwPar), ("div", .kwDiv), ("mod", .kwMod),
  ("false", .kwFalse), ("true", .kwTrue), ("old", .kwOld), ("forall", .kwForall),
  ("exists", .kwExists), ("lambda", .kwLambda), ("roundNearestTiesToEven", .nearestEven),
  ("roundNearestTiesToAway", .nearestAway), ("roundTowardPositive", .towardPositive),
  ("roundTowardNegative", .towardNegative), ("roundTowardZero", .towardZero),
  ("RNE", .nearestEven), ("RNA", .nearestAway), ("RTP", .towardPositive),
  ("RTN", .towardNegative), ("RTZ", .towardZero)]

def symbols : List (String × Kind) := [
  ("<==>", .iff), ("==>", .implies), ("<==", .explies), (":=", .assign), ("|\x7b", .leftCode),
  ("\x7d|", .rightCode), ("::", .separator), ("&&", .and), ("||", .or), ("==", .equal),
  ("!=", .notEqual), ("<=", .atMost), (">=", .atLeast), ("<:", .subtype), ("++", .concat),
  ("**", .power), (";", .semicolon), ("(", .leftParen), (")", .rightParen), (":", .colon),
  (",", .comma), ("[", .leftBracket), ("]", .rightBracket), ("\x7b", .leftBrace),
  ("\x7d", .rightBrace), ("<", .less), (">", .greater), ("=", .equals), ("|", .pipe),
  ("*", .star), ("+", .plus), ("-", .minus), ("/", .slash), ("!", .not), ("•", .separator),
  ("⇔", .iff), ("⇒", .implies), ("⇐", .explies), ("∧", .and), ("∨", .or), ("≠", .notEqual),
  ("≤", .atMost), ("≥", .atLeast), ("¬", .not), ("∀", .kwForall), ("∃", .kwExists),
  ("λ", .kwLambda)]

end Boogie.Token
