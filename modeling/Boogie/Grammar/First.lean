import Boogie.Token.KindSet

/-! The kinds that constructs begin with, and those where reading goes on after a mistake. -/
namespace Boogie.Grammar

open Token (KindSet)

def declStart : KindSet :=
  .ofList [.kwConst, .kwFunction, .kwAxiom, .kwType, .kwVar, .kwProcedure, .kwImplementation]

def declSync : KindSet := declStart.insert .endOfText

def commandWords : KindSet :=
  .ofList [.kwFree, .kwAssert, .kwAssume, .kwHavoc, .kwYield, .kwAsync, .kwCall, .kwPar]

def commandStart : KindSet := commandWords.insert .identifier

/-- What ends a statement list. A variable declaration does not: a stray one is skipped rather than read
as a global. -/
def listEnd : KindSet :=
  .ofList [.rightBrace, .endOfText, .kwConst, .kwFunction, .kwAxiom, .kwType, .kwProcedure,
    .kwImplementation]

def statementSync : KindSet :=
  (commandWords.union (.ofList [.kwIf, .kwWhile, .kwBreak, .kwGoto, .kwReturn])).union listEnd

def clauseStart : KindSet := .ofList [.kwModifies, .kwFree, .kwRequires, .kwEnsures]

def literalStart : KindSet :=
  .ofList [.bitVector, .digits, .string, .decimal, .fraction, .float, .kwFalse, .kwTrue, .nearestEven,
    .nearestAway, .towardPositive, .towardNegative, .towardZero]

def exprStart : KindSet :=
  literalStart.union
    (.ofList [.identifier, .leftParen, .kwInt, .kwReal, .kwIf, .minus, .not, .kwOld, .leftCode])

def groupStart : KindSet := .ofList [.identifier, .leftBrace]

def mapStart : KindSet := .ofList [.leftBracket, .less]

def argumentStart : KindSet := .ofList [.identifier, .leftParen, .kwInt, .kwReal, .kwBool]

def typeStart : KindSet := argumentStart.union mapStart

end Boogie.Grammar
