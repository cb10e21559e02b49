import Boogie.Source.Span
import Boogie.Text.Quoted
import Boogie.Token.Kind

/-! A token: its kind, its text and where it stands. A token list ends in one token at the end of the
text, kept apart from those before it. -/
namespace Boogie

structure Token where
  kind : Token.Kind
  text : String
  span : Span
  position : Position
  deriving DecidableEq, Repr, Inhabited

namespace Token

def sample (kind : Kind) : Token := ⟨kind, kind.spelling, Span.nowhere, ⟨0, 0⟩⟩

inductive Fault where
  | unknownCharacter (c : Char)
  | openComment
  | openString
  deriving DecidableEq, Repr

def Fault.ofText : List Char → Fault
  | '/' :: '*' :: _ => .openComment
  | '"' :: _ => .openString
  | c :: _ => .unknownCharacter c
  | [] => .unknownCharacter '\x00'

def Fault.message : Fault → String
  | .unknownCharacter c => "invalid character " ++ Text.quotedChar c
  | .openComment => "unterminated block comment"
  | .openString => "unterminated string literal"

structure ScanError where
  span : Span
  position : Position
  fault : Fault
  deriving DecidableEq, Repr

end Token

structure TokenList where
  body : List Token
  finish : Token
  deriving DecidableEq, Repr

namespace TokenList

def toList (ts : TokenList) : List Token := ts.body ++ [ts.finish]

/-- What the grammar reads. -/
def terminals (ts : TokenList) : List Token := ts.body.filter fun t => t.kind.isTerminal

def faulty (ts : TokenList) : List Token := ts.body.filter fun t => !t.kind.isTerminal

end TokenList

namespace Token

def fault (t : Token) : Fault := .ofText t.text.toList

def error (t : Token) : ScanError := ⟨t.span, t.position, t.fault⟩

end Token

end Boogie
