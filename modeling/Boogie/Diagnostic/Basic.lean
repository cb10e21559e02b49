import Boogie.Source.Span
import Boogie.Token.Kind

/-! What is reported about a source: a diagnostic has a severity, the kind of rule that was broken, a
place and a message. -/
namespace Boogie

inductive Severity where
  | error
  | warning
  deriving DecidableEq, Repr

def Severity.text : Severity → String
  | .error => "error"
  | .warning => "warning"

/-- Text that is no token, a token out of place, or a construct that breaks a rule beyond the grammar. -/
inductive Concern where
  | lexical
  | syntactic
  | semantic
  deriving DecidableEq, Repr

structure Diagnostic where
  severity : Severity
  concern : Concern
  file : String
  position : Position
  message : String
  deriving DecidableEq, Repr

namespace Diagnostic

def isError (d : Diagnostic) : Bool := d.severity == .error

def place (d : Diagnostic) : String := d.file ++ d.position.text

def text (d : Diagnostic) : String := d.place ++ ": " ++ d.severity.text ++ ": " ++ d.message

end Diagnostic

/-- A mismatch with the grammar: a terminal that is missing, a production none of whose forms fits, or a
mismatch with wording of its own. -/
inductive SyntaxError where
  | expected (kind : Token.Kind)
  | invalid (production : String)
  | worded (text : String)
  deriving DecidableEq, Repr

def SyntaxError.message : SyntaxError → String
  | .expected kind => kind.expectedName ++ " expected"
  | .invalid production => "invalid " ++ production
  | .worded text => text

end Boogie
