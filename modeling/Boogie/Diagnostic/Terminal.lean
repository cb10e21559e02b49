import Boogie.Diagnostic.Log

/-! Diagnostics as a terminal shows them, one to a line. Colour is put on the severity alone. -/
namespace Boogie.Terminal

inductive ColorMode where
  | auto
  | always
  | never
  deriving DecidableEq, Repr

def ColorMode.isColored (mode : ColorMode) (terminal : Bool) : Bool :=
  match mode with
  | .auto => terminal
  | .always => true
  | .never => false

def colorCode : Severity → String
  | .error => "\x1b[1;31m"
  | .warning => "\x1b[1;33m"

def resetCode : String := "\x1b[0m"

def label (colored : Bool) (severity : Severity) : String :=
  if colored then colorCode severity ++ severity.text ++ resetCode else severity.text

def diagnosticLine (colored : Bool) (d : Diagnostic) : String :=
  d.place ++ ": " ++ label colored d.severity ++ ": " ++ d.message ++ "\n"

def diagnosticLines (colored : Bool) (ds : List Diagnostic) : String :=
  String.join (ds.map (diagnosticLine colored))

def summaryLine (file : String) (errorCount : Nat) : String :=
  if errorCount = 0 then ""
  else toString errorCount ++ " parse error" ++ (if errorCount = 1 then "" else "s") ++
    " detected in " ++ file ++ "\n"

def failureLine (colored : Bool) (message : String) : String :=
  label colored .error ++ ": " ++ message ++ "\n"

end Boogie.Terminal
