import Boogie.Diagnostic.Basic

/-! The diagnostics of one source, in the order of their reports. -/
namespace Boogie

structure Log where
  file : String
  entries : Array Diagnostic
  errorCount : Nat
  deriving DecidableEq, Repr

namespace Log

def empty (file : String) : Log := ⟨file, #[], 0⟩

def report (log : Log) (severity : Severity) (concern : Concern) (position : Position) (message : String) :
    Log :=
  { log with
    entries := log.entries.push ⟨severity, concern, log.file, position, message⟩
    errorCount := if severity = .error then log.errorCount + 1 else log.errorCount }

def syntaxError (log : Log) (position : Position) (e : SyntaxError) : Log :=
  log.report .error .syntactic position e.message

def semanticError (log : Log) (position : Position) (message : String) : Log :=
  log.report .error .semantic position message

def lexicalError (log : Log) (position : Position) (message : String) : Log :=
  log.report .error .lexical position message

def warning (log : Log) (concern : Concern) (position : Position) (message : String) : Log :=
  log.report .warning concern position message

def toList (log : Log) : List Diagnostic := log.entries.toList

def errors (log : Log) : List Diagnostic := log.toList.filter Diagnostic.isError

def warningCount (log : Log) : Nat := log.entries.size - log.errorCount

def hasErrors (log : Log) : Bool := 0 < log.errorCount

@[simp] theorem toListReport (log : Log) (severity concern position message) :
    (log.report severity concern position message).toList =
      log.toList ++ [⟨severity, concern, log.file, position, message⟩] := by
  simp [report, toList]

@[simp] theorem errorCountSyntax (log : Log) (position e) :
    (log.syntaxError position e).errorCount = log.errorCount + 1 := rfl

@[simp] theorem errorCountSemantic (log : Log) (position message) :
    (log.semanticError position message).errorCount = log.errorCount + 1 := rfl

@[simp] theorem errorCountLexical (log : Log) (position message) :
    (log.lexicalError position message).errorCount = log.errorCount + 1 := rfl

@[simp] theorem errorCountWarning (log : Log) (concern position message) :
    (log.warning concern position message).errorCount = log.errorCount := rfl

def isCounted (log : Log) : Prop := log.errorCount = log.errors.length

theorem countedEmpty (file : String) : (empty file).isCounted := rfl

theorem countedReport {log : Log} (h : log.isCounted) (severity concern position message) :
    (log.report severity concern position message).isCounted := by
  rw [isCounted, errors, toListReport, List.filter_append, List.length_append, ← errors, ← h]
  cases severity <;> rfl

end Log

end Boogie
