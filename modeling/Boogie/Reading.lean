import Boogie.Conditional
import Boogie.Grammar.Decl
import Boogie.Token.Scan

/-! Reading a source: the defined names select its text, the text is cut into tokens, and the tokens are
read as declarations. Whatever is wrong goes into one log, and there is a program only when nothing is. -/
namespace Boogie

structure Reading where
  program : Option Program
  log : Log

namespace Reading

def errorCount (r : Reading) : Nat := r.log.errorCount

def diagnostics (r : Reading) : List Diagnostic := r.log.toList

def run (tokens : TokenList) (text : List Char) (log : Log) : Program × Grammar.State :=
  Grammar.program.run (.start tokens text log)

def ofTokens (tokens : TokenList) (text : List Char) (log : Log) : Program × Log :=
  let (program, s) := run tokens text log
  (program, s.log)

def logWarnings (log : Log) (warnings : List (Nat × Conditional.Warning)) : Log :=
  warnings.foldl (fun log (line, w) => log.warning .lexical ⟨line, 1⟩ w.message) log

def logFaults (log : Log) (errors : List Token.ScanError) : Log :=
  errors.foldl (fun log e => log.lexicalError e.position e.fault.message) log

def selected (source : String) (defines : List String) : Conditional.Selection :=
  Conditional.select defines source.toList

def tokens (source : String) (defines : List String) : TokenList := Token.scan (selected source defines).text

def lexicalLog (file source : String) (defines : List String) : Log :=
  logFaults (logWarnings (.empty file) (selected source defines).warnings)
    (Token.scanErrors (selected source defines).text)

def parsed (file source : String) (defines : List String) : Program × Grammar.State :=
  run (tokens source defines) (selected source defines).text (lexicalLog file source defines)

def ofSource (file source : String) (defines : List String) : Reading :=
  let (program, s) := parsed file source defines
  ⟨if s.log.hasErrors then none else some program, s.log⟩

end Reading

end Boogie
