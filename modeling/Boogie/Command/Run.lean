import Boogie.Command.Folder
import Boogie.Command.Options
import Boogie.Layout.Decl
import Boogie.Reading

/-! A run of the command: every file is read and its diagnostics are shown, in the order of the arguments;
on demand each program without errors is printed. -/
namespace Boogie.Command

def standardInput : String := "stdin.bpl"

inductive SourceError where
  | cannotOpen (path : String) (cause : ReadError)
  | badInput
  | notText (path : String)
  deriving DecidableEq, Repr

def SourceError.message : SourceError → String
  | .cannotOpen path cause => "cannot open " ++ path ++ ": " ++ cause.message
  | .badInput => "cannot read standard input: stream did not contain valid UTF-8"
  | .notText path => path ++ " is not valid UTF-8"

structure FileResult where
  path : String
  outcome : Except SourceError Reading

structure Surroundings where
  files : String → Except ReadError ByteArray
  input : ByteArray

def sourceText (env : Surroundings) (path : String) : Except SourceError String × Surroundings :=
  if Path.same path standardInput then
    (match String.fromUTF8? env.input with
      | some text => .ok text
      | none => .error .badInput,
      { env with input := ByteArray.empty })
  else
    (match env.files path with
      | .error cause => .error (.cannotOpen path cause)
      | .ok bytes =>
        match String.fromUTF8? bytes with
        | some text => .ok text
        | none => .error (.notText path), env)

def readFile (o : Options) (env : Surroundings) (path : String) : FileResult × Surroundings :=
  let (text, env) := sourceText env path
  (⟨path, text.map fun t => Reading.ofSource (Path.display o.useBaseName path) t o.defines⟩, env)

def readFiles (o : Options) (env : Surroundings) : List String → List FileResult
  | [] => []
  | path :: rest =>
    let (result, env) := readFile o env path
    result :: readFiles o env rest

structure Summary where
  files : Nat
  unreadable : Nat
  errorCount : Nat
  deriving DecidableEq, Repr

def Summary.succeeds (s : Summary) : Bool := s.unreadable == 0 && s.errorCount == 0

structure Report where
  diagnostics : String
  printed : String
  summary : Summary
  deriving DecidableEq, Repr

namespace Report

def start : Report := ⟨"", "", ⟨0, 0, 0⟩⟩

def add (o : Options) (colored : Bool) (r : Report) (result : FileResult) : Report :=
  match result.outcome with
  | .error e =>
    { r with
      diagnostics := r.diagnostics ++ Terminal.failureLine colored e.message
      summary := { r.summary with files := r.summary.files + 1, unreadable := r.summary.unreadable + 1 } }
  | .ok reading =>
    let shown := Terminal.diagnosticLines colored reading.diagnostics
    let total := Terminal.summaryLine (Path.display o.useBaseName result.path) reading.errorCount
    let printed := match o.print, reading.program with
      | true, some program => Layout.append r.printed (Layout.program program)
      | _, _ => r.printed
    ⟨r.diagnostics ++ shown ++ total, printed,
      { r.summary with files := r.summary.files + 1, errorCount := r.summary.errorCount + reading.errorCount }⟩

def ofResults (o : Options) (colored : Bool) (results : List FileResult) : Report :=
  results.foldl (add o colored) start

end Report

structure Outcome where
  exitCode : Nat
  output : String
  errors : String
  deriving DecidableEq, Repr

def run (terminal : Bool) (env : Surroundings) (arguments : List String) : Outcome :=
  match parseArguments arguments with
  | .error e => ⟨2, "", "error: " ++ e.message ++ "\n\n" ++ usage ++ "\n"⟩
  | .ok .help => ⟨0, usage ++ "\n", ""⟩
  | .ok (.read o) =>
    let report := Report.ofResults o (o.color.isColored terminal) (readFiles o env o.files)
    ⟨if report.summary.succeeds then 0 else 1, report.printed, report.diagnostics⟩

end Boogie.Command
