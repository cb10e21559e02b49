import Boogie.Diagnostic.Terminal

/-! The arguments of the command line: options, and the files to be read. -/
namespace Boogie.Command

def usage : String :=
  "Usage: bplc [options] <file.bpl>...\n\nOptions:\n" ++
  "  -D, --define <NAME>  Treat NAME as defined in #if directives (repeatable)\n" ++
  "  --base-name          Report file base names instead of full paths\n" ++
  "  --print              Print each parsed program to stdout\n" ++
  "  --no-color           Never color diagnostics\n" ++
  "  -h, --help           Show this message\n\n" ++
  "The path stdin.bpl reads the program from standard input."

structure Options where
  defines : List String
  useBaseName : Bool
  print : Bool
  color : Terminal.ColorMode
  files : List String
  deriving DecidableEq, Repr

inductive Request where
  | help
  | read (options : Options)
  deriving DecidableEq, Repr

inductive ArgumentError where
  | missingValue (option : String)
  | unknownOption (option : String)
  | noFiles
  deriving DecidableEq, Repr

def ArgumentError.message : ArgumentError → String
  | .missingValue option => option ++ " needs a value"
  | .unknownOption option => "unknown option " ++ option
  | .noFiles => "no input files"

inductive Argument where
  | help
  | defineNext
  | define (name : String)
  | baseName
  | print
  | noColor
  | unknown
  | file
  deriving DecidableEq, Repr

def afterHead (head text : String) : Option String :=
  if head.toList.isPrefixOf text.toList then some (String.ofList (text.toList.drop head.length)) else none

def Argument.ofText (text : String) : Argument :=
  if text = "-h" ∨ text = "--help" then .help
  else if text = "-D" ∨ text = "--define" then .defineNext
  else if text = "--base-name" then .baseName
  else if text = "--print" then .print
  else if text = "--no-color" then .noColor
  else match afterHead "--define=" text, afterHead "-D" text with
    | some name, _ => .define name
    | none, some name => .define name
    | none, none => if text.toList.head? = some '-' ∧ 1 < text.length then .unknown else .file

namespace Options

def start : Options := ⟨[], false, false, .auto, []⟩

def addDefine (o : Options) (name : String) : Options := { o with defines := o.defines ++ [name] }

def addFile (o : Options) (path : String) : Options := { o with files := o.files ++ [path] }

end Options

/-- Reads arguments from left to right. Help, an unknown option or a missing value ends the reading. -/
def parse (o : Options) : List String → Except ArgumentError Request
  | [] => if o.files.isEmpty then .error .noFiles else .ok (.read o)
  | text :: rest =>
    match Argument.ofText text with
    | .help => .ok .help
    | .defineNext =>
      match rest with
      | name :: rest => parse (o.addDefine name) rest
      | [] => .error (.missingValue text)
    | .define name => parse (o.addDefine name) rest
    | .baseName => parse { o with useBaseName := true } rest
    | .print => parse { o with print := true } rest
    | .noColor => parse { o with color := .never } rest
    | .unknown => .error (.unknownOption text)
    | .file => parse (o.addFile text) rest

def parseArguments (arguments : List String) : Except ArgumentError Request := parse .start arguments

end Boogie.Command
