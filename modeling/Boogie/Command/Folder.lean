import Boogie.Command.Path

/-! A directory with files in it, and what comes of reading a path from there. -/
namespace Boogie.Command

inductive ReadError where
  | notFound
  | notDirectory
  | isDirectory
  | nameTooLong
  | zeroInName
  | other (text : String) (number : Nat)
  deriving DecidableEq, Repr

def ReadError.message : ReadError → String
  | .notFound => "No such file or directory (os error 2)"
  | .notDirectory => "Not a directory (os error 20)"
  | .isDirectory => "Is a directory (os error 21)"
  | .nameTooLong => "File name too long (os error 36)"
  | .zeroInName => "file name contained an unexpected NUL byte"
  | .other text number => text ++ " (os error " ++ toString number ++ ")"

structure Folder where
  entries : List (List String × Option ByteArray)

namespace Folder

def empty : Folder := ⟨[]⟩

def add (f : Folder) (path : String) (content : Option ByteArray) : Folder :=
  ⟨f.entries ++ [((Path.pieces path).filter fun p => p != "" && p != ".", content)]⟩

inductive Node where
  | file (content : ByteArray)
  | directory

def node (f : Folder) (names : List String) : Option Node :=
  match f.entries.find? fun (entry, _) => names.isPrefixOf entry with
  | some (entry, content) =>
    if entry = names then
      match content with
      | some bytes => some (.file bytes)
      | none => some .directory
    else some .directory
  | none => if names.isEmpty then some .directory else none

/-- Where a path has led to: below the folder, by names in reverse order, or out of it. Of what lies
outside nothing is known but that it is a directory. -/
inductive Spot where
  | inside (names : List String)
  | outside

namespace Spot

def node (f : Folder) : Spot → Option Node
  | .inside names => f.node names.reverse
  | .outside => some .directory

def enter (s : Spot) (name : String) : Except ReadError Spot :=
  if 255 < name.utf8ByteSize then .error .nameTooLong
  else match s with
    | .inside names => .ok (.inside (name :: names))
    | .outside => .error .notFound

def up : Spot → Spot
  | .inside (_ :: names) => .inside names
  | _ => .outside

end Spot

def follow (f : Folder) (s : Spot) : List String → Except ReadError ByteArray
  | [] =>
    match s.node f with
    | some (.file content) => .ok content
    | some .directory => .error .isDirectory
    | none => .error .notFound
  | piece :: rest =>
    match s.node f with
    | none => .error .notFound
    | some (.file _) => .error .notDirectory
    | some .directory =>
      if piece = "" ∨ piece = "." then follow f s rest
      else if piece = ".." then follow f s.up rest
      else match s.enter piece with
        | .ok inner => follow f inner rest
        | .error e => .error e

def read (f : Folder) (path : String) : Except ReadError ByteArray :=
  if path.toList.contains '\x00' then .error .zeroInName
  else if path = "" then .error .notFound
  else if 4096 ≤ path.utf8ByteSize then .error .nameTooLong
  else f.follow (if path.toList.head? = some '/' then .outside else .inside []) (Path.pieces path)

end Folder

end Boogie.Command
