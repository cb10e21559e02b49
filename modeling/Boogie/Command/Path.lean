import Boogie.Text.Cut

/-! Paths of files. Repeated slashes, slashes at the end and steps to the same directory carry no meaning,
but for a step to the same directory at the very front. -/
namespace Boogie.Command

inductive Component where
  | root
  | here
  | up
  | entry (name : String)
  deriving DecidableEq, Repr

namespace Path

def pieces (path : String) : List String := (Text.split '/' path.toList).map String.ofList

def component (piece : String) : Option Component :=
  if piece = "" ∨ piece = "." then none
  else if piece = ".." then some .up
  else some (.entry piece)

def components (path : String) : List Component :=
  match pieces path with
  | [] => []
  | first :: rest =>
    let lead : List Component :=
      if first = "" then (if rest.isEmpty then [] else [.root])
      else if first = "." then [.here]
      else (component first).toList
    lead ++ rest.filterMap component

def fileName (path : String) : Option String :=
  match (components path).getLast? with
  | some (.entry name) => some name
  | _ => none

def same (a b : String) : Bool := components a == components b

def display (useBaseName : Bool) (path : String) : String :=
  if useBaseName then (fileName path).getD path else path

end Path

end Boogie.Command
