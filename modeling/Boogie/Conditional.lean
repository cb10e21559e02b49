import Boogie.Source.LineTable
import Boogie.Text.Blank
import Boogie.Text.Numeral

/-! Conditional text. A region runs from `#if` to its `#endif` and is cut into branches by `#elsif` and
`#else`; of each region at most one branch is selected. Lines are blanked and never removed, so what is
kept stays on its line. -/
namespace Boogie.Conditional

inductive Directive where
  | opens (condition : List Char)
  | otherwiseIf (condition : List Char)
  | otherwise
  | closes
  deriving DecidableEq, Repr

def directive (line : List Char) : Option Directive :=
  match Text.trimStart line with
  | '#' :: rest =>
    let word := rest.takeWhile Text.isLetter
    let argument := rest.dropWhile Text.isLetter
    if !(argument.take 1).all Text.isBlank then none
    else if word = ['i', 'f'] then some (.opens (Text.trim argument))
    else if word = ['e', 'l', 's', 'i', 'f'] then some (.otherwiseIf (Text.trim argument))
    else if word = ['e', 'l', 's', 'e'] then some .otherwise
    else if word = ['e', 'n', 'd', 'i', 'f'] then some .closes
    else none
  | _ => none

def holds (defines : List (List Char)) : List Char → Bool
  | '!' :: rest => !holds defines (Text.trimStart rest)
  | name => defines.contains name
termination_by text => text.length
decreasing_by
  have := (List.dropWhile_suffix (l := rest) Text.isBlank).length_le
  simp only [Text.trimStart, List.length_cons]; omega

structure Region where
  openedAt : Nat
  /-- Some branch up to here was selected. -/
  taken : Bool
  /-- The branch that the text is in is selected. -/
  active : Bool
  deriving DecidableEq, Repr

inductive Warning where
  | loneOtherwiseIf
  | loneOtherwise
  | loneClose
  | neverClosed
  deriving DecidableEq, Repr

def Warning.message : Warning → String
  | .loneOtherwiseIf => "#elsif without matching #if"
  | .loneOtherwise => "#else without matching #if"
  | .loneClose => "#endif without matching #if"
  | .neverClosed => "#if without matching #endif"

structure State where
  regions : List Region
  warnings : List (Nat × Warning)
  deriving DecidableEq, Repr

namespace State

def start : State := ⟨[], []⟩

def keeps (s : State) : Bool := s.regions.all Region.active

def branch (s : State) (line : Nat) (condition : Bool) (lone : Warning) : State :=
  match s.regions with
  | region :: outer =>
    let active := !region.taken && condition
    { s with regions := { region with active, taken := region.taken || active } :: outer }
  | [] => { s with warnings := (line, lone) :: s.warnings }

def apply (defines : List (List Char)) (s : State) (line : Nat) : Directive → State
  | .opens condition =>
    let active := holds defines condition
    { s with regions := ⟨line, active, active⟩ :: s.regions }
  | .otherwiseIf condition => s.branch line (holds defines condition) .loneOtherwiseIf
  | .otherwise => s.branch line true .loneOtherwise
  | .closes =>
    match s.regions with
    | _ :: outer => { s with regions := outer }
    | [] => { s with warnings := (line, .loneClose) :: s.warnings }

def allWarnings (s : State) : List (Nat × Warning) :=
  s.warnings.reverse ++ (s.regions.map fun r => (r.openedAt, Warning.neverClosed)).reverse

end State

/-- The lines of a source with their numbers. All lines behind that of the largest number have it too. -/
def numberedLines (source : List Char) : List (List Char × Nat) :=
  ((splitLines source).zipIdx 1).map fun (line, number) => (line, min number Position.maxNumber)

theorem numberedLinesFst (source : List Char) : (numberedLines source).map Prod.fst = splitLines source := by
  simp [numberedLines, Function.comp_def]

/-- What is left of numbered lines, put after `kept`, which holds the lines before in reverse order. -/
def selectLines (defines : List (List Char)) (s : State) (kept : List (List Char)) :
    List (List Char × Nat) → List (List Char) × State
  | [] => (kept.reverse, s)
  | (line, number) :: rest =>
    match directive line with
    | some d => selectLines defines (s.apply defines number d) ([] :: kept) rest
    | none => selectLines defines s ((if s.keeps then line else []) :: kept) rest

structure Selection where
  text : List Char
  warnings : List (Nat × Warning)
  deriving DecidableEq, Repr

def select (defines : List String) (source : List Char) : Selection :=
  let (lines, s) := selectLines (defines.map String.toList) .start [] (numberedLines source)
  ⟨Text.join '\n' lines, s.allWarnings⟩

end Boogie.Conditional
