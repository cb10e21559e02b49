import Boogie.Source.Span

/-! Types. A name in type position stays unresolved, but for the names of the bitvector types. -/
namespace Boogie

structure Ident where
  name : String
  span : Span
  deriving DecidableEq, Repr, Inhabited

inductive BasicType where
  | int
  | real
  | bool
  deriving DecidableEq, Repr

def BasicType.keyword : BasicType → String
  | .int => "int"
  | .real => "real"
  | .bool => "bool"

inductive Ty where
  | basic (span : Span) (type : BasicType)
  | bitVector (span : Span) (width : Nat)
  | map (span : Span) (params : List Ident) (args : List Ty) (result : Ty)
  /-- A bound type parameter. A source is never read as one. -/
  | param (span : Span) (name : String)
  | named (span : Span) (name : String) (args : List Ty)
  deriving Repr, Inhabited

namespace Ty

def span : Ty → Span
  | .basic span _ | .bitVector span _ | .map span _ _ _ | .param span _ | .named span _ _ => span

def placeholder (span : Span) : Ty := .basic span .int

def bareName : Ty → Option String
  | .named _ name [] => some name
  | .bitVector _ width => some ("bv" ++ toString width)
  | _ => none

end Ty

end Boogie
