import Boogie.Layout.Piece
import Boogie.Name
import Boogie.Tree.Ty

/-! Types as they are printed. -/
namespace Boogie.Layout

def name (n : String) : List Piece := [.text (Name.escape n)]

def names (ns : List Ident) : List Piece := commaList (ns.map fun id => name id.name)

def typeParams (ps : List Ident) : List Piece := .text "<" :: names ps ++ [.text ">"]

def optionalTypeParams (ps : List Ident) : List Piece := if ps.isEmpty then [] else typeParams ps

def isCompound : Ty → Bool
  | .named _ _ args => !args.isEmpty
  | .map _ _ _ _ => true
  | _ => false

mutual

def ty : Ty → List Piece
  | .basic _ b => [.text b.keyword]
  | .bitVector _ width => [.text ("bv" ++ toString width)]
  | .param _ n => name n
  | .named _ n args => name n ++ tyArgs args
  | .map _ ps args result =>
    optionalTypeParams ps ++ .text "[" :: commaList (tys args) ++ .text "]" :: ty result

def tys : List Ty → List (List Piece)
  | [] => []
  | t :: rest => ty t :: tys rest

def tyArgs : List Ty → List Piece
  | [] => []
  | t :: rest => .space :: wrappedIf (isCompound t) (ty t) ++ tyArgs rest

end

end Boogie.Layout
