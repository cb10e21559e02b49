import Boogie.Layout.Emitter
import Boogie.Layout.Stmt
import Boogie.Tree.Decl

/-! Declarations as they are printed, each from the start of a line. Those with a contract or a body are
set apart by blank lines. -/
namespace Boogie.Layout

def parent (p : Parent) : List Piece :=
  .text (if p.unique then "unique " else "") :: name p.ident.name

def extension (parents : List Parent) (complete : Bool) : List Piece :=
  .text " extends" :: (if parents.isEmpty then [] else [.space]) ++ commaList (parents.map parent) ++
    (if complete then [.text " complete"] else [])

def constant (c : Constant) : List Piece :=
  .text "const " :: attributes c.attributes ++ .text (if c.unique then "unique " else "") ::
    name c.name ++ .text ": " :: ty c.type ++
    (match c.parents with
      | some parents => extension parents c.complete
      | none => []) ++ [.text ";"]

def typeConstructor (t : TypeConstructor) : List Piece :=
  .text "type " :: attributes t.attributes ++ name t.name ++
    (List.range t.arity).map (fun i => .text (" _" ++ toString i)) ++ [.text ";"]

def typeSynonym (t : TypeSynonym) : List Piece :=
  .text "type " :: attributes t.attributes ++ name t.name ++
    t.params.flatMap (fun p => .space :: name p.name) ++ .text " = " :: ty t.body ++ [.text ";"]

def typed (n : Option String) (type : Ty) : List Piece :=
  (match n with
    | some n => name n ++ [.text ": "]
    | none => []) ++ ty type

def functionFormal (f : Formal) : List Piece := attributes f.attributes ++ typed f.name f.type

def functionResult (f : Formal) : List Piece :=
  if f.name.isSome || !f.attributes.isEmpty then .text " returns " :: wrapped (functionFormal f)
  else .text ": " :: ty f.type

def function (f : Function) : List Piece :=
  .text "function " :: attributes f.attributes ++ name f.name ++ optionalTypeParams f.params ++
    wrapped (commaList (f.formals.map functionFormal)) ++ functionResult f.result ++
    match f.body with
    | some e => .text " \x7b " :: expr e ++ [.text " \x7d"]
    | none => [.text ";"]

def axiomDecl (a : Axiom) : List Piece :=
  .text "axiom " :: attributes a.attributes ++ expr a.condition ++ [.text ";"]

def formal (withAttributes : Bool) (f : Formal) : List Piece :=
  (if withAttributes then attributes f.attributes else []) ++ typed f.name f.type ++
    optionalWhere f.whereClause

def signature (withAttributes : Bool) (n : String) (params : List Ident) (ins outs : List Formal) :
    List Piece :=
  name n ++ optionalTypeParams params ++ wrapped (commaList (ins.map (formal withAttributes))) ++
    if outs.isEmpty then []
    else .text " returns " :: wrapped (commaList (outs.map (formal withAttributes)))

def procedure (depth : Nat) (p : Procedure) : List Piece :=
  .text "procedure " :: attributes p.attributes ++ signature true p.name p.params p.ins p.outs ++
    .text ";" :: clauseLines (depth + 1) "requires" p.requires ++
    (if p.modifies.isEmpty then []
      else openedLine (depth + 1) (.text "modifies " :: names p.modifies ++ [.text ";"])) ++
    clauseLines (depth + 1) "ensures" p.ensures

/-- The formals of an implementation are printed without attributes, which the grammar does not take
there. -/
def implementation (depth : Nat) (i : Implementation) : List Piece :=
  .text "implementation " :: attributes i.attributes ++
    signature false i.name i.params i.ins i.outs ++ .space :: body depth i.locals i.body

def declBody (depth : Nat) : Decl → List Piece
  | .constant c => constant c
  | .typeConstructor t => typeConstructor t
  | .typeSynonym t => typeSynonym t
  | .function f => function f
  | .axiomatic a => axiomDecl a
  | .global v => variableDecl v
  | .procedure p => procedure depth p
  | .implementation i => implementation depth i

def decl (d : Decl) : List Piece := line 0 (declBody 0 d)

def standsApart : Decl → Bool
  | .procedure _ | .implementation _ => true
  | .function f => f.body.isSome
  | _ => false

def declsAfter (apart : Bool) : List Decl → List Piece
  | [] => []
  | d :: rest =>
    (if apart || standsApart d then [.newline] else []) ++ decl d ++ declsAfter (standsApart d) rest

def decls : List Decl → List Piece
  | [] => []
  | d :: rest => decl d ++ declsAfter (standsApart d) rest

def program (p : Program) : List Piece := decls p.decls

end Boogie.Layout

namespace Boogie

def Program.text (p : Program) : String := Layout.document (Layout.program p)

def Program.write (p : Program) (sink : Layout.Sink) : Layout.Sink := sink.putAll (Layout.program p)

def Expr.text (e : Expr) : String := Layout.fragment (Layout.expr e)

def Ty.text (t : Ty) : String := Layout.fragment (Layout.ty t)

end Boogie
