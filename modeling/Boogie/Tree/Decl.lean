import Boogie.Tree.Stmt

/-! Declarations. A program is a list of them in the order of the source. -/
namespace Boogie

structure Formal where
  name : Option String
  type : Ty
  whereClause : Option Expr
  incoming : Bool
  attributes : List Attribute
  span : Span

structure Parent where
  ident : Ident
  unique : Bool
  deriving DecidableEq, Repr

structure Constant where
  name : String
  type : Ty
  unique : Bool
  parents : Option (List Parent)
  complete : Bool
  attributes : List Attribute
  span : Span

structure TypeConstructor where
  name : String
  arity : Nat
  attributes : List Attribute
  span : Span

structure TypeSynonym where
  name : String
  params : List Ident
  body : Ty
  attributes : List Attribute
  span : Span

structure Function where
  name : String
  params : List Ident
  formals : List Formal
  result : Formal
  body : Option Expr
  attributes : List Attribute
  span : Span

structure Axiom where
  condition : Expr
  attributes : List Attribute
  span : Span

structure Procedure where
  name : String
  params : List Ident
  ins : List Formal
  outs : List Formal
  requires : List Clause
  modifies : List Ident
  ensures : List Clause
  attributes : List Attribute
  span : Span

structure Implementation where
  name : String
  params : List Ident
  ins : List Formal
  outs : List Formal
  locals : List Variable
  body : StmtList
  attributes : List Attribute
  span : Span

inductive Decl where
  | constant (c : Constant)
  | typeConstructor (t : TypeConstructor)
  | typeSynonym (t : TypeSynonym)
  | function (f : Function)
  | axiomatic (a : Axiom)
  | global (v : Variable)
  | procedure (p : Procedure)
  | implementation (i : Implementation)

namespace Decl

def name : Decl → Option String
  | .constant c => some c.name
  | .typeConstructor t => some t.name
  | .typeSynonym t => some t.name
  | .function f => some f.name
  | .axiomatic _ => none
  | .global v => some v.name
  | .procedure p => some p.name
  | .implementation i => some i.name

def span : Decl → Span
  | .constant c => c.span
  | .typeConstructor t => t.span
  | .typeSynonym t => t.span
  | .function f => f.span
  | .axiomatic a => a.span
  | .global v => v.span
  | .procedure p => p.span
  | .implementation i => i.span

end Decl

structure Program where
  decls : List Decl

namespace Program

/-- The declarations of one sort, in the order of the program, for those who use the tree. -/
def ofSort {α : Type} (p : Program) (sort : Decl → Option α) : List α := p.decls.filterMap sort

def functions (p : Program) : List Function := p.ofSort fun | .function f => some f | _ => none

def axioms (p : Program) : List Axiom := p.ofSort fun | .axiomatic a => some a | _ => none

def procedures (p : Program) : List Procedure := p.ofSort fun | .procedure q => some q | _ => none

def implementations (p : Program) : List Implementation := p.ofSort fun | .implementation i => some i | _ => none

end Program

end Boogie
