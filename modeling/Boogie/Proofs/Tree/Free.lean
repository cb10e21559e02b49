import Boogie.Tree.Decl

/-! The names of variables that are free in a tree: those it uses outside the scope of all binders of them.
What an expression binds is in scope in the bound variables, the attributes, the triggers and the body; the
values of a `let` stand outside. Functions, procedures and labels do not share the names of variables. -/
namespace Boogie

def unbound (bound names : List String) : List String := names.filter (· ∉ bound)

theorem memUnbound {bound names : List String} {x : String} : x ∈ unbound bound names ↔ x ∈ names ∧ x ∉ bound := by
  simp [unbound]

mutual

def Expr.free : Expr → List String
  | .literal _ _ => []
  | .name _ name => [name]
  | .old _ body => Expr.free body
  | .apply _ _ args => Expr.freeAll args
  | .bind _ _ _ vars as ts body =>
    unbound (vars.map Variable.name)
      (Variable.freeAll vars ++ Attribute.freeAll as ++ Trigger.freeAll ts ++ Expr.free body)
  | .letIn _ vars values as body =>
    Expr.freeAll values ++
      unbound (vars.map LetVar.name) (LetVar.freeAll vars ++ Attribute.freeAll as ++ Expr.free body)
  | .code _ locals blocks =>
    unbound (locals.map Variable.name) (Variable.freeAll locals ++ Block.freeAll blocks)

def Expr.freeAll : List Expr → List String
  | [] => []
  | e :: rest => Expr.free e ++ Expr.freeAll rest

def Expr.free? : Option Expr → List String
  | none => []
  | some e => Expr.free e

def AttributeParam.free : AttributeParam → List String
  | .string _ => []
  | .expr e => Expr.free e

def AttributeParam.freeAll : List AttributeParam → List String
  | [] => []
  | p :: rest => AttributeParam.free p ++ AttributeParam.freeAll rest

def Attribute.free : Attribute → List String
  | ⟨_, params, _⟩ => AttributeParam.freeAll params

def Attribute.freeAll : List Attribute → List String
  | [] => []
  | a :: rest => Attribute.free a ++ Attribute.freeAll rest

def Trigger.free : Trigger → List String
  | ⟨_, exprs, _⟩ => Expr.freeAll exprs

def Trigger.freeAll : List Trigger → List String
  | [] => []
  | t :: rest => Trigger.free t ++ Trigger.freeAll rest

def Variable.free : Variable → List String
  | ⟨_, _, whereClause, as, _⟩ => Expr.free? whereClause ++ Attribute.freeAll as

def Variable.freeAll : List Variable → List String
  | [] => []
  | v :: rest => Variable.free v ++ Variable.freeAll rest

def LetVar.free : LetVar → List String
  | ⟨_, as, _⟩ => Attribute.freeAll as

def LetVar.freeAll : List LetVar → List String
  | [] => []
  | v :: rest => LetVar.free v ++ LetVar.freeAll rest

def Target.free : Target → List String
  | .name id => [id.name]
  | .element _ map indexes => Target.free map ++ Expr.freeAll indexes

def Target.freeAll : List Target → List String
  | [] => []
  | t :: rest => Target.free t ++ Target.freeAll rest

def Call.free : Call → List String
  | ⟨_, _, _, ins, outs, as, _⟩ => Expr.freeAll ins ++ outs.map Ident.name ++ Attribute.freeAll as

def Call.freeAll : List Call → List String
  | [] => []
  | x :: rest => Call.free x ++ Call.freeAll rest

def Cmd.free : Cmd → List String
  | .assign _ targets values => Target.freeAll targets ++ Expr.freeAll values
  | .assert _ as e | .assume _ as e => Attribute.freeAll as ++ Expr.free e
  | .havoc _ vars => vars.map Ident.name
  | .call _ x => Call.free x
  | .parallel _ calls as => Call.freeAll calls ++ Attribute.freeAll as
  | .yield _ => []

def Cmd.freeAll : List Cmd → List String
  | [] => []
  | x :: rest => Cmd.free x ++ Cmd.freeAll rest

def Transfer.free : Transfer → List String
  | .goto _ _ | .leave _ => []
  | .leaveWith _ value => Expr.free value

def Block.free : Block → List String
  | ⟨_, cmds, transfer, _⟩ => Cmd.freeAll cmds ++ Transfer.free transfer

def Block.freeAll : List Block → List String
  | [] => []
  | b :: rest => Block.free b ++ Block.freeAll rest

end

end Boogie
