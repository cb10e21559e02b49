import Boogie.Proofs.Tree.Every

/-! Well-formed trees: what a node must be like beyond the types of its parts. -/
namespace Boogie

def Operator.fits (op : Operator) (operands : Nat) : Prop := ∀ n ∈ op.arity, operands = n

def Ty.isShaped : Ty → Prop
  | .param _ _ => False
  | _ => True

def Expr.isShaped : Expr → Prop
  | .apply _ op args => op.fits args.length
  | .bind _ binder ps vars _ ts _ => (ps ≠ [] ∨ vars ≠ []) ∧ (binder = .lambda → ts = [])
  | .letIn _ vars values _ _ => vars ≠ [] ∧ values ≠ []
  | .code _ _ blocks => blocks ≠ []
  | _ => True

def Attribute.isShaped (a : Attribute) : Prop := a.key ≠ "nopats"

def Trigger.isShaped (t : Trigger) : Prop := if t.positive then t.exprs ≠ [] else t.exprs.length = 1

def Call.isParallel (attributes : List Attribute) (x : Call) : Prop :=
  x.isAsync = false ∧ x.isFree = false ∧ x.attributes = attributes

def Cmd.isShaped : Cmd → Prop
  | .assign _ targets values => targets ≠ [] ∧ values ≠ []
  | .havoc _ vars => vars ≠ []
  | .parallel _ calls attributes => ∀ x ∈ calls, x.isParallel attributes
  | _ => True

def Transfer.isShaped : Transfer → Prop
  | .goto _ labels => labels ≠ []
  | _ => True

def Transfer.hasValue : Transfer → Bool
  | .leaveWith _ _ => true
  | _ => false

def Block.isShaped (b : Block) : Prop := b.transfer.isShaped

def Tail.isShaped : Tail → Prop
  | .transfer command => command.isShaped ∧ command.hasValue = false
  | _ => True

def StmtList.isShaped (l : StmtList) : Prop := l.blocks ≠ []

def Decl.isShaped : Decl → Prop
  | .function f => f.body ≠ none → Attribute.isSet f.attributes "inline" = true
  | .procedure p => ∀ f ∈ p.ins ++ p.outs, f.name ≠ none
  | .implementation i => ∀ f ∈ i.ins ++ i.outs, f.name ≠ none ∧ f.whereClause = none
  | _ => True

def wellFormed : Checks where
  name _ := True
  ty := Ty.isShaped
  expr := Expr.isShaped
  attr := Attribute.isShaped
  trigger := Trigger.isShaped
  cmd := Cmd.isShaped
  block := Block.isShaped
  tail := Tail.isShaped
  stmtList := StmtList.isShaped
  decl := Decl.isShaped

def Program.IsWellFormed (p : Program) : Prop := every wellFormed p

end Boogie
