import Boogie.Layout.Expr
import Boogie.Proofs.Built.Checks
import Boogie.Proofs.Printed.Literals

/-! What can be printed and read back. -/
namespace Boogie.Layout

open Grammar (tyFixed exprFixed cmdFixed blockRead stmtListFixed declFixed declRead)

def leadsWith (op : Operator) (first : Expr) : Bool :=
  match op with
  | .binary op => !wrapsLeft op first
  | .concat => decide (concatPrecedence ≤ precedence first)
  | .select _ | .store _ | .extract _ _ => decide (atomPrecedence ≤ precedence first)
  | _ => false

def isString : Literal → Bool
  | .string _ => true
  | _ => false

mutual

def opensWithString : Expr → Bool
  | .literal _ v => isString v
  | .apply _ op args => firstOpensWithString op args
  | _ => false

def firstOpensWithString (op : Operator) : List Expr → Bool
  | first :: _ => leadsWith op first && opensWithString first
  | [] => false

end

def stringless : Checks where
  name _ := True
  ty _ := True
  expr
    | .literal _ v => isString v = false
    | _ => True
  attr _ := True
  trigger _ := True
  cmd _ := True
  block _ := True
  tail _ := True
  stmtList _ := True
  decl _ := True

theorem opensPlainly : ∀ e, Expr.passes stringless e → opensWithString e = false
  | .literal _ _, pass => pass
  | .apply _ op args, ⟨_, _, pass⟩ => firstOpensPlainly op args pass
  | .name _ _, _ | .old _ _, _ | .bind _ _ _ _ _ _ _, _ | .letIn _ _ _ _ _, _ | .code _ _ _, _ => rfl
where
  firstOpensPlainly (op : Operator) : ∀ es, Expr.allPass stringless es → firstOpensWithString op es = false
    | first :: _, ⟨ofFirst, _⟩ => by rw [firstOpensWithString, opensPlainly first ofFirst, Bool.and_false]
    | [], _ => rfl

def isAttributePlain (a : Attribute) : Prop := ∀ e, .expr e ∈ a.params → opensWithString e = false

def isTriggerPlain (t : Trigger) : Prop := t.positive = false → ∀ e ∈ t.exprs, opensWithString e = false

def literalLegible : Expr → Prop
  | .literal _ v => IsLegible v
  | _ => True

def printable : Checks where
  name := isWritten
  ty t := t.isShaped ∧ tyFixed t
  expr e := e.isShaped ∧ exprFixed e ∧ literalLegible e
  attr a := a.isShaped ∧ (∀ content, .string content ∈ a.params → isQuotable content) ∧ isAttributePlain a
  trigger t := t.isShaped ∧ isTriggerPlain t
  cmd c := c.isShaped ∧ cmdFixed c
  block b := b.isShaped ∧ blockRead b
  tail := Tail.isShaped
  stmtList l := l.isShaped ∧ stmtListFixed l
  decl d := d.isShaped ∧ declFixed d ∧ declRead d

end Boogie.Layout
