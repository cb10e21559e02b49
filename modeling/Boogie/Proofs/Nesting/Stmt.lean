import Boogie.Proofs.Nesting.Expr

/-! Where the expressions stand that statements hold. -/
namespace Boogie.Grammar

open Token (Kind)

section Gathering

instance : Outermost OpenBlock := ⟨fun b => outermost b.cmds⟩
instance : Outermost Gathered := ⟨fun g => outermost g.closed ++ outermost g.opened⟩

@[simp] theorem outermostGathered (closed : List BigBlock) (opened : Option OpenBlock) :
    outermost (⟨closed, opened⟩ : Gathered) = outermost closed ++ outermost opened := rfl

@[simp] theorem outermostOpened (b : OpenBlock) : outermost b = outermost b.cmds := rfl

@[simp] theorem memClose {b : OpenBlock} {tail : Option Tail} {e : Expr} :
    e ∈ outermost (b.close tail) ↔ e ∈ outermost b ∨ e ∈ outermost tail := by
  rw [OpenBlock.close, BigBlock.outermostMk, List.mem_append, memReverse]
  rfl

theorem outermostAdd (g : Gathered) (found : LabelOrCmd) :
    outermost (g.add found) ⊆ outermost g ++ outermost found := by
  obtain ⟨closed, opened⟩ := g
  intro e
  cases found with
  | cmd c => cases opened <;> simp [Gathered.add, Gathered.addCmd, or_comm, or_left_comm]
  | label id => cases opened <;> simp [Gathered.add, Gathered.addLabel, or_comm]
  | mistake => simp [Gathered.add]

theorem outermostAddTail (g : Gathered) (tail : Tail) : outermost (g.addTail tail) ⊆ outermost g ++ outermost tail := by
  obtain ⟨closed, opened⟩ := g
  intro e
  cases opened <;> simp [Gathered.addTail, or_comm, or_left_comm]

theorem outermostFinish (g : Gathered) (closing : Span) : outermost (g.finish closing) ⊆ outermost g := by
  obtain ⟨closed, opened⟩ := g
  intro e
  cases opened with
  | some b => simp [Gathered.finish, or_comm]
  | none => cases closed <;> simp [Gathered.finish, or_comm]

end Gathering

section Statements

variable {row : TokenRow} {n : Nat} {sort : Kind → Prop}

theorem housesGuard : Houses row n sort [] guard := by
  have inner : Houses row n anywhere [] condition := by
    refine .ifEats (.pure (List.nil_subset _)) (.ifNext ?_ (.fault (.syntaxError _)))
    exact .last housesExpression fun e => by simp
  exact .skip fun _ => .bind inner fun found => .skip fun _ => .pure (by simp)

theorem housesInvariant : Houses row n sort [] loopInvariant := by
  refine .look fun start => .skip fun free => .skip fun _ => .bind (housesAttributes housesExpression) fun found => ?_
  exact .bind housesExpression fun e => .skip fun _ => .skip fun span => .pure (by simp)

theorem housesBreak : Houses row n sort [] breakCmd :=
  .skip fun t => .skip fun label => .skip fun _ => .skip fun span => .pure (by simp)

theorem housesTransfer : Houses row n sort [] transferCmd := by
  refine .look fun start => .ifEats ?_ ?_
  · exact .skip fun labels => .skip fun _ => .skip fun span => .pure (by simp)
  · exact .skip fun _ => .skip fun _ => .skip fun span => .pure (by simp)

variable {stmts : Production StmtList} (inner : Houses row n anywhere [] stmts)
include inner

theorem housesWhile : Houses row (n + 1) (· = .kwWhile) [] (whileCmd stmts) := by
  refine .token (by decide) fun t => .bind housesGuard fun condition => .bind (.manyNext housesInvariant) ?_
  exact fun invariants => .skip fun _ => .bind inner fun body => .skip fun span => .pure (by simp)

theorem housesIf {conditional : Production IfCmd} (next : Houses row n anywhere [] conditional) :
    Houses row (n + 1) sort [] (ifCmd stmts conditional) := by
  have other : Houses row n anywhere [] (optionalElse stmts conditional) := by
    refine .ifEats (.ifNext ?_ (.ifEats ?_ (.fault (.syntaxError _)))) (.pure (List.nil_subset _))
    · exact .last next.always fun command => by simp
    · exact .last inner.always fun body => by simp
  refine .look fun start => .expectThen (by decide) (.bind housesGuard fun condition => .skip fun _ => ?_)
  exact .bind inner fun thenBranch => .bind other fun elseBranch => .skip fun span => .pure (by simp)

theorem housesConditional : Houses row (n + 1) sort [] (conditional stmts) := by
  refine .nestBelow (fun k less next found _ => ?_) ()
  exact housesIf (inner.fewer (Nat.le_of_lt_succ less)) (found ())

theorem housesBlockTail : Houses row (n + 1) sort [] (blockTail stmts) := by
  refine .byKind fun x _ => ?_
  split
  · exact .last (housesConditional inner) fun command => by simp
  · exact .last (housesWhile inner) fun command => by simp
  · exact .last housesBreak fun command => by simp
  · exact .last housesTransfer fun command => by simp
  · exact .last housesTransfer fun command => by simp
  · exact .fault (.syntaxError _)

theorem housesItem {g : Gathered} : Houses row (n + 1) sort (outermost g) (stmtItem stmts g) := by
  refine .ifNext (.bind (housesLabelOrCmd housesExpression) fun found => .pure (outermostAdd g found)) ?_
  refine .bind (housesBlockTail inner) fun tail => ?_
  cases tail with
  | none => exact .pure (List.subset_append_left _ _)
  | some tail => exact .pure (outermostAddTail g tail)

theorem housesBody : Houses row (n + 1) sort [] (stmtsBody stmts) := by
  have loop : Houses row (n + 1) sort [] (whileHolds (nextIs fun k => !listEnd.contains k) (stmtItem stmts) .empty) :=
    .whileNext (List.nil_subset _) fun g => housesItem inner
  refine .bind loop fun g => .look fun closing => .skip fun _ => .pure ?_
  rw [StmtList.outermostMk]
  exact outermostFinish g closing

end Statements

theorem housesStmtList {row : TokenRow} {n : Nat} {sort : Kind → Prop} : Houses row n sort [] stmtList :=
  .nest (fun _ _ inner _ => housesBody (inner ())) ()

end Boogie.Grammar
