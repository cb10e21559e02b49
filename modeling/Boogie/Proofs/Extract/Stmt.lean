import Boogie.Proofs.Extract.Expr

/-! Bit ranges in statements. -/
namespace Boogie.Grammar

open Token (Kind Word)

section Gathering

instance : Extracting OpenBlock := ⟨fun b => extracts b.cmds⟩
instance : Extracting Gathered := ⟨fun g => extracts g.closed + extracts g.opened⟩

theorem extractsGathered (g : Gathered) : extracts g = extracts g.closed + extracts g.opened := rfl

@[simp] theorem extractsOpened (b : OpenBlock) : extracts b = extracts b.cmds := rfl

@[simp] theorem extractsClose (b : OpenBlock) (tail : Option Tail) :
    extracts (b.close tail) = extracts b + extracts tail := by
  simp [OpenBlock.close]

theorem extractsAdd (g : Gathered) (found : LabelOrCmd) : extracts (g.add found) = extracts g + extracts found := by
  obtain ⟨closed, opened⟩ := g
  cases found with
  | cmd c => cases opened <;> simp [Gathered.add, Gathered.addCmd, extractsGathered, add_comm, add_left_comm]
  | label id => cases opened <;> simp [Gathered.add, Gathered.addLabel, extractsGathered, add_comm]
  | mistake => simp [Gathered.add]

theorem extractsAddTail (g : Gathered) (tail : Tail) : extracts (g.addTail tail) = extracts g + extracts tail := by
  obtain ⟨closed, opened⟩ := g
  cases opened <;> simp [Gathered.addTail, extractsGathered, add_comm, add_left_comm]

theorem extractsFinish (g : Gathered) (closing : Span) : extracts (g.finish closing) = extracts g := by
  obtain ⟨closed, opened⟩ := g
  cases opened with
  | some b => simp [Gathered.finish, extractsGathered]
  | none => cases closed <;> simp [Gathered.finish, extractsGathered, add_comm]

end Gathering

section Statements

variable {n : Nat} {sort : Kind → Prop}

theorem tellsGuard : Tells n sort 0 guard := by
  have inner : Tells n anywhere 0 condition := by
    refine .ifEats (by decide) (.pure le_rfl) (.ifNext (.last tellsExpression fun e => by simp) ?_)
    exact .fault (.syntaxError _)
  exact .expect (by decide) (.bind inner fun found => .expect (by decide) (.pure (by simp)))

theorem tellsInvariant : Tells n sort 0 loopInvariant := by
  refine .look fun start => .eatAny (by decide) fun free => .expect (by decide) ?_
  refine .bind (tellsAttributes tellsExpression) fun found => .bind tellsExpression fun e => .expect (by decide) ?_
  exact .spanFrom fun span => .pure (by simp)

theorem tellsBreak : Tells n (· = .kwBreak) 0 breakCmd := by
  have label : Tells n anywhere 0 (ifNext (check .identifier) (do return some (← ident).name) (pure none)) :=
    .ifNext (.ident fun id => .pure (by simp)) (.pure le_rfl)
  refine .word (by decide) fun t => .bind label fun label => .expect (by decide) (.spanFrom fun span => .pure ?_)
  cases label <;> simp

theorem tellsTransfer : Tells n sort 0 transferCmd := by
  refine .look fun start => .ifEats (by decide) (.idents fun labels _ => .expect (by decide) ?_) ?_
  · exact .spanFrom fun span => .pure (by simp)
  · exact .expect (by decide) (.expect (by decide) (.spanFrom fun span => .pure (by simp)))

variable {stmts : Production StmtList} (inner : Tells n anywhere 0 stmts)
include inner

theorem tellsWhile : Tells (n + 1) (· = .kwWhile) 0 (whileCmd stmts) := by
  refine .token (by decide) fun t => .bind tellsGuard fun condition => ?_
  refine .bind (.manyNext tellsInvariant) fun invariants => ?_
  exact .expect (by decide) (.bind inner fun body => .spanFrom fun span => .pure (by simp))

theorem tellsIf {conditional : Production IfCmd} (next : Tells n anywhere 0 conditional) :
    Tells (n + 1) sort 0 (ifCmd stmts conditional) := by
  have other : Tells n anywhere 0 (optionalElse stmts conditional) := by
    refine .ifEats (by decide) (.ifNext ?_ (.ifEats (by decide) ?_ (.fault (.syntaxError _)))) (.pure le_rfl)
    · exact .last next.always fun command => by simp
    · exact .last inner.always fun body => by simp
  refine .look fun start => .expectThen (by decide) (.bind tellsGuard fun condition => .expect (by decide) ?_)
  exact .bind inner fun thenBranch => .bind other fun elseBranch => .spanFrom fun span => .pure (by simp)

theorem tellsConditional : Tells (n + 1) sort 0 (conditional stmts) := by
  refine Finds.always (.nestBelow (T := fun _ => Within 0) (fun k less next found _ => ?_) ())
  exact tellsIf (Finds.mono inner (fun _ h => h) (Nat.le_of_lt_succ less)) (found ())

theorem tellsBlockTail : Finds anywhere (n + 1) sort (LooselyWithin 0) (blockTail stmts) := by
  refine .byKind fun k _ => ?_
  split
  · refine Tells.loosely (.last (tellsConditional inner) fun command => by simp) (by rintro _ rfl; decide)
  · refine Tells.loosely (.last (tellsWhile inner) fun command => by simp) (by rintro _ rfl; decide)
  · refine Tells.loosely (.last tellsBreak fun command => by simp) (by rintro _ rfl; decide)
  · refine Tells.loosely (.last tellsTransfer fun command => by simp) (by rintro _ rfl; decide)
  · refine Tells.loosely (.last tellsTransfer fun command => by simp) (by rintro _ rfl; decide)
  · exact .fault (.syntaxError _)

theorem tellsItem {g : Gathered} : Finds anywhere (n + 1) sort (LooselyWithin (extracts g)) (stmtItem stmts g) := by
  refine .ifNext ?_ ?_
  · have item := findsLabelOrCmd (n := n + 1) tellsExpression
    refine .bind (item.mono (fun _ h => h.2) (Nat.le_refl _)) fun ws found ⟨ranges, loose, enough⟩ => .pure ?_
    rw [List.append_nil]
    refine ⟨ranges, loose, ?_⟩
    rw [extractsAdd]
    simpa using enough
  · refine .bind (tellsBlockTail inner) fun ws tail ⟨ranges, loose, enough⟩ => .pure ?_
    rw [List.append_nil]
    refine ⟨ranges, loose, ?_⟩
    cases tail with
    | none => simpa using enough
    | some tail => simpa [extractsAddTail] using enough

theorem tellsBody : Tells (n + 1) sort 0 (stmtsBody stmts) := by
  have loop : Finds anywhere (n + 1) sort (LooselyWithin 0)
      (whileHolds (nextIs fun k => !listEnd.contains k) (stmtItem stmts) .empty) := whileLoosely fun g => tellsItem inner
  have whole : Finds anywhere (n + 1) sort (BegunWithin 0) (stmtsBody stmts) := by
    refine findsLoosely loop fun g => .look fun closing => .expect (by decide) fun text => .pure ?_
    refine ⟨⟨_, _, rfl, rfl⟩, .word nofun (.nil ?_)⟩
    rw [StmtList.extractsMk, extractsFinish, zero_add]
  exact whole.weaken fun _ _ found => found.2

end Statements

theorem tellsStmtList {n : Nat} {sort : Kind → Prop} : Tells n sort 0 stmtList :=
  Finds.always (.nest (T := fun _ => Within 0) (fun _ _ inner _ => tellsBody (inner ())) ())

end Boogie.Grammar
