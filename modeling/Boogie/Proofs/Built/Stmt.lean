import Boogie.Proofs.Built.Expr
import Boogie.Grammar.Stmt

/-! Statements as they are built. What is gathered of a list is at every moment such that its blocks, read
again one by one, would be gathered the same way. -/
namespace Boogie.Grammar

open Token (Kind)

section Gathering

variable {G : Scope}

def mayFollow (label : Option String) (before : List BigBlock) : Prop :=
  ∀ last ∈ before.head?, last.tail.isSome ∨ label.isSome

structure OpenBlock.IsBuilt (G : Scope) (b : OpenBlock) : Prop where
  label : every G.built b.label
  cmds : every G.built b.cmds
  filled : b.label.isSome ∨ b.cmds ≠ []

structure Gathered.IsBuilt (G : Scope) (g : Gathered) : Prop where
  closed : every G.built g.closed
  filled : ∀ b ∈ g.closed, isFilled b
  apart : g.closed.IsChain fun later b => isApart b later
  opened : ∀ b ∈ g.opened, b.IsBuilt G ∧ mayFollow b.label g.closed
  last : g.opened = none → mayFollow none g.closed

theorem emptyBuilt : Gathered.empty.IsBuilt G where
  closed := everyNil
  filled := nofun
  apart := .nil
  opened := nofun
  last _ := nofun

theorem closeBuilt {g : Gathered} (h : g.IsBuilt G) {b : OpenBlock} {tail : Option Tail}
    (ofLabel : every G.built b.label) (ofCmds : every G.built b.cmds) (ofTail : every G.built tail)
    (filled : b.label.isSome ∨ b.cmds ≠ [] ∨ tail.isSome) (follows : mayFollow b.label g.closed) :
    every G.built (b.close tail :: g.closed) ∧ (∀ x ∈ b.close tail :: g.closed, isFilled x) ∧
      (b.close tail :: g.closed).IsChain fun later b => isApart b later := by
  refine ⟨(everyCons _ _).mpr ⟨?_, h.closed⟩, ?_, List.isChain_cons.mpr ⟨follows, h.apart⟩⟩
  · exact BigBlock.everyMk.mpr ⟨ofLabel, (everyReverse b.cmds).mpr ofCmds, ofTail⟩
  · intro x mem
    rcases List.mem_cons.mp mem with rfl | inside
    · simpa [isFilled, OpenBlock.close] using filled
    · exact h.filled x inside

theorem closeOpenBuilt {g : Gathered} (h : g.IsBuilt G) {b : OpenBlock} (opened : g.opened = some b) :
    every G.built (b.close none :: g.closed) ∧ (∀ x ∈ b.close none :: g.closed, isFilled x) ∧
      (b.close none :: g.closed).IsChain fun later b => isApart b later := by
  obtain ⟨ofB, follows⟩ := h.opened b opened
  refine closeBuilt h ofB.label ofB.cmds everyNone ?_ follows
  rcases ofB.filled with label | cmds
  · exact .inl label
  · exact .inr (.inl cmds)

theorem addCmdBuilt {g : Gathered} (h : g.IsBuilt G) {c : Cmd} (ofC : every G.built c) :
    (g.addCmd c).IsBuilt G := by
  rw [Gathered.addCmd]
  split
  · rename_i b opened
    obtain ⟨ofB, follows⟩ := h.opened b opened
    refine ⟨h.closed, h.filled, h.apart, ?_, nofun⟩
    rintro _ ⟨⟩
    exact ⟨⟨ofB.label, (everyCons c b.cmds).mpr ⟨ofC, ofB.cmds⟩, .inr nofun⟩, follows⟩
  · rename_i none
    refine ⟨h.closed, h.filled, h.apart, ?_, nofun⟩
    rintro _ ⟨⟩
    exact ⟨⟨everyNone, by simp [ofC], .inr nofun⟩, h.last none⟩

theorem addLabelBuilt {g : Gathered} (h : g.IsBuilt G) {id : Ident} (ofId : every G.built id) :
    (g.addLabel id).IsBuilt G := by
  have label : (⟨id.span, some id.name, []⟩ : OpenBlock).IsBuilt G :=
    ⟨(everySome id.name).mpr ofId, everyNil, .inl rfl⟩
  rw [Gathered.addLabel]
  split
  · rename_i b opened
    obtain ⟨closed, filled, apart⟩ := closeOpenBuilt h opened
    refine ⟨closed, filled, apart, ?_, nofun⟩
    rintro _ ⟨⟩
    exact ⟨label, fun _ _ => .inr rfl⟩
  · refine ⟨h.closed, h.filled, h.apart, ?_, nofun⟩
    rintro _ ⟨⟩
    exact ⟨label, fun _ _ => .inr rfl⟩

theorem addTailBuilt {g : Gathered} (h : g.IsBuilt G) {t : Tail} (ofT : every G.built t) :
    (g.addTail t).IsBuilt G := by
  have added {b : OpenBlock} (ofLabel : every G.built b.label) (ofCmds : every G.built b.cmds)
      (follows : mayFollow b.label g.closed) : Gathered.IsBuilt G ⟨b.close (some t) :: g.closed, none⟩ := by
    obtain ⟨closed, filled, apart⟩ :=
      closeBuilt h ofLabel ofCmds ((everySome t).mpr ofT) (.inr (.inr rfl)) follows
    refine ⟨closed, filled, apart, nofun, fun _ => ?_⟩
    rintro _ ⟨⟩
    exact .inl rfl
  rw [Gathered.addTail]
  cases opened : g.opened with
  | some b =>
    obtain ⟨ofB, follows⟩ := h.opened b opened
    exact added ofB.label ofB.cmds follows
  | none => exact added everyNone everyNil (h.last opened)

theorem addBuilt {g : Gathered} (h : g.IsBuilt G) {found : LabelOrCmd} (ok : every G.built found) :
    (g.add found).IsBuilt G := by
  cases found with
  | cmd c => exact addCmdBuilt h ok
  | label id => exact addLabelBuilt h ok
  | mistake => exact h

theorem finishBuilt {g : Gathered} (h : g.IsBuilt G) (closing : Span) :
    every G.built (⟨g.finish closing, closing⟩ : StmtList) := by
  have listed {bs : List BigBlock} (closed : every G.built bs) (filled : ∀ b ∈ bs, isFilled b)
      (apart : bs.IsChain fun later b => isApart b later) (some : bs ≠ []) :
      every G.built (⟨bs.reverse, closing⟩ : StmtList) := by
    refine StmtList.everyMk.mpr ⟨⟨?_, .inr ⟨?_, ?_⟩⟩, (everyReverse bs).mpr closed⟩
    · simpa [StmtList.isShaped] using some
    · simpa using filled
    · exact List.isChain_reverse.mpr apart
  rw [Gathered.finish]
  split
  · rename_i b opened
    obtain ⟨closed, filled, apart⟩ := closeOpenBuilt h opened
    exact listed closed filled apart nofun
  · split
    · exact StmtList.everyMk.mpr ⟨⟨nofun, .inl ⟨_, rfl, by simp [isFilled]⟩⟩, by simp⟩
    · rename_i some
      exact listed h.closed h.filled h.apart (by simpa using some)

end Gathering

section Statements

variable {G : Scope} {n : Nat} {sort : Kind → Prop}

theorem buildsCondition : Builds G n sort condition := by
  refine .ifEats (by decide) (.pure everyNone) (.ifNext ?_ ?_)
  · exact .bind buildsExpression fun e ok => .pure ((everySome e).mpr ok)
  · exact .any fun _ => .pure everyNone

theorem buildsGuard : Builds G n sort guard := by
  refine .any fun _ => ?_
  refine .bind buildsCondition fun found ok => ?_
  exact .any fun _ => .pure ok

theorem buildsLoopInvariant : Builds G n sort loopInvariant := by
  refine .any fun start => .any fun free => .any fun _ => ?_
  refine .bind (buildsAttributes buildsExpression) fun found ofFound => ?_
  refine .bind buildsExpression fun e ofE => ?_
  exact .any fun _ => .any fun span => .pure ⟨ofE, ofFound⟩

theorem buildsBreakCmd : Builds G n sort breakCmd := by
  have label : Builds G n anywhere
      (ifNext (check .identifier) (do return some (← ident).name) (pure none)) :=
    .ifNext (.bind buildsIdent fun id ok => .pure ((everySome id.name).mpr ok)) (.pure everyNone)
  refine .any fun t => ?_
  refine .bind label fun label ok => ?_
  exact .any fun _ => .any fun span => .pure (Tail.everyBreak.mpr ⟨trivial, ok⟩)

theorem buildsTransferCmd :
    Yields G n sort (fun t => every G.built t ∧ t.isShaped ∧ t.hasValue = false) transferCmd := by
  refine .any fun start => ?_
  refine .ifEats (by decide) ?_ ?_
  · refine .bind buildsIdents fun labels ⟨more, ok⟩ => ?_
    exact .any fun _ => .any fun span => .pure ⟨ok, more, rfl⟩
  · exact .any fun _ => .any fun _ => .any fun span => .pure ⟨trivial, trivial, rfl⟩

variable {stmts : Production StmtList} (nested : Builds G n anywhere stmts)
include nested

theorem buildsWhileCmd (real : ∀ k, sort k → k ≠ .endOfText) : Builds G (n + 1) sort (whileCmd stmts) := by
  refine .anyProgress (.advance real) fun t => ?_
  refine .bind buildsGuard fun condition ofCondition => ?_
  refine .bind (P := every G.built) (.manyNext buildsLoopInvariant) fun invariants ofInvariants => ?_
  refine .any fun _ => ?_
  refine .bind nested fun body ofBody => ?_
  exact .any fun span => .pure (WhileCmd.everyMk.mpr ⟨ofCondition, ofInvariants, ofBody⟩)

theorem buildsIfCmd {next : Production IfCmd} (further : Builds G n (· = .kwIf) next) :
    Builds G (n + 1) (· = .kwIf) (ifCmd stmts next) := by
  have elsePart : Builds G n anywhere (optionalElse stmts next) := by
    refine .ifEats (by decide) (.ifNext ?_ (.ifEats (by decide) ?_ ?_)) (.pure everyNone)
    · have first : Builds G n (fun k => anywhere k ∧ (k == .kwIf) = true) next :=
        further.mono (fun k h => by simpa using h.2) (Nat.le_refl n)
      exact .bind first fun x ok => .pure ((everySome _).mpr ok)
    · exact .bind nested fun body ok => .pure ((everySome _).mpr ok)
    · exact .any fun _ => .pure everyNone
  refine .look fun start => ?_
  refine .anyProgress (.expect (by decide)) fun _ => ?_
  refine .bind buildsGuard fun condition ofCondition => ?_
  refine .any fun _ => ?_
  refine .bind nested fun thenBranch ofThen => ?_
  refine .bind elsePart fun elseBranch ofElse => ?_
  exact .any fun span => .pure (IfCmd.everyMk.mpr ⟨ofCondition, ofThen, ofElse⟩)

theorem buildsConditional : Builds G (n + 1) (· = .kwIf) (conditional stmts) :=
  .nest (P := fun _ => every G.built) (fun _ less _ further _ =>
    buildsIfCmd (nested.mono (fun _ _ => trivial) (Nat.le_of_lt_succ less)) (further ())) ()

theorem buildsBlockTail : Builds G (n + 1) sort (blockTail stmts) := by
  refine .byKind fun k _ => ?_
  split
  · exact .bind (buildsConditional nested) fun x ok => .pure ((everySome _).mpr ⟨trivial, ok⟩)
  · exact .bind (buildsWhileCmd nested (by rintro _ rfl; decide)) fun x ok =>
      .pure ((everySome _).mpr ⟨trivial, ok⟩)
  · exact .bind buildsBreakCmd fun x ok => .pure ((everySome _).mpr ok)
  · exact .bind buildsTransferCmd fun x ⟨ok, shaped⟩ => .pure ((everySome _).mpr ⟨shaped, ok⟩)
  · exact .bind buildsTransferCmd fun x ⟨ok, shaped⟩ => .pure ((everySome _).mpr ⟨shaped, ok⟩)
  · exact .any fun _ => .any fun _ => .any fun _ => .pure everyNone

theorem buildsStmtItem {g : Gathered} (h : g.IsBuilt G) :
    Yields G (n + 1) sort (Gathered.IsBuilt G) (stmtItem stmts g) := by
  refine .ifNext ?_ ?_
  · exact .bind (buildsLabelOrCmd buildsExpression) fun found ok => .pure (addBuilt h ok)
  · refine .bind (buildsBlockTail nested) fun tail ok => .pure ?_
    cases tail with
    | some t => exact addTailBuilt h ((everySome t).mp ok)
    | none => exact h

theorem buildsStmtsBody : Builds G (n + 1) sort (stmtsBody stmts) := by
  have gathered : Yields G (n + 1) sort (Gathered.IsBuilt G)
      (whileHolds (nextIs fun k => !listEnd.contains k) (stmtItem stmts) .empty) :=
    .whileNext emptyBuilt fun g h => buildsStmtItem nested h
  refine .bind gathered fun g h => ?_
  exact .any fun closing => .any fun _ => .pure (finishBuilt h closing)

end Statements

theorem buildsStmtList {G : Scope} {n : Nat} {sort : Kind → Prop} : Builds G n sort stmtList :=
  Yields.always (.nest (P := fun _ => every G.built) (fun _ _ _ ok _ => buildsStmtsBody (ok ())) ())

end Boogie.Grammar
