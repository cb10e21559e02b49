import Boogie.Proofs.Printed.Accepted
import Boogie.Proofs.Printed.Lines
import Boogie.Proofs.Selection

/-! Directives in printed programs. A line of a declaration or of a statement begins with a keyword, with a
label or with a target that is assigned to. A target by itself has a space behind it and may be taken for a
directive. -/
namespace Boogie

namespace Layout

/-- A line of the command alone is a directive: a name that reads like one is assigned to. -/
def opensDirective : Cmd → Bool
  | .assign _ [.name id] _ => directiveNames.contains id.name
  | _ => false

theorem elementFront (span : Span) (indexes : List Expr) : ∀ map, Target.passes unbroken map →
    ∃ n more, isWritten n ∧ chars (target (.element span map indexes)) = (Name.escape n).toList ++ '[' :: more
  | .name id, named => ⟨id.name, chars (commaList (exprs indexes)) ++ [']'], named, by simp [target, name]⟩
  | .element inner map others, ⟨pass, _⟩ => by
    obtain ⟨n, more, written, same⟩ := elementFront inner others map pass
    refine ⟨n, more ++ '[' :: chars (commaList (exprs indexes)) ++ [']'], written, ?_⟩
    rw [target]
    simp [same]

theorem laysAssign {span : Span} {targets : List Target} {values : List Expr} (some : targets ≠ [])
    (pass : every unbroken targets) (inline : IsInline (cmd (.assign span targets values))) :
    Lays (opensDirective (.assign span targets values) = false) true (cmd (.assign span targets values)) false := by
  obtain ⟨t, rest, rfl⟩ := List.exists_cons_of_ne_nil some
  obtain ⟨first, _⟩ := List.forall_mem_cons.mp pass
  refine Lays.headed inline fun more => ?_
  rw [cmd, targetsMap, List.map_cons]
  cases t with
  | name id =>
    have named : isWritten id.name := first
    cases rest with
    | nil => simpa [target, name, commaList, opensDirective] using directiveSpaced named _
    | cons next others =>
      have front := directiveMarked named (c := ',') (by decide) (by decide)
      simpa [target, name, commaList, opensDirective] using front _
  | element inner map indexes =>
    obtain ⟨n, after, written, same⟩ := elementFront inner indexes map first.1
    have front := directiveMarked written (c := '[') (by decide) (by decide)
    cases rest with
    | nil => simpa [same, commaList, opensDirective] using front _
    | cons next others => simpa [same, commaList, opensDirective] using front _

theorem laysCmd {c : Cmd} (pass : every unbroken c) : Lays (opensDirective c = false) true (cmd c) false := by
  have inline : IsInline (cmd c) := inliningFollows.ofCmd c pass
  have never (h : Lays True true (cmd c) false) (none : opensDirective c = false) :
      Lays (opensDirective c = false) true (cmd c) false := h.iff (by simp [none])
  cases c with
  | assign span targets values => exact laysAssign pass.1.1 ((Target.allPassIff _ _).mp pass.2.1) inline
  | assert => exact never (.word inline (by decide)) rfl
  | assume => exact never (.word inline (by decide)) rfl
  | havoc => exact never (.word inline (by decide)) rfl
  | call span x =>
    refine never (.word inline ?_) rfl
    cases x.isAsync <;> cases x.isFree <;> decide
  | parallel => exact never (.word inline (by decide)) rfl
  | yield => exact never (.word inline (by decide)) rfl

end Layout

mutual

def StmtList.commands : StmtList → List Cmd
  | ⟨blocks, _⟩ => BigBlock.allCommands blocks

def BigBlock.allCommands : List BigBlock → List Cmd
  | [] => []
  | b :: rest => b.commands ++ BigBlock.allCommands rest

def BigBlock.commands : BigBlock → List Cmd
  | ⟨_, _, cmds, tail⟩ => cmds ++ Tail.optionCommands tail

def Tail.optionCommands : Option Tail → List Cmd
  | none => []
  | some t => t.commands

def Tail.commands : Tail → List Cmd
  | .branch x => x.commands
  | .loop x => x.commands
  | .break _ _ | .transfer _ => []

def IfCmd.commands : IfCmd → List Cmd
  | ⟨_, thenBranch, elseBranch, _⟩ => thenBranch.commands ++ ElseBranch.optionCommands elseBranch

def ElseBranch.optionCommands : Option ElseBranch → List Cmd
  | none => []
  | some b => b.commands

def ElseBranch.commands : ElseBranch → List Cmd
  | .elseIf x => x.commands
  | .block body => body.commands

def WhileCmd.commands : WhileCmd → List Cmd
  | ⟨_, _, body, _⟩ => body.commands

end

theorem BigBlock.allCommandsFlat (bs : List BigBlock) : allCommands bs = bs.flatMap BigBlock.commands := by
  induction bs with
  | nil => rfl
  | cons b rest ih => rw [allCommands, ih, List.flatMap_cons]

def Decl.commands : Decl → List Cmd
  | .implementation i => i.body.commands
  | _ => []

def Program.commands (p : Program) : List Cmd := p.decls.flatMap Decl.commands

namespace Layout

def NoneOpens (cs : List Cmd) : Prop := ∀ c ∈ cs, opensDirective c = false

theorem noneOpensNil : NoneOpens [] := List.forall_mem_nil _

theorem noneOpensAppend {cs ds : List Cmd} : NoneOpens (cs ++ ds) ↔ NoneOpens cs ∧ NoneOpens ds :=
  List.forall_mem_append

theorem noneOpensEach {α : Type} {as : List α} {commands : α → List Cmd} :
    NoneOpens (as.flatMap commands) ↔ ∀ a ∈ as, NoneOpens (commands a) := by
  simp only [NoneOpens, List.mem_flatMap]
  exact ⟨fun h a mem c inside => h c ⟨a, mem, inside⟩, fun h c ⟨a, mem, inside⟩ => h a mem c inside⟩

theorem Lays.none {ps : List Piece} {fresh fresh' : Bool} (h : Lays True fresh ps fresh') :
    Lays (NoneOpens []) fresh ps fresh' := h.iff (iff_of_true trivial noneOpensNil)

theorem Lays.anywhere {s : String} {ps : List Piece} (h : IsInline (.text s :: ps))
    (plain : s.toList.head?.any opensPlain = true) (fresh : Bool) :
    Lays True fresh (.text s :: ps) false := by
  cases fresh with
  | true => exact .word h plain
  | false => exact .inline h

theorem laysClauses (keyword : String) (opens : ∀ free : Bool,
    ((if free then "free " else "") ++ keyword ++ " ").toList.head?.any opensPlain = true)
    (plain : '\n' ∉ keyword.toList) (depth : Nat) {cs : List Clause} (pass : every unbroken cs) :
    Lays True false (clauseLines depth keyword cs) false :=
  (Lays.each fun c mem => .openedLine (.word (inlineClause plain (pass c mem)) (opens c.free))).iff (by simp)

theorem laysInvariants {invariants : List Clause} (pass : every unbroken invariants) (depth : Nat) :
    ∃ fresh, Lays True false (invariantLines depth invariants) fresh := by
  rw [invariantLines]
  split
  · exact ⟨false, .inline (by simp)⟩
  · exact ⟨true, (laysClauses _ (by decide) (by decide) _ pass).append (.cons .newline .indent)⟩

theorem laysLabelLine {label : Option String} (pass : every unbroken label) (depth : Nat) :
    Lays True true (labelLine depth label) true := by
  cases label with
  | none => exact .nil
  | some n =>
    have named : isWritten n := pass n rfl
    refine .line (.headed (by simp [inlineName named]) fun more => iff_of_true ?_ trivial)
    simpa [name] using directiveMarked named (c := ':') (by decide) (by decide) more

def stmtLays : StmtFacts where
  stmts l := ∀ depth, Lays (NoneOpens l.commands) true (stmts depth l) true
  block b := ∀ depth, Lays (NoneOpens b.commands) true (bigBlock depth b) true
  tail t := ∀ depth, Lays (NoneOpens t.commands) true (tail depth t) false
  branch x := ∀ depth fresh, Lays (NoneOpens x.commands) fresh (ifCmd depth x) false
  other b := ∀ depth, Lays (NoneOpens b.commands) false (elseBranch depth b) false
  loop x := ∀ depth, Lays (NoneOpens x.commands) true (whileCmd depth x) false

theorem laysOpening (fresh : Bool) : Lays True fresh [.text "\x7b", .newline] true :=
  have brace : Lays True fresh [.text "\x7b"] false := .anywhere (by simp) (by decide) fresh
  brace.append .newline

theorem laysClosing {depth : Nat} : Lays True true [lineStart depth, .text "\x7d"] false :=
  .cons .indent (.word (by simp) (by decide))

theorem laysNested {l : StmtList} (h : stmtLays.stmts l) (depth : Nat) (fresh : Bool) :
    Lays (NoneOpens l.commands) fresh (nested depth l) false := by
  obtain ⟨blocks, closing⟩ := l
  exact ((laysOpening fresh).append (h (depth + 1))).before laysClosing

theorem stmtLaysFollows : stmtLays.Follow unbroken where
  stmts _ ofBlocks depth := by
    rw [stmts, bigBlocksFlat, StmtList.commands, BigBlock.allCommandsFlat]
    exact (Lays.each fun b mem => ofBlocks b mem depth).iff noneOpensEach.symm
  block named ofCmds ofTail depth := by
    rename_i cmds tail
    have last : Lays (NoneOpens (Tail.optionCommands tail)) true (optionalTail depth tail) true := by
      cases tail with
      | none => exact .none .nil
      | some t => exact .line (ofTail t rfl depth)
    have middle : Lays (NoneOpens cmds) true (cmdLines depth cmds) true :=
      .each fun c mem => .line (laysCmd (ofCmds c mem))
    exact (((laysLabelLine named depth).append middle).both last).iff noneOpensAppend.symm
  branchTail ofX depth := ofX depth true
  loopTail ofX := ofX
  leave named _ := .none (.word (by simp [inlineBreakLabel named]) (by decide))
  transfer _ ofX _ := by
    rename_i x _ _
    have inline : IsInline (transfer x) := inliningFollows.ofTransfer x ofX
    cases x <;> exact .none (.word inline (by decide))
  branch ofGuard ofThen ofElse depth fresh := by
    rename_i condition _ elseBranch _
    have front : Lays True fresh (.text "if " :: (guard condition ++ [Piece.space])) false :=
      .anywhere (by simp [inlineGuard ofGuard]) (by decide) fresh
    have last : Lays (NoneOpens (ElseBranch.optionCommands elseBranch)) false (optionalElse depth elseBranch) false := by
      cases elseBranch with
      | none => exact .none .nil
      | some b => exact .cons (.inline (by simp)) (ofElse b rfl depth)
    have whole := ((front.append (laysNested ofThen depth false)).both last).iff noneOpensAppend.symm
    simpa [ifCmd, IfCmd.commands] using whole
  elseIf ofX depth := ofX depth false
  elseBlock ofBody depth := laysNested ofBody depth false
  loop ofGuard ofInvariants ofBody depth := by
    rename_i condition _ _ _
    obtain ⟨fresh, middle⟩ := laysInvariants ofInvariants depth
    have front : Lays True true (.text "while " :: guard condition) false :=
      .word (by simp [inlineGuard ofGuard]) (by decide)
    exact (front.append middle).append (laysNested ofBody depth fresh)

theorem laysVariable {v : Variable} (pass : every unbroken v) : Lays True true (variableDecl v) false := by
  have inline := inlineVariable pass
  cases v
  exact .word inline (by decide)

theorem laysBody {locals : List Variable} {l : StmtList} (ofLocals : every unbroken locals)
    (pass : every unbroken l) (depth : Nat) : Lays (NoneOpens l.commands) false (body depth locals l) false := by
  have declared : Lays True true (locals.flatMap fun v => line (depth + 1) (variableDecl v)) true :=
    (Lays.each fun v mem => .line (laysVariable (ofLocals v mem))).iff (by simp)
  have inside := stmtLaysFollows.ofStmts l pass (depth + 1)
  exact ((((laysOpening false).append declared).append inside).before laysClosing)

theorem laysProcedure {p : Procedure} (pass : every unbroken p) (depth : Nat) :
    Lays True true (procedure depth p) false := by
  obtain ⟨named, ofParams, ofIns, ofOuts, ofRequires, ofModifies, ofEnsures, ofAs⟩ := pass
  have front : Lays True true (.text "procedure " :: (attributes p.attributes ++
      (signature true p.name p.params p.ins p.outs ++ [Piece.text ";"]))) false :=
    .word (by simp [inlineAttributeList ofAs, inlineSignature true named ofParams ofIns ofOuts]) (by decide)
  have required := laysClauses "requires" (by decide) (by decide) (depth + 1) ofRequires
  have ensured := laysClauses "ensures" (by decide) (by decide) (depth + 1) ofEnsures
  have modified : Lays True false (if p.modifies.isEmpty then []
      else openedLine (depth + 1) (.text "modifies " :: names p.modifies ++ [Piece.text ";"])) false := by
    split
    · exact .nil
    · exact .openedLine (.word (by simp [inlineNames ofModifies]) (by decide))
  simpa [procedure] using ((front.append required).append modified).append ensured

theorem laysImplementation {i : Implementation} (pass : every unbroken i) (depth : Nat) :
    Lays (NoneOpens i.body.commands) true (implementation depth i) false := by
  obtain ⟨named, ofParams, ofIns, ofOuts, ofLocals, ofBody, ofAs⟩ := pass
  have front : Lays True true (.text "implementation " :: (attributes i.attributes ++
      (signature false i.name i.params i.ins i.outs ++ [Piece.space]))) false :=
    .word (by simp [inlineAttributeList ofAs, inlineSignature false named ofParams ofIns ofOuts]) (by decide)
  simpa [implementation] using front.append (laysBody ofLocals ofBody depth)

theorem laysDeclBody {d : Decl} (pass : every unbroken d) (depth : Nat) :
    Lays (NoneOpens d.commands) true (declBody depth d) false := by
  have inside := pass.2
  cases d with
  | constant c => exact .none (.word (inlineConstant inside) (by decide))
  | typeConstructor t => exact .none (.word (inlineTypeConstructor inside) (by decide))
  | typeSynonym t => exact .none (.word (inlineTypeSynonym inside) (by decide))
  | function f => exact .none (.word (inlineFunction inside) (by decide))
  | axiomatic a => exact .none (.word (inlineAxiom inside) (by decide))
  | global v => exact .none (laysVariable inside)
  | procedure p => exact .none (laysProcedure inside depth)
  | implementation i => exact laysImplementation inside depth

theorem laysDecl {d : Decl} (pass : every unbroken d) : Lays (NoneOpens d.commands) true (decl d) true :=
  .line (laysDeclBody pass 0)

theorem laysDeclsAfter {ds : List Decl} (pass : every unbroken ds) (apart : Bool) :
    Lays (∀ d ∈ ds, NoneOpens d.commands) true (declsAfter apart ds) true := by
  induction ds generalizing apart with
  | nil => exact .iff (by simp) .nil
  | cons d rest ih =>
    obtain ⟨first, others⟩ := List.forall_mem_cons.mp pass
    have blank : Lays True true (if apart || standsApart d then [.newline] else []) true := by
      split
      · exact .newline
      · exact .nil
    exact ((blank.append (laysDecl first)).both (ih others (standsApart d))).iff List.forall_mem_cons.symm

theorem laysProgram {p : Program} (pass : every unbroken p) : Lays (NoneOpens p.commands) true (program p) true := by
  refine .iff noneOpensEach.symm ?_
  obtain ⟨decls⟩ := p
  cases decls with
  | nil => exact .iff (by simp) .nil
  | cons d rest =>
    obtain ⟨first, others⟩ := List.forall_mem_cons.mp pass
    exact ((laysDecl first).both (laysDeclsAfter others (standsApart d))).iff List.forall_mem_cons.symm

theorem calmProgram {p : Program} (pass : every unbroken p) : Calm true p.text.toList ↔ NoneOpens p.commands := by
  have whole := laysProgram pass []
  rw [List.append_nil] at whole
  rw [Program.text, document, calmEndLine, fragmentToList, whole]
  exact and_iff_left (calmNil true)

end Layout

open Conditional (directive select)

theorem selectUnchanged (defines : List String) (text : List Char) :
    select defines text = ⟨text, []⟩ ↔ Calm true text := by
  constructor
  · intro same line mem
    obtain ⟨shows, _⟩ := Conditional.allLinesShow defines (splitLines text)
    have whole := (Conditional.Selection.mk.inj ((Conditional.selectCounted defines text).symm.trans same)).1
    have lines := Text.splitJoin (shows.filled (splitLinesNe text)) (shows.plain fun line mem => linePlain mem)
    rw [whole] at lines
    obtain ⟨j, there⟩ : ∃ j, (splitLines text)[j]? = some line := List.getElem?_of_mem mem
    have less : j < (splitLines text).length := (List.getElem?_eq_some_iff.mp there).1
    refine Decidable.byContradiction fun marked => marked ?_
    have blanked : ¬ Conditional.Kept (splitLines text) defines j := fun kept => marked (by
      have plain := kept.plain
      rwa [Conditional.mark, there] at plain)
    have empty := shows.blank j less blanked
    rw [← lines] at empty
    rw [Option.some.inj (there.symm.trans empty)]
    rfl
  · exact fun calm => Conditional.selectPlain defines calm

/-- A printed program is selected as it stands, whatever is defined, just if none of its commands assigns to a
single variable that is named like a directive. -/
theorem printedSelected {file source : String} {given : List String} {p : Program}
    (found : p ∈ (Reading.ofSource file source given).program) (defines : List String) :
    select defines p.text.toList = ⟨p.text.toList, []⟩ ↔ ∀ c ∈ p.commands, Layout.opensDirective c = false := by
  rw [selectUnchanged, Layout.calmProgram (Layout.unbrokenOfAccepted found), Layout.NoneOpens]

def directiveAssigned : String := "procedure P() \x7b var #if: int; #if := 2; \x7d"

theorem printedSelectedOfAssigned : ∃ p ∈ (Reading.ofSource "" directiveAssigned []).program,
    (select [] p.text.toList = ⟨p.text.toList, []⟩ ↔ ∀ c ∈ p.commands, Layout.opensDirective c = false) := by
  obtain ⟨p, found⟩ : ∃ p, (Reading.ofSource "" directiveAssigned []).program = some p :=
    Option.isSome_iff_exists.mp (by decide +kernel)
  exact ⟨p, found, printedSelected found []⟩

/-- It is accepted, and what is printed of it is not selected as it stands. -/
theorem printedAsDirective : ∃ p ∈ (Reading.ofSource "" directiveAssigned []).program,
    select [] p.text.toList ≠ ⟨p.text.toList, []⟩ := by
  obtain ⟨p, found⟩ : ∃ p, (Reading.ofSource "" directiveAssigned []).program = some p :=
    Option.isSome_iff_exists.mp (by decide +kernel)
  have opens : ((Reading.ofSource "" directiveAssigned []).program.any fun p =>
    p.commands.any Layout.opensDirective) = true := by decide +kernel
  refine ⟨p, found, fun same => ?_⟩
  have none := (Layout.calmProgram (Layout.unbrokenOfAccepted found)).mp ((selectUnchanged [] _).mp same)
  rw [found, Option.any_some] at opens
  obtain ⟨c, mem, opened⟩ := List.any_eq_true.mp opens
  exact absurd (none c mem) (by simp [opened])

end Boogie
