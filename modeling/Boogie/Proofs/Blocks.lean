import Boogie.Proofs.Alike.Stmt
import Boogie.Proofs.Built.Decl
import Boogie.Proofs.Grammar.Reads
import Boogie.Reading

/-! Big blocks lose nothing. Listed block by block, the labels, commands and tails of a statement list are
those that were read, in the order in which they were read. -/
namespace Boogie

inductive Item where
  | label (name : String)
  | cmd (c : Cmd)
  | tail (t : Tail)

def BigBlock.items (b : BigBlock) : List Item :=
  (b.label.map Item.label).toList ++ b.cmds.map .cmd ++ (b.tail.map Item.tail).toList

def StmtList.items (l : StmtList) : List Item := l.blocks.flatMap BigBlock.items

mutual

def StmtList.lists : StmtList → List StmtList
  | ⟨blocks, closing⟩ => ⟨blocks, closing⟩ :: BigBlock.allLists blocks

def BigBlock.lists : BigBlock → List StmtList
  | ⟨_, _, _, tail⟩ => Tail.lists? tail

def BigBlock.allLists : List BigBlock → List StmtList
  | [] => []
  | b :: rest => BigBlock.lists b ++ BigBlock.allLists rest

def Tail.lists? : Option Tail → List StmtList
  | none => []
  | some t => Tail.lists t

def Tail.lists : Tail → List StmtList
  | .branch command => IfCmd.lists command
  | .loop command => WhileCmd.lists command
  | .break _ _ | .transfer _ => []

def IfCmd.lists : IfCmd → List StmtList
  | ⟨_, thenBranch, elseBranch, _⟩ => StmtList.lists thenBranch ++ ElseBranch.lists? elseBranch

def ElseBranch.lists? : Option ElseBranch → List StmtList
  | none => []
  | some b => ElseBranch.lists b

def ElseBranch.lists : ElseBranch → List StmtList
  | .elseIf command => IfCmd.lists command
  | .block body => StmtList.lists body

def WhileCmd.lists : WhileCmd → List StmtList
  | ⟨_, _, body, _⟩ => StmtList.lists body

end

def Decl.lists : Decl → List StmtList
  | .implementation i => i.body.lists
  | _ => []

/-- All statement lists of a program, however deep they are nested. -/
def Program.stmtLists (p : Program) : List StmtList := p.decls.flatMap Decl.lists

theorem BigBlock.allListsEq (bs : List BigBlock) : BigBlock.allLists bs = bs.flatMap BigBlock.lists := by
  induction bs with
  | nil => rfl
  | cons b rest ih => rw [BigBlock.allLists, ih, List.flatMap_cons]

section Checked

variable {c : Checks}

mutual

theorem StmtList.listsPass : ∀ l, StmtList.passes c l → ∀ x ∈ l.lists, c.stmtList x
  | ⟨blocks, closing⟩, ⟨here, inside⟩ => by
    rw [StmtList.lists]
    exact List.forall_mem_cons.mpr ⟨here, BigBlock.allListsPass blocks inside⟩

theorem BigBlock.listsPass : ∀ b, BigBlock.passes c b → ∀ x ∈ b.lists, c.stmtList x
  | ⟨_, _, _, none⟩, _ => nofun
  | ⟨_, _, _, some t⟩, ⟨_, _, inside⟩ => Tail.listsPass t inside

theorem BigBlock.allListsPass : ∀ bs, BigBlock.allPass c bs → ∀ x ∈ BigBlock.allLists bs, c.stmtList x
  | [], _ => nofun
  | b :: rest, ⟨first, more⟩ => by
    rw [BigBlock.allLists]
    exact List.forall_mem_append.mpr ⟨BigBlock.listsPass b first, BigBlock.allListsPass rest more⟩

theorem Tail.listsPass : ∀ t, Tail.passes c t → ∀ x ∈ t.lists, c.stmtList x
  | .branch command, ⟨_, inside⟩ => IfCmd.listsPass command inside
  | .loop command, ⟨_, inside⟩ => WhileCmd.listsPass command inside
  | .break _ _, _ => nofun
  | .transfer _, _ => nofun

theorem IfCmd.listsPass : ∀ x, IfCmd.passes c x → ∀ l ∈ x.lists, c.stmtList l
  | ⟨_, thenBranch, none, _⟩, ⟨_, ofThen, _⟩ => by
    rw [IfCmd.lists, ElseBranch.lists?, List.append_nil]
    exact StmtList.listsPass thenBranch ofThen
  | ⟨_, thenBranch, some e, _⟩, ⟨_, ofThen, ofElse⟩ => by
    rw [IfCmd.lists, ElseBranch.lists?]
    exact List.forall_mem_append.mpr ⟨StmtList.listsPass thenBranch ofThen, ElseBranch.listsPass e ofElse⟩

theorem ElseBranch.listsPass : ∀ e, ElseBranch.passes c e → ∀ l ∈ e.lists, c.stmtList l
  | .elseIf command, inside => IfCmd.listsPass command inside
  | .block body, inside => StmtList.listsPass body inside

theorem WhileCmd.listsPass : ∀ x, WhileCmd.passes c x → ∀ l ∈ x.lists, c.stmtList l
  | ⟨_, _, body, _⟩, ⟨_, _, inside⟩ => StmtList.listsPass body inside

end

end Checked

theorem Program.listsPass {c : Checks} {p : Program} (h : every c p) : ∀ l ∈ p.stmtLists, c.stmtList l := by
  intro l mem
  obtain ⟨d, listed, inside⟩ := List.mem_flatMap.mp mem
  cases d with
  | implementation i => exact StmtList.listsPass i.body (h _ listed).2.2.2.2.2.2.1 l inside
  | _ => exact absurd inside nofun

namespace Grammar

open Token (Kind)

def LabelOrCmd.item : LabelOrCmd → Option Item
  | .label id => some (.label id.name)
  | .cmd c => some (.cmd c)
  | .mistake => none

def listItem (stmts : Production StmtList) : Production (Option Item) := do
  if ← checkAny commandStart then return (← labelOrCmd expression).item
  else return (← blockTail stmts).map .tail

/-- Reading goes item by item from the one state to the other, where the list ends. -/
inductive ItemsRead (stmts : Production StmtList) : State → List Item → State → Prop
  | done {s} (ends : listEnd.contains s.kind = true) : ItemsRead stmts s [] s
  | more {s items t} (starts : listEnd.contains s.kind = false)
      (rest : ItemsRead stmts ((listItem stmts).run s).2 items t) :
      ItemsRead stmts s (((listItem stmts).run s).1.toList ++ items) t

namespace Gathered

def items (g : Gathered) : List Item :=
  g.closed.reverse.flatMap BigBlock.items ++ g.opened.toList.flatMap fun b => (b.close none).items

theorem itemsAddCmd (g : Gathered) (c : Cmd) : (g.addCmd c).items = g.items ++ [.cmd c] := by
  obtain ⟨closed, _ | b⟩ := g <;> simp [addCmd, items, OpenBlock.close, BigBlock.items]

theorem itemsAddLabel (g : Gathered) (id : Ident) : (g.addLabel id).items = g.items ++ [.label id.name] := by
  obtain ⟨closed, _ | b⟩ := g <;> simp [addLabel, items, OpenBlock.close, BigBlock.items]

theorem itemsAddTail (g : Gathered) (t : Tail) : (g.addTail t).items = g.items ++ [.tail t] := by
  obtain ⟨closed, _ | b⟩ := g <;> simp [addTail, items, OpenBlock.close, BigBlock.items]

theorem itemsAdd (g : Gathered) (found : LabelOrCmd) : (g.add found).items = g.items ++ found.item.toList := by
  cases found with
  | label id => exact itemsAddLabel g id
  | cmd c => exact itemsAddCmd g c
  | mistake => exact (List.append_nil _).symm

theorem itemsFinish (g : Gathered) (closing : Span) : (g.finish closing).flatMap BigBlock.items = g.items := by
  obtain ⟨_ | ⟨b, closed⟩, _ | o⟩ := g <;> simp [finish, items, OpenBlock.close, BigBlock.items]

theorem finishMem {g : Gathered} {closing : Span} {b : BigBlock} (mem : b ∈ g.finish closing) :
    b ∈ g.closed ∨ b.tail = none := by
  rw [finish] at mem
  split at mem
  · rcases List.mem_cons.mp (List.mem_reverse.mp mem) with rfl | earlier
    · exact .inr rfl
    · exact .inl earlier
  · split at mem
    · exact .inr (List.mem_singleton.mp mem ▸ rfl)
    · exact .inl (List.mem_reverse.mp mem)

end Gathered

section Items

variable {stmts : Production StmtList}

theorem gathersItem (g : Gathered) (s : State) :
    ((stmtItem stmts g).run s).1.items = g.items ++ ((listItem stmts).run s).1.toList ∧
      ((stmtItem stmts g).run s).2 = ((listItem stmts).run s).2 := by
  cases first : commandStart.contains s.kind with
  | true => simp [stmtItem, listItem, checkAny, first, Gathered.itemsAdd]
  | false =>
    simp only [stmtItem, listItem, checkAny, Production.runBind, runNextIs, first, Bool.false_eq_true, ↓reduceIte,
      Production.runPure, and_true]
    cases ((blockTail stmts).run s).1 with
    | none => exact (List.append_nil _).symm
    | some t => exact g.itemsAddTail t

theorem gathersItems (g : Gathered) {s : State} (closed : s.isClosed) :
    ∃ items, ItemsRead stmts s items
        ((whileHolds (nextIs fun k => !listEnd.contains k) (stmtItem stmts) g).run s).2 ∧
      ((whileHolds (nextIs fun k => !listEnd.contains k) (stmtItem stmts) g).run s).1.items = g.items ++ items := by
  induction left : s.left using Nat.strongRecOn generalizing s g with
  | _ n ih =>
    subst left
    cases ends : listEnd.contains s.kind with
    | true =>
      rw [whileNone looksNext (by simp [ends])]
      exact ⟨[], .done ends, (List.append_nil _).symm⟩
    | false =>
      have moves (s : State) (g : Gathered) (closed : s.isClosed)
          (more : ((nextIs fun k => !listEnd.contains k).run s).1 = true) :
          ((stmtItem stmts g).run s).2.left < s.left := Progresses.stmtItem s closed more
      have starts : ((nextIs fun k => !listEnd.contains k).run s).1 = true := by simp [ends]
      obtain ⟨found, same⟩ := @gathersItem stmts g s
      rw [whileOnce looksNext moves closed starts]
      simp only [Production.runBind, runNextIs]
      obtain ⟨items, read, gathered⟩ := ih _ (moves s g closed starts) ((stmtItem stmts g).run s).1
        (((stmtItem stmts g).reaches s).isClosed closed) rfl
      refine ⟨((listItem stmts).run s).1.toList ++ items, ?_, ?_⟩
      · rw [same] at read ⊢
        exact .more ends read
      · rw [gathered, found, List.append_assoc]

theorem bodyKeepsItems {s : State} (closed : s.isClosed) :
    ∃ t, ItemsRead stmts s ((stmtsBody stmts).run s).1.items t ∧
      ((stmtsBody stmts).run s).2 = ((expect .rightBrace).run t).2 := by
  obtain ⟨items, read, gathered⟩ := @gathersItems stmts .empty s closed
  refine ⟨_, ?_, rfl⟩
  rw [StmtList.items]
  show ItemsRead stmts s ((Gathered.finish _ _).flatMap BigBlock.items) _
  rw [Gathered.itemsFinish, gathered]
  exact read

end Items

def Gives (start : State) {α : Type} (P : α → Prop) (m : Production α) : Prop :=
  ∀ s, start.Reaches s → P (m.run s).1

namespace Gives

variable {start : State} {α β : Type} {P : α → Prop} {Q : β → Prop} {m : Production α} {f : α → Production β}

theorem pure {a : α} (h : P a) : Gives start P (Pure.pure a) := fun _ _ => h

theorem bind (step : Gives start P m) (rest : ∀ a, P a → Gives start Q (f a)) : Gives start Q (m >>= f) :=
  fun s row => rest _ (step s row) _ (row.trans (m.reaches s))

theorem any (rest : ∀ a, Gives start Q (f a)) : Gives start Q (m >>= f) :=
  bind (P := fun _ => True) (fun _ _ => trivial) fun a _ => rest a

theorem either {condition : Production Bool} {yes no : Production α} (holds : Gives start P yes)
    (fails : Gives start P no) : Gives start P (condition >>= fun b => if b = true then yes else no) := by
  refine any fun b => ?_
  cases b
  · exact fails
  · exact holds

theorem rounds {condition : Production Bool} {body : α → Production α} (round : ∀ a, P a → Gives start P (body a))
    (tokens : List Token) {a : α} (first : P a) : Gives start P (Grammar.rounds condition body tokens a) := by
  induction tokens generalizing a with
  | nil => exact pure first
  | cons t tokens ih => exact either (bind (round a first) fun b found => ih found) (pure first)

theorem whileHolds {condition : Production Bool} {body : α → Production α}
    (round : ∀ a, P a → Gives start P (body a)) {a : α} (first : P a) :
    Gives start P (Grammar.whileHolds condition body a) := any fun tokens => rounds round tokens first

theorem many {condition : Production Bool} (item : Gives start P m) :
    Gives start (fun as => ∀ a ∈ as, P a) (Grammar.many condition m) := by
  refine bind (P := fun as => ∀ a ∈ as, P a) (whileHolds (fun as found => ?_) nofun) fun as found => pure ?_
  · exact bind item fun a here => pure (List.forall_mem_cons.mpr ⟨here, found⟩)
  · simpa using found

theorem separated {mark : Kind} (item : Gives start P m) :
    Gives start (fun as => ∀ a ∈ as, P a) (Grammar.separated mark m) :=
  bind item fun _ here => bind (many item) fun _ more => pure (List.forall_mem_cons.mpr ⟨here, more⟩)

end Gives

/-- What statement lists are read by: those in braces by a level of nesting fewer. -/
inductive IsListReader : Production StmtList → Prop
  | none : IsListReader noStmts
  | level {stmts} (inner : IsListReader stmts) : IsListReader (stmtsBody stmts)

def IsRead (start : State) (l : StmtList) : Prop :=
  ∃ stmts s, IsListReader stmts ∧ start.Reaches s ∧ ((stmtsBody stmts).run s).1 = l

def AllRead (start : State) (ls : List StmtList) : Prop := ∀ l ∈ ls, l.blocks ≠ [] → IsRead start l

section Origins

variable {start : State}

theorem allReadAppend {ls ls' : List StmtList} (h : AllRead start ls) (h' : AllRead start ls') :
    AllRead start (ls ++ ls') := List.forall_mem_append.mpr ⟨h, h'⟩

theorem allReadNil : AllRead start [] := nofun

section Statements

variable {stmts : Production StmtList} (nested : Gives start (fun l => AllRead start l.lists) stmts)
include nested

theorem givesIfCmd {next : Production IfCmd} (further : Gives start (fun x => AllRead start x.lists) next) :
    Gives start (fun x => AllRead start x.lists) (ifCmd stmts next) := by
  have elsePart : Gives start (fun e => AllRead start (ElseBranch.lists? e)) (optionalElse stmts next) := by
    refine .either (.either ?_ (.either ?_ ?_)) (.pure allReadNil)
    · exact .bind further fun x ok => .pure ok
    · exact .bind nested fun body ok => .pure ok
    · exact .any fun _ => .pure allReadNil
  refine .any fun place => .any fun _ => .any fun condition => .any fun _ => ?_
  refine .bind nested fun thenBranch ofThen => .bind elsePart fun elseBranch ofElse => .any fun span => .pure ?_
  rw [IfCmd.lists]
  exact allReadAppend ofThen ofElse

theorem givesConditional : Gives start (fun x => AllRead start x.lists) (conditional stmts) := by
  refine .any fun tokens => ?_
  induction tokens with
  | nil =>
    refine givesIfCmd nested (.bind (P := fun l => l.blocks = []) (.any fun _ => .pure rfl) fun l none =>
      .any fun span => .pure ?_)
    obtain ⟨blocks, closing⟩ := l
    subst none
    simp [IfCmd.lists, StmtList.lists, ElseBranch.lists?, BigBlock.allLists, AllRead]
  | cons t tokens ih => exact givesIfCmd nested ih

theorem givesWhileCmd : Gives start (fun x => AllRead start x.lists) (whileCmd stmts) := by
  refine .any fun t => .any fun condition => .any fun invariants => .any fun _ => ?_
  exact .bind nested fun body ok => .any fun span => .pure ok

theorem givesBlockTail : Gives start (fun t => AllRead start (Tail.lists? t)) (blockTail stmts) := by
  refine .any fun k => ?_
  split
  · exact .bind (givesConditional nested) fun x ok => .pure ok
  · exact .bind (givesWhileCmd nested) fun x ok => .pure ok
  · refine .bind (P := fun x => Tail.lists x = []) ?_ fun x none => .pure ?_
    · exact .any fun t => .any fun label => .any fun _ => .any fun span => .pure rfl
    · rw [Tail.lists?, none]
      exact allReadNil
  · exact .any fun x => .pure allReadNil
  · exact .any fun x => .pure allReadNil
  · exact .any fun _ => .any fun _ => .any fun _ => .pure allReadNil

theorem givesStmtItem {g : Gathered} (h : ∀ b ∈ g.closed, AllRead start b.lists) :
    Gives start (fun g => ∀ b ∈ g.closed, AllRead start b.lists) (stmtItem stmts g) := by
  refine .either (.any fun found => .pure ?_) (.bind (givesBlockTail nested) fun t ok => .pure ?_)
  · obtain ⟨closed, opened⟩ := g
    cases found <;> cases opened <;> simpa [Gathered.add, Gathered.addCmd, Gathered.addLabel, OpenBlock.close,
      BigBlock.lists, Tail.lists?, allReadNil] using h
  · cases t with
    | none => exact h
    | some t => exact List.forall_mem_cons.mpr ⟨ok, h⟩

omit nested in
theorem finishLists {g : Gathered} (h : ∀ b ∈ g.closed, AllRead start b.lists) (closing : Span) :
    AllRead start (BigBlock.allLists (g.finish closing)) := by
  rw [BigBlock.allListsEq]
  intro l mem
  obtain ⟨b, listed, inside⟩ := List.mem_flatMap.mp mem
  rcases Gathered.finishMem listed with earlier | open_
  · exact h b earlier l inside
  · obtain ⟨span, label, cmds, tail⟩ := b
    subst open_
    exact absurd inside nofun

theorem givesStmtsBody (reader : IsListReader stmts) :
    Gives start (fun l => AllRead start l.lists) (stmtsBody stmts) := by
  intro s row
  have loop : Gives start (fun g => ∀ b ∈ g.closed, AllRead start b.lists)
      (whileHolds (nextIs fun k => !listEnd.contains k) (stmtItem stmts) .empty) :=
    .whileHolds (fun g h => givesStmtItem nested h) nofun
  have gathered := loop s row
  show AllRead start (StmtList.lists ⟨Gathered.finish _ _, _⟩)
  rw [StmtList.lists]
  exact List.forall_mem_cons.mpr ⟨fun _ => ⟨stmts, s, reader, row, rfl⟩, finishLists gathered _⟩

end Statements

theorem givesReader {stmts : Production StmtList} (h : IsListReader stmts) :
    Gives start (fun l => AllRead start l.lists) stmts := by
  induction h with
  | none => exact .any fun span => .pure (by simp [StmtList.lists, BigBlock.allLists, AllRead])
  | level inner ih => exact givesStmtsBody ih inner

theorem givesStmtList : Gives start (fun l => AllRead start l.lists) stmtList := by
  have reader (tokens : List Token) :
      IsListReader (nest (fun _ => noStmts) (fun stmts _ => stmtsBody (stmts ())) tokens ()) := by
    induction tokens with
    | nil => exact .level .none
    | cons t tokens ih => exact .level ih
  exact .any fun tokens => givesReader (reader tokens)

abbrev NoLists (ds : List Decl) : Prop := ∀ d ∈ ds, d.lists = []

theorem noListsRead {ds : List Decl} (h : NoLists ds) : AllRead start (ds.flatMap Decl.lists) := by
  rw [List.flatMap_eq_nil_iff.mpr h]
  exact allReadNil

theorem givesConstants : Gives start NoLists constants :=
  .any fun _ => .any fun _ => .any fun _ => .any fun _ => .any fun _ => .any fun _ => .any fun (_, _) =>
    .any fun _ => .pure (List.forall_mem_map.mpr fun _ _ => rfl)

theorem givesFunction : Gives start NoLists function := by
  have decls (f : Function) (body : Option Expr) : NoLists (functionDecls f body) := by
    unfold functionDecls
    split
    · exact List.forall_mem_singleton.mpr rfl
    · split
      · exact List.forall_mem_singleton.mpr rfl
      · exact List.forall_mem_cons.mpr ⟨rfl, List.forall_mem_singleton.mpr rfl⟩
  refine .any fun _ => .any fun _ => .any fun _ => .any fun _ => .any fun _ => .any fun _ => .any fun _ => ?_
  exact .any fun _ => .any fun _ => .any fun _ => .pure (decls _ _)

theorem givesAxiomDecl : Gives start NoLists axiomDecl :=
  .any fun _ => .any fun _ => .any fun _ => .any fun _ => .any fun _ => .pure (List.forall_mem_singleton.mpr rfl)

theorem givesTypeDecls : Gives start NoLists typeDecls := by
  have one (found : List Attribute) : Gives start (fun d => d.lists = []) (typeDecl found) := by
    refine .any fun _ => .any fun _ => .either ?_ ?_
    · exact .any fun _ => .any fun _ => .pure rfl
    · exact .any fun _ => .pure rfl
  exact .any fun _ => .any fun found => .bind (.separated (one found)) fun _ none => .any fun _ => .pure none

theorem givesGlobals : Gives start NoLists globals :=
  .any fun _ => .pure (List.forall_mem_map.mpr fun _ _ => rfl)

theorem givesBody : Gives start (fun b => AllRead start b.2.lists) implementationBody :=
  .any fun _ => .any fun _ => .bind givesStmtList fun _ ok => .pure ok

theorem givesProcedure : Gives start (fun ds => AllRead start (ds.flatMap Decl.lists)) procedure := by
  have contract : Gives start (fun c => ∀ b ∈ c.2, AllRead start b.2.lists) contractAndBody := by
    refine .either (.any fun _ => .pure nofun) (.either ?_ (.any fun _ => .pure nofun))
    refine .any fun _ => .bind givesBody fun b ok => .pure ?_
    rintro _ ⟨⟩
    exact ok
  refine .any fun _ => .any fun sig => .bind contract fun (specs, body) ok => .any fun span => .pure ?_
  cases body with
  | none => exact allReadNil
  | some b => simpa [procedureDecls, Decl.lists] using ok b rfl

theorem givesImplementation : Gives start (fun ds => AllRead start (ds.flatMap Decl.lists)) implementation := by
  refine .any fun _ => .any fun sig => .bind givesBody fun (locals, stmts) ok => .any fun span => .pure ?_
  simpa [Decl.lists] using ok

theorem givesDecl : Gives start (fun ds => AllRead start (ds.flatMap Decl.lists)) decl := by
  have noLists {m : Production (List Decl)} (h : Gives start NoLists m) :
      Gives start (fun ds => AllRead start (ds.flatMap Decl.lists)) m := fun s row => noListsRead (h s row)
  refine .any fun k => ?_
  split
  · exact noLists givesConstants
  · exact noLists givesFunction
  · exact noLists givesAxiomDecl
  · exact noLists givesTypeDecls
  · exact noLists givesGlobals
  · exact givesProcedure
  · exact givesImplementation
  · exact noLists (.any fun _ => .any fun _ => .pure nofun)

theorem givesProgram : Gives start (fun p => AllRead start p.stmtLists) program := by
  refine .bind (.many givesDecl) fun ds ok => .pure ?_
  intro l mem
  obtain ⟨d, listed, inside⟩ := List.mem_flatMap.mp mem
  obtain ⟨group, among, here⟩ := List.mem_flatten.mp listed
  exact ok group among l (List.mem_flatMap.mpr ⟨d, here, inside⟩)

end Origins

end Grammar

open Grammar

/-- Whatever the tokens are, each statement list of the program that they are read as has a block, and was
read from a state on the way so that its items are those read from there; a block without a label follows one
with a tail, and one without anything stands alone. -/
theorem bigBlocksLoseNothing {tokens : TokenList} (closed : tokens.finish.kind = .endOfText) (text : List Char)
    (log : Log) : ∀ l ∈ (Reading.run tokens text log).1.stmtLists,
      l.blocks ≠ [] ∧
      (∃ stmts s t, IsListReader stmts ∧ (State.start tokens text log).Reaches s ∧ ((stmtsBody stmts).run s).1 = l ∧
        ItemsRead stmts s l.items t ∧ ((stmtsBody stmts).run s).2 = ((expect .rightBrace).run t).2) ∧
      l.blocks.IsChain (fun b next => next.label = none → b.tail ≠ none) ∧
      ∀ b ∈ l.blocks, b.label = none → b.cmds = [] → b.tail = none → l.blocks = [b] := by
  intro l mem
  have built := Program.listsPass (programBuilt tokens text log closed False False.elim) l mem
  obtain ⟨shaped, fixed⟩ := built
  have some : l.blocks ≠ [] := shaped
  refine ⟨some, ?_, ?_, fun b listed noLabel noCmds noTail => ?_⟩
  · obtain ⟨stmts, s, reader, row, rfl⟩ := givesProgram (.start tokens text log) .refl l mem some
    have within : s.isClosed := row.isClosed closed
    obtain ⟨t, read, last⟩ := @bodyKeepsItems stmts s within
    exact ⟨stmts, s, t, reader, row, rfl, read, last⟩
  · rcases fixed with ⟨b, alone, _⟩ | ⟨_, apart⟩
    · rw [alone]
      exact .singleton b
    · refine apart.imp fun b next either noLabel noTail => ?_
      rcases either with tail | label
      · simp [noTail] at tail
      · simp [noLabel] at label
  · rcases fixed with ⟨b', alone, _⟩ | ⟨filled, _⟩
    · rw [alone] at listed
      rw [alone, List.mem_singleton.mp listed]
    · rcases filled b listed with label | cmds | tail
      · simp [noLabel] at label
      · exact absurd noCmds cmds
      · simp [noTail] at tail

/-- A source with labelled and other blocks, one of them empty and alone. -/
def labelledBlocks : List Char := "procedure p() { yield; a: yield; return; if (*) { } b: }".toList

theorem labelledBlocksSplit :
    let tokens := Token.scan labelledBlocks
    let lists := (Reading.run tokens labelledBlocks (.empty "")).1.stmtLists
    tokens.finish.kind = .endOfText ∧
      (lists.map fun l => l.blocks.map fun b => (b.label, b.cmds.length, b.tail.isSome)) =
        [[(none, 1, false), (some "a", 1, true), (none, 0, true), (some "b", 0, false)], [(none, 0, false)]] ∧
      ∀ l ∈ lists, l.blocks ≠ [] ∧ ∃ stmts s t, (State.start tokens labelledBlocks (.empty "")).Reaches s ∧
        ((stmtsBody stmts).run s).1 = l ∧ ItemsRead stmts s l.items t := by
  refine ⟨rfl, by decide +kernel, fun l mem => ?_⟩
  obtain ⟨some, ⟨stmts, s, t, _, row, same, read, _⟩, _⟩ := bigBlocksLoseNothing rfl labelledBlocks (.empty "") l mem
  exact ⟨some, stmts, s, t, row, same, read⟩

end Boogie
