import Boogie.Proofs.Alike.Stmt
import Boogie.Proofs.Printed.Whole
import Boogie.Proofs.Reread.Expr

/-! Printed statements are read back. Each printed block adds to what has been gathered just that block, since it
is set apart from the one in front: by its label, or because nothing can be added behind a structured command. -/
namespace Boogie.Grammar

open Token (Kind Word Spelling)
open Layout (Piece wordsOf textWords Terminals printable isWritten nameWord nameWords)

theorem alikeStmtsUnfold (n : Nat) : Simulates samePlace n anywhere Alike (stmtsBody stmtList) stmtList :=
  Simulates.nestUnfold (V := fun _ => Like samePlace.change) (fun _ _ _ nested _ => alikeStmtsBody (nested ())) ()

theorem alikeConditionalUnfold (n : Nat) :
    Simulates samePlace n (· = .kwIf) Alike (ifCmd stmtList (conditional stmtList)) (conditional stmtList) :=
  Simulates.nestUnfold (V := fun _ => Like samePlace.change) (fun _ _ _ further _ => alikeIfCmd alikeStmtList (further ())) ()

section Nested

variable {ws rest : List Word}

theorem readsStmtList {l : StmtList} (h : Reads ws rest (Alike l) (stmtsBody stmtList)) :
    Reads ws rest (Alike l) stmtList :=
  .ofSame alikeStmtsUnfold (fun _ _ same here => here.trans same) h

theorem readsConditional {x : IfCmd} (starts : headKind (ws ++ rest) = .kwIf)
    (h : Reads ws rest (Alike x) (ifCmd stmtList (conditional stmtList))) :
    Reads ws rest (Alike x) (conditional stmtList) :=
  .ofSameAt starts alikeConditionalUnfold (fun _ _ same here => here.trans same) h

end Nested

namespace Gathered

def flushed (g : Gathered) : List BigBlock :=
  match g.opened with
  | some b => b.close none :: g.closed
  | none => g.closed

theorem finishFlushed {g : Gathered} (closing : Span) (some : g.flushed ≠ []) :
    g.finish closing = g.flushed.reverse := by
  obtain ⟨closed, _ | b⟩ := g
  · cases closed with
    | nil => exact absurd rfl some
    | cons => rfl
  · rfl

def addBlock (g : Gathered) (b : BigBlock) : Gathered :=
  let labelled := b.label.elim g fun n => g.addLabel ⟨n, b.span⟩
  b.tail.elim (b.cmds.foldl addCmd labelled) (b.cmds.foldl addCmd labelled).addTail

theorem addLabelFlushed (g : Gathered) (id : Ident) : g.addLabel id = ⟨g.flushed, some ⟨id.span, some id.name, []⟩⟩ := by
  obtain ⟨closed, _ | b⟩ := g <;> rfl

theorem addCmdsOpen (closed : List BigBlock) (b : OpenBlock) (cs : List Cmd) :
    cs.foldl addCmd ⟨closed, some b⟩ = ⟨closed, some { b with cmds := cs.reverse ++ b.cmds }⟩ := by
  induction cs generalizing b with
  | nil => rfl
  | cons c cs ih =>
    rw [List.foldl_cons, List.reverse_cons, List.append_assoc]
    exact ih _

theorem addBlockFlushed {g : Gathered} {b : BigBlock} (filled : isFilled b)
    (apart : g.opened = none ∨ b.label.isSome = true) :
    Alike (b :: g.flushed) (g.addBlock b).flushed ∧ ((g.addBlock b).opened = none ↔ b.tail.isSome = true) := by
  obtain ⟨span, label, cmds, tail⟩ := b
  obtain ⟨place, opens⟩ : ∃ place, (cmds ≠ [] ∨ label.isSome = true →
      cmds.foldl addCmd (label.elim g fun n => g.addLabel ⟨n, span⟩) = ⟨g.flushed, some ⟨place, label, cmds.reverse⟩⟩) := by
    cases label with
    | some n => exact ⟨span, fun _ => by simp [addLabelFlushed, addCmdsOpen]⟩
    | none =>
      obtain ⟨closed, opened⟩ := g
      obtain rfl : opened = none := by simpa using apart
      cases cmds with
      | nil => exact ⟨span, fun filled => by simp at filled⟩
      | cons c cs => exact ⟨c.span, fun _ => by simp [addCmd, flushed, addCmdsOpen]⟩
  by_cases begun : cmds ≠ [] ∨ label.isSome = true
  · rw [addBlock, opens begun]
    cases tail <;> simp [flushed, addTail, OpenBlock.close, Alike, bare]
  · obtain ⟨rfl, rfl⟩ : cmds = [] ∧ label = none := by simpa using begun
    obtain ⟨closed, opened⟩ := g
    obtain rfl : opened = none := by simpa using apart
    obtain ⟨t, rfl⟩ : ∃ t, tail = some t := Option.isSome_iff_exists.mp (by simpa [isFilled] using filled)
    simp [addBlock, flushed, addTail, OpenBlock.close, Alike, bare]

theorem addBlocksFlushed {bs : List BigBlock} (filled : ∀ b ∈ bs, isFilled b) (apart : bs.IsChain isApart)
    {g : Gathered} (first : g.opened = none ∨ ∀ b ∈ bs.head?, b.label.isSome = true) :
    Alike (bs.reverse ++ g.flushed) (bs.foldl addBlock g).flushed := by
  induction bs generalizing g with
  | nil => exact rfl
  | cons b bs ih =>
    obtain ⟨ofB, others⟩ := List.forall_mem_cons.mp filled
    obtain ⟨one, ends⟩ := addBlockFlushed ofB (first.imp_right fun labelled => labelled b rfl)
    have next : (g.addBlock b).opened = none ∨ ∀ b' ∈ bs.head?, b'.label.isSome = true := by
      cases bs with
      | nil => exact .inr nofun
      | cons b' bs => exact (List.isChain_cons_cons.mp apart).1.imp ends.mpr (by simp)
    have more := ih others apart.tail next
    rw [List.reverse_cons, List.append_assoc, List.foldl_cons]
    exact (Alike.append rfl one).trans more

theorem finishBlocks {l : StmtList} (shaped : l.isShaped) (fixed : stmtListFixed l) {g : Gathered}
    (same : Alike (l.blocks.foldl addBlock .empty) g) (closing : Span) : Alike l ⟨g.finish closing, closing⟩ := by
  have finished : Alike (⟨(l.blocks.foldl addBlock .empty).finish closing, closing⟩ : StmtList) ⟨g.finish closing, closing⟩ :=
    alikeFinish (c := none) same
  refine Eq.trans ?_ finished
  obtain ⟨bs, place⟩ := l
  rcases fixed with ⟨b, rfl, empty⟩ | ⟨filled, apart⟩
  · obtain ⟨span, label, cmds, tail⟩ := b
    obtain ⟨rfl, rfl, rfl⟩ : label = none ∧ cmds = [] ∧ tail = none := by simpa [isFilled] using empty
    simp [addBlock, Gathered.empty, finish, bare]
  · have all := addBlocksFlushed filled apart (g := .empty) (.inl rfl)
    rw [show Gathered.empty.flushed = [] from rfl, List.append_nil] at all
    have some : (bs.foldl addBlock .empty).flushed ≠ [] := fun none => by
      rw [none] at all
      exact shaped (by simpa using all.isEmptyEq)
    have blocks : Alike bs ((bs.foldl addBlock .empty).finish closing) := by
      rw [finishFlushed closing some]
      have back := all.reverse
      rwa [List.reverse_reverse] at back
    simpa [Alike, bare] using blocks

end Gathered

def gather : Gathered → Production Gathered := whileHolds (nextIs fun k => !listEnd.contains k) (stmtItem stmtList)

section Items

variable {g g' : Gathered} {ws ws' rest : List Word} {W : Gathered → Prop}

theorem readsItem (starts : listEnd.contains (headKind (ws ++ (ws' ++ rest))) = false)
    (step : Reads ws (ws' ++ rest) (Alike g') (stmtItem stmtList g))
    (next : ∀ g₁, Alike g' g₁ → Reads ws' rest W (gather g₁)) : Reads (ws ++ ws') rest W (gather g) :=
  .whileRound (fun _ => .stmtItem) (by rw [starts]; rfl) step next

theorem commandGoesOn : ∀ k ∈ Kind.all, commandStart.contains k = true → listEnd.contains k = false := by decide

theorem readsCmd {c : Cmd} (h : IsCmdReread c) (same : Alike g g')
    (next : ∀ g₁, Alike (g.addCmd c) g₁ → Reads ws' rest W (gather g₁)) :
    Reads (wordsOf (Layout.cmd c) ++ ws') rest W (gather g') := by
  obtain ⟨w, more, opens, starts⟩ := h.opens
  refine readsItem ?_ (.ifYes ?_ (.last (h.reads _) fun found alike => .pure ?_)) next
  · rw [opens]
    exact commandGoesOn w.kind (Kind.memAll _) starts
  · rw [opens]
    exact starts
  · exact alikeAdd (c := none) same alike

theorem readsCmds {cs : List Cmd} (each : ∀ c ∈ cs, IsCmdReread c) (same : Alike g g')
    (next : ∀ g₁, Alike (cs.foldl Gathered.addCmd g) g₁ → Reads ws' rest W (gather g₁)) :
    Reads ((cs.flatMap fun c => wordsOf (Layout.cmd c)) ++ ws') rest W (gather g') := by
  induction cs generalizing g g' with
  | nil => exact next g' same
  | cons c cs ih =>
    obtain ⟨first, others⟩ := List.forall_mem_cons.mp each
    rw [List.flatMap_cons, List.append_assoc]
    exact readsCmd first same fun g₁ alike => ih others alike next

theorem readsLabel {n : String} {span : Span} (named : isWritten n) (same : Alike g g')
    (next : ∀ g₁, Alike (g.addLabel ⟨n, span⟩) g₁ → Reads ws' rest W (gather g₁)) :
    Reads (nameWord n :: Word.of .colon :: ws') rest W (gather g') := by
  have starts : commandStart.contains .identifier = true := by decide
  have label : Reads [nameWord n, Word.of .colon] (ws' ++ rest) (Alike (g.addLabel ⟨n, span⟩))
      (stmtItem stmtList g') := by
    refine .ifYes starts (.last (V := Alike (LabelOrCmd.label ⟨n, span⟩)) (.ifYes rfl ?_) fun found alike => .pure ?_)
    · exact readsNamed named fun place => .eatYes rfl (.pure (by simp [Alike, bare]))
    · exact alikeAdd (c := none) same alike
  have whole : Reads ([nameWord n, Word.of .colon] ++ ws') rest W (gather g') :=
    readsItem (commandGoesOn .identifier (Kind.memAll _) starts) label next
  exact whole

end Items

@[simp] theorem wordsLine (depth : Nat) (ps : List Piece) : wordsOf (Layout.line depth ps) = wordsOf ps := by
  simp [Layout.line, Layout.lineStart]

@[simp] theorem wordsOpenedLine (depth : Nat) (ps : List Piece) : wordsOf (Layout.openedLine depth ps) = wordsOf ps := by
  simp [Layout.openedLine, Layout.lineStart]

theorem wordsCmdLines (depth : Nat) (cs : List Cmd) :
    wordsOf (Layout.cmdLines depth cs) = cs.flatMap fun c => wordsOf (Layout.cmd c) := by
  simp [Layout.cmdLines, wordsFlat]

theorem wordsBlocks (depth : Nat) (bs : List BigBlock) :
    wordsOf (Layout.bigBlocks depth bs) = bs.flatMap fun b => wordsOf (Layout.bigBlock depth b) := by
  rw [Layout.bigBlocksFlat, wordsFlat]

def tailStart : Token.KindSet := .ofList [.kwIf, .kwWhile, .kwBreak, .kwGoto, .kwReturn]

theorem tailGoesOn : ∀ k ∈ Kind.all, tailStart.contains k = true →
    commandStart.contains k = false ∧ listEnd.contains k = false := by decide

def stmtStart : Token.KindSet := commandStart.union tailStart

theorem stmtStartsPlain : ∀ k ∈ Kind.all, stmtStart.contains k = true → k ≠ .kwElse ∧ k ≠ .kwVar := by decide

structure IsTailReread (t : Tail) : Prop where
  opens : ∀ depth, ∃ w more, wordsOf (Layout.tail depth t) = w :: more ∧ tailStart.contains w.kind = true
  reads : ∀ depth, ReadsBack (fun t => wordsOf (Layout.tail depth t)) (· ≠ .kwElse) (fun t found => Alike (some t) found)
    (blockTail stmtList) t

structure IsBigBlockReread (b : BigBlock) : Prop where
  opens : ∀ depth ws, stmtStart.contains (headKind (wordsOf (Layout.bigBlock depth b) ++ ws)) = true ∨
    wordsOf (Layout.bigBlock depth b) = []
  reads : ∀ {depth g g' ws rest W}, headKind (ws ++ rest) ≠ .kwElse → Alike g g' →
    (∀ g₁, Alike (g.addBlock b) g₁ → Reads ws rest W (gather g₁)) →
      Reads (wordsOf (Layout.bigBlock depth b) ++ ws) rest W (gather g')

theorem blocksStart {depth : Nat} {bs : List BigBlock} (each : ∀ b ∈ bs, IsBigBlockReread b) (rest : List Word) :
    headKind ((bs.flatMap fun b => wordsOf (Layout.bigBlock depth b)) ++ Word.of .rightBrace :: rest) ≠ .kwElse ∧
      headKind ((bs.flatMap fun b => wordsOf (Layout.bigBlock depth b)) ++ Word.of .rightBrace :: rest) ≠ .kwVar := by
  induction bs with
  | nil => exact ⟨nofun, nofun⟩
  | cons b bs ih =>
    obtain ⟨first, others⟩ := List.forall_mem_cons.mp each
    rw [List.flatMap_cons, List.append_assoc]
    rcases first.opens depth _ with starts | nothing
    · exact stmtStartsPlain _ (Kind.memAll _) starts
    · rw [nothing]
      exact ih others

section Blocks

variable {g g' : Gathered} {ws rest : List Word} {W : Gathered → Prop}

theorem readsTail {depth : Nat} {t : Tail} (h : IsTailReread t) (noElse : headKind (ws ++ rest) ≠ .kwElse)
    (same : Alike g g') (next : ∀ g₁, Alike (g.addTail t) g₁ → Reads ws rest W (gather g₁)) :
    Reads (wordsOf (Layout.tail depth t) ++ ws) rest W (gather g') := by
  obtain ⟨w, more, opens, starts⟩ := h.opens depth
  obtain ⟨noCommand, goesOn⟩ := tailGoesOn w.kind (Kind.memAll _) starts
  refine readsItem ?_ (.ifNo ?_ (.last (h.reads depth _ noElse) fun found alike => .pure ?_)) next
  · rw [opens]
    exact goesOn
  · rw [opens]
    exact noCommand
  · cases found with
    | none => exact absurd alike nofun
    | some t' => exact alikeAddTail (c := none) same (show Alike t t' by simpa [Alike, bare] using alike)

theorem rereadBigBlock {span : Span} {label : Option String} {cmds : List Cmd} {tail : Option Tail}
    (named : every printable label) (ofCmds : ∀ c ∈ cmds, IsCmdReread c) (ofTail : ∀ t ∈ tail, IsTailReread t) :
    IsBigBlockReread ⟨span, label, cmds, tail⟩ := by
  have words (depth : Nat) : wordsOf (Layout.bigBlock depth ⟨span, label, cmds, tail⟩) =
      wordsOf (Layout.labelLine depth label) ++ ((cmds.flatMap fun c => wordsOf (Layout.cmd c)) ++
        wordsOf (Layout.optionalTail depth tail)) := by
    simp [Layout.bigBlock, wordsCmdLines]
  have ofLabel (n : String) (same : label = some n) (depth : Nat) :
      wordsOf (Layout.labelLine depth label) = [nameWord n, Word.of .colon] := by
    simp [same, Layout.labelLine, nameWords (named n same), textWords, Terminals.row, Spelling.kinds]
  refine ⟨fun depth ws => ?_, fun {depth g g' ws rest W} noElse same next => ?_⟩
  · rw [words]
    cases label with
    | some n =>
      rw [ofLabel n rfl]
      exact .inl (by decide : stmtStart.contains .identifier = true)
    | none =>
      cases cmds with
      | cons c cs =>
        obtain ⟨w, more, opens, starts⟩ := (ofCmds c List.mem_cons_self).opens
        simp [Layout.labelLine, opens, stmtStart, starts]
      | nil =>
        cases tail with
        | none => exact .inr rfl
        | some t =>
          obtain ⟨w, more, opens, starts⟩ := (ofTail t rfl).opens depth
          simp [Layout.labelLine, Layout.optionalTail, opens, stmtStart, starts]
  · let labelled := label.elim g fun n => g.addLabel ⟨n, span⟩
    have last (g₁ : Gathered) (alike : Alike (cmds.foldl Gathered.addCmd labelled) g₁) :
        Reads (wordsOf (Layout.optionalTail depth tail) ++ ws) rest W (gather g₁) := by
      cases tail with
      | none => exact next g₁ alike
      | some t =>
        rw [Layout.optionalTail, wordsLine]
        exact readsTail (ofTail t rfl) noElse alike next
    have commands (g₁ : Gathered) (alike : Alike labelled g₁) : Reads ((cmds.flatMap fun c => wordsOf (Layout.cmd c)) ++
        (wordsOf (Layout.optionalTail depth tail) ++ ws)) rest W (gather g₁) := readsCmds ofCmds alike last
    rw [words, List.append_assoc, List.append_assoc]
    cases label with
    | none => exact commands g' same
    | some n =>
      rw [ofLabel n rfl]
      exact readsLabel (named n rfl) same commands

theorem readsBlocks {depth : Nat} {bs : List BigBlock} (each : ∀ b ∈ bs, IsBigBlockReread b) (same : Alike g g') :
    Reads (wordsOf (Layout.bigBlocks depth bs)) (Word.of .rightBrace :: rest) (Alike (bs.foldl Gathered.addBlock g))
      (gather g') := by
  rw [wordsBlocks]
  induction bs generalizing g g' with
  | nil => exact .whileDone (by decide : (!listEnd.contains .rightBrace) = false) same
  | cons b bs ih =>
    obtain ⟨first, others⟩ := List.forall_mem_cons.mp each
    exact first.reads (blocksStart others rest).1 same fun g₁ alike => ih others alike

end Blocks

def clauseWords (k : Kind) (c : Clause) : List Word :=
  flag .kwFree c.free ++ (Word.of k ::
    (wordsOf (Layout.attributes c.attributes) ++ (wordsOf (Layout.expr c.condition) ++ [Word.of .semicolon])))

theorem wordsClause {keyword : String} {k : Kind} {c : Clause}
    (front : (Piece.text ((if c.free then "free " else "") ++ keyword ++ " ")).words = flag .kwFree c.free ++ [Word.of k]) :
    wordsOf (Layout.clause keyword c) = clauseWords k c := by
  simp [Layout.clause, front, clauseWords, textWords, Terminals.row, Spelling.kinds]

theorem invariantFront (free : Bool) : (Piece.text ((if free then "free " else "") ++ "invariant" ++ " ")).words =
    flag .kwFree free ++ [Word.of .kwInvariant] := by
  rw [textWords]
  cases free <;> rfl

section Structured

variable {rest : List Word}

theorem readsCondition {β : Type} {W : β → Prop} {condition : Expr} {found : List Attribute}
    (ofCondition : every printable condition) (ofFound : every printable found) {f : List Attribute → Expr → Production β}
    (next : ∀ as e, Alike found as → Alike condition e → Reads [] rest W (f as e)) :
    Reads (wordsOf (Layout.attributes found) ++ (wordsOf (Layout.expr condition) ++ [Word.of .semicolon])) rest W
      (do
        let as ← attributes expression
        let e ← expression
        expect .semicolon
        f as e) := by
  have ofE := rereadExpr ofCondition
  refine .bind (readsAttributes (rereadAttributes ofFound) ?_) fun as sameAs => ?_
  · rw [List.append_assoc]
    exact exprNotHead ofE (by decide) _
  · refine .bind (readsExpr ofE (by decide : endsExpr .semicolon)) fun e sameE => ?_
    exact .expectLast rfl (next as e sameAs sameE)

theorem readsInvariant {c : Clause} (pass : every printable c) :
    Reads (clauseWords .kwInvariant c) rest (Alike c) loopInvariant := by
  obtain ⟨free, condition, as, place⟩ := c
  refine .look fun start => readsFlag nofun (.expect rfl (readsCondition pass.1 pass.2 fun as e sameAs sameE => ?_))
  refine .spanFrom fun span => .pure ?_
  simp_all [Alike, bare]

theorem wordsInvariants (depth : Nat) (invariants : List Clause) :
    wordsOf (Layout.invariantLines depth invariants) = invariants.flatMap (clauseWords .kwInvariant) := by
  rw [Layout.invariantLines]
  split
  · rename_i none
    simp [List.isEmpty_iff.mp none]
  · simp [Layout.clauseLines, Layout.lineStart, wordsFlat, wordsClause (invariantFront _)]

theorem clauseOpens (k : Kind) (c : Clause) :
    ∃ w more, clauseWords k c = w :: more ∧ (w.kind = .kwFree ∨ w.kind = k) := by
  rw [clauseWords]
  cases c.free
  · exact ⟨_, _, rfl, .inr rfl⟩
  · exact ⟨_, _, rfl, .inl rfl⟩

theorem readsInvariants {invariants : List Clause} (pass : every printable invariants) :
    Reads (invariants.flatMap (clauseWords .kwInvariant)) (Word.of .leftBrace :: rest) (Alike invariants)
      (many (checkAny (.ofList [.kwFree, .kwInvariant])) loopInvariant) := by
  have opens (c : Clause) (_ : c ∈ invariants) : ∃ w more, clauseWords .kwInvariant c = w :: more ∧
      (Token.KindSet.ofList [.kwFree, .kwInvariant]).contains w.kind = true ∧ True := by
    obtain ⟨w, more, same, kind | kind⟩ := clauseOpens .kwInvariant c <;>
      exact ⟨w, more, same, by rw [kind]; decide, trivial⟩
  have each (c : Clause) (mem : c ∈ invariants) :
      ReadsBack (clauseWords .kwInvariant) (fun _ => True) Alike loopInvariant c := fun _ _ => readsInvariant (pass c mem)
  have ends : (Token.KindSet.ofList [.kwFree, .kwInvariant]).contains .leftBrace = false := by decide
  have list : Reads (invariants.flatMap (clauseWords .kwInvariant)) (Word.of .leftBrace :: rest)
      (List.Forall₂ Alike invariants) (many (checkAny (.ofList [.kwFree, .kwInvariant])) loopInvariant) :=
    readsMany .loopInvariant each opens ends trivial
  exact list.weaken fun _ => alikeOfForall

theorem readsGuard {o : Option Expr} (pass : every printable o) (rest : List Word) :
    Reads (wordsOf (Layout.guard o)) rest (Alike o) guard := by
  cases o with
  | none =>
    have words : wordsOf (Layout.guard none) = [Word.of .leftParen, Word.of .star, Word.of .rightParen] := by
      simp [Layout.guard, textWords, Terminals.row, Spelling.kinds]
    have star : Reads [Word.of .star] (Word.of .rightParen :: rest) (Alike none) condition := .eatYes rfl (.pure rfl)
    have behind : Reads ([Word.of .star] ++ [Word.of .rightParen]) rest (Alike none) (do
        let found ← condition
        expect .rightParen
        return found) := .bind star fun found same => .expectLast rfl (.pure same)
    rw [words]
    exact .expect rfl behind
  | some e =>
    have ofE := rereadExpr (pass e rfl)
    rw [Layout.guard, wordsWrapped]
    refine .expect rfl (.bind (V := Alike (some e)) (.eatNo (exprNotHead ofE (by decide) _) ?_) fun found same => ?_)
    · refine .ifYes (exprBegins ofE _) (.last (readsExpr ofE (by decide : endsExpr .rightParen)) fun e' same => .pure ?_)
      simpa [Alike, bare] using same
    · exact .expectLast rfl (.pure same)

def bodyWords (depth : Nat) (l : StmtList) : List Word := wordsOf (Layout.stmts depth l) ++ [Word.of .rightBrace]

theorem wordsNested (depth : Nat) (l : StmtList) :
    wordsOf (Layout.nested depth l) = Word.of .leftBrace :: bodyWords (depth + 1) l := by
  obtain ⟨bs, closing⟩ := l
  simp [Layout.nested, Layout.stmts, bodyWords, Layout.lineStart, textWords, Terminals.row, Spelling.kinds]

def IsBodyReread (l : StmtList) : Prop := ∀ depth rest, Reads (bodyWords depth l) rest (Alike l) stmtList

theorem rereadStmts {l : StmtList} (shaped : l.isShaped) (fixed : stmtListFixed l)
    (each : ∀ b ∈ l.blocks, IsBigBlockReread b) : IsBodyReread l := by
  intro depth rest
  have blocks : Reads (wordsOf (Layout.stmts depth l)) (Word.of .rightBrace :: rest)
      (Alike (l.blocks.foldl Gathered.addBlock .empty)) (gather .empty) := by
    obtain ⟨bs, closing⟩ := l
    rw [Layout.stmts]
    exact readsBlocks each rfl
  refine readsStmtList (.bind blocks fun g same => .look fun closing => .expectLast rfl (.pure ?_))
  exact Gathered.finishBlocks shaped fixed same closing

def IsElseReread (b : ElseBranch) : Prop :=
  ∀ depth, ReadsBack (fun b => Word.of .kwElse :: wordsOf (Layout.elseBranch depth b)) (· ≠ .kwElse)
    (fun b found => Alike (some b) found) (optionalElse stmtList (conditional stmtList)) b

def IsBranchReread (x : IfCmd) : Prop :=
  ∀ depth, ReadsBack (fun x => wordsOf (Layout.ifCmd depth x)) (· ≠ .kwElse) Alike (conditional stmtList) x

theorem wordsIf (depth : Nat) (guard : Option Expr) (thenBranch : StmtList) (elseBranch : Option ElseBranch) (span : Span) :
    wordsOf (Layout.ifCmd depth ⟨guard, thenBranch, elseBranch, span⟩) = Word.of .kwIf :: (wordsOf (Layout.guard guard) ++
      Word.of .leftBrace :: (bodyWords (depth + 1) thenBranch ++ wordsOf (Layout.optionalElse depth elseBranch))) := by
  simp [Layout.ifCmd, wordsNested, textWords, Terminals.row, Spelling.kinds]

theorem rereadIf {guard : Option Expr} {thenBranch : StmtList} {elseBranch : Option ElseBranch} {span : Span}
    (ofGuard : every printable guard) (ofThen : IsBodyReread thenBranch) (ofElse : ∀ b ∈ elseBranch, IsElseReread b) :
    IsBranchReread ⟨guard, thenBranch, elseBranch, span⟩ := by
  intro depth rest noElse
  dsimp only
  rw [wordsIf]
  refine readsConditional rfl (.look fun start => .expect rfl (.bind (readsGuard ofGuard _) fun guard' sameGuard => ?_))
  refine .expect rfl (.bind (ofThen _ _) fun then' sameThen => ?_)
  have last : Reads (wordsOf (Layout.optionalElse depth elseBranch)) rest (Alike elseBranch)
      (optionalElse stmtList (conditional stmtList)) := by
    cases elseBranch with
    | none => exact .eatNo noElse (.pure rfl)
    | some b =>
      have words : wordsOf (Layout.optionalElse depth (some b)) =
          Word.of .kwElse :: wordsOf (Layout.elseBranch depth b) := by
        simp [Layout.optionalElse, textWords, Terminals.row, Spelling.kinds]
      rw [words]
      exact ofElse b rfl depth rest noElse
  refine .last last fun else' sameElse => .spanFrom fun span' => .pure ?_
  simp_all [Alike, bare]

theorem rereadElseIf {x : IfCmd} (ofX : IsBranchReread x) : IsElseReread (.elseIf x) := by
  intro depth rest noElse
  have starts : headKind (wordsOf (Layout.ifCmd depth x) ++ rest) = .kwIf := by
    obtain ⟨guard, thenBranch, elseBranch, span⟩ := x
    rw [wordsIf]
    rfl
  refine .eatYes rfl (.ifYes (beq_iff_eq.mpr starts) (.last (ofX depth rest noElse) fun x' same => .pure ?_))
  simpa [Alike, bare] using same

theorem rereadElseBlock {l : StmtList} (ofL : IsBodyReread l) : IsElseReread (.block l) := by
  intro depth rest noElse
  dsimp only
  rw [Layout.elseBranch, wordsNested]
  refine .eatYes rfl (.ifNo rfl (.eatYes rfl (.last (ofL _ rest) fun l' same => .pure ?_)))
  simpa [Alike, bare] using same

def IsLoopReread (x : WhileCmd) : Prop :=
  ∀ depth rest, Reads (wordsOf (Layout.whileCmd depth x)) rest (Alike x) (whileCmd stmtList)

theorem wordsWhile (depth : Nat) (guard : Option Expr) (invariants : List Clause) (body : StmtList) (span : Span) :
    wordsOf (Layout.whileCmd depth ⟨guard, invariants, body, span⟩) = Word.of .kwWhile :: (wordsOf (Layout.guard guard) ++
      (invariants.flatMap (clauseWords .kwInvariant) ++ Word.of .leftBrace :: bodyWords (depth + 1) body)) := by
  simp [Layout.whileCmd, wordsInvariants, wordsNested, textWords, Terminals.row, Spelling.kinds]

theorem rereadWhile {guard : Option Expr} {invariants : List Clause} {body : StmtList} {span : Span}
    (ofGuard : every printable guard) (ofInvariants : every printable invariants) (ofBody : IsBodyReread body) :
    IsLoopReread ⟨guard, invariants, body, span⟩ := by
  intro depth rest
  rw [wordsWhile]
  refine .advance fun t _ => .bind (readsGuard ofGuard _) fun guard' sameGuard => ?_
  refine .bind (readsInvariants ofInvariants) fun invariants' sameInvariants => .expect rfl ?_
  refine .last (ofBody _ rest) fun body' sameBody => .spanFrom fun span' => .pure ?_
  simp_all [Alike, bare]

end Structured

section Tails

variable {span : Span}

theorem tailOfFirst {t : Tail} {k : Kind} (known : tailStart.contains k = true)
    (first : ∀ depth, ∃ more, wordsOf (Layout.tail depth t) = Word.of k :: more)
    (reads : ∀ depth rest, headKind (wordsOf (Layout.tail depth t) ++ rest) = k → headKind rest ≠ .kwElse →
      Reads (wordsOf (Layout.tail depth t)) rest (fun found => Alike (some t) found) (blockTail stmtList)) :
    IsTailReread t := by
  refine ⟨fun depth => ?_, fun depth rest noElse => reads depth rest ?_ noElse⟩
  · obtain ⟨more, same⟩ := first depth
    exact ⟨_, more, same, known⟩
  · obtain ⟨more, same⟩ := first depth
    rw [same]
    rfl

theorem rereadBranchTail {x : IfCmd} (ofX : IsBranchReread x) : IsTailReread (.branch x) := by
  refine tailOfFirst (k := .kwIf) (by decide) (fun depth => ?_) fun depth rest starts noElse => ?_
  · obtain ⟨guard, thenBranch, elseBranch, place⟩ := x
    exact ⟨_, wordsIf depth guard thenBranch elseBranch place⟩
  · refine .byKind starts (.last (ofX depth rest noElse) fun x' alike => .pure ?_)
    simpa [Alike, bare] using alike

theorem rereadLoopTail {x : WhileCmd} (ofX : IsLoopReread x) : IsTailReread (.loop x) := by
  refine tailOfFirst (k := .kwWhile) (by decide) (fun depth => ?_) fun depth rest starts _ => ?_
  · obtain ⟨guard, invariants, body, place⟩ := x
    exact ⟨_, wordsWhile depth guard invariants body place⟩
  · refine .byKind starts (.last (ofX depth rest) fun x' alike => .pure ?_)
    simpa [Alike, bare] using alike

theorem rereadBreak {label : Option String} (named : every printable label) : IsTailReread (.break span label) := by
  have words (depth : Nat) : wordsOf (Layout.tail depth (.break span label)) =
      Word.of .kwBreak :: (wordsOf (Layout.breakLabel label) ++ [Word.of .semicolon]) := by
    simp [Layout.tail, textWords, Terminals.row, Spelling.kinds]
  have ofLabel (rest : List Word) : Reads (wordsOf (Layout.breakLabel label)) (Word.of .semicolon :: rest) (· = label)
      (ifNext (check .identifier) (do return some (← ident).name) (pure none)) := by
    cases label with
    | none => exact .ifNo rfl (.pure rfl)
    | some n =>
      have alone : wordsOf (Layout.breakLabel (some n)) = [nameWord n] := by
        simp [Layout.breakLabel, nameWords (named n rfl)]
      rw [alone]
      exact .ifYes rfl (readsNamed (named n rfl) fun place => .pure rfl)
  refine tailOfFirst (k := .kwBreak) (by decide) (fun depth => ⟨_, words depth⟩) fun depth rest _ _ => ?_
  rw [words]
  refine .byKind rfl (.last (.advance fun t _ => .bind (ofLabel rest) fun label' same => ?_) fun t' alike => .pure alike)
  subst same
  exact .expectLast rfl (.spanFrom fun span' => .pure (by simp [Alike, bare]))

theorem rereadTransferTail {x : Transfer} (shaped : x.isShaped) (valueless : x.hasValue = false)
    (pass : every printable x) : IsTailReread (.transfer x) := by
  have words (depth : Nat) : wordsOf (Layout.tail depth (.transfer x)) = transferWords x ++ [Word.of .semicolon] := by
    rw [Layout.tail, wordsTransfer]
  have reads (rest : List Word) : Reads (transferWords x ++ [Word.of .semicolon]) rest (Alike x) transferCmd := by
    cases x with
    | goto place labels =>
      refine .look fun start => .eatYes rfl (.bind (readsIdents shaped pass (by decide : Kind.semicolon ≠ .comma))
        fun labels' same => .expectLast rfl (.spanFrom fun span' => .pure ?_))
      simpa [Alike, bare] using same
    | leave place =>
      exact .look fun start => .eatNo nofun (.expect rfl (.expectLast rfl (.spanFrom fun span' => .pure rfl)))
    | leaveWith place value => exact absurd valueless nofun
  have made (rest : List Word) : Reads (transferWords x ++ [Word.of .semicolon]) rest
      (fun found => Alike (some (Tail.transfer x)) found) (do return some (.transfer (← transferCmd))) :=
    .last (reads rest) fun x' same => .pure (by simpa [Alike, bare] using same)
  refine ⟨fun depth => ?_, fun depth rest _ => ?_⟩
  · rw [words]
    cases x <;> exact ⟨_, _, rfl, (by decide)⟩
  · dsimp only
    rw [words]
    have starts := transferStarts x ([Word.of .semicolon] ++ rest)
    rw [← List.append_assoc] at starts
    rcases starts with kind | kind <;> exact .byKind kind (made rest)

end Tails

def stmtRereading : StmtFacts where
  stmts := IsBodyReread
  block := IsBigBlockReread
  tail := IsTailReread
  branch := IsBranchReread
  other := IsElseReread
  loop := IsLoopReread

theorem stmtRereadingFollows : stmtRereading.Follow printable where
  stmts here ofBlocks := rereadStmts here.1 here.2 ofBlocks
  block named ofCmds ofTail := rereadBigBlock named (fun c mem => rereadingFollows.ofCmd c (ofCmds c mem)) ofTail
  branchTail ofX := rereadBranchTail ofX
  loopTail ofX := rereadLoopTail ofX
  leave named := rereadBreak named
  transfer here ofX := rereadTransferTail here.1 here.2 ofX
  branch ofGuard ofThen ofElse := rereadIf ofGuard ofThen ofElse
  elseIf ofX := rereadElseIf ofX
  elseBlock ofBody := rereadElseBlock ofBody
  loop ofGuard ofInvariants ofBody := rereadWhile ofGuard ofInvariants ofBody

theorem rereadBody {l : StmtList} (pass : every printable l) : IsBodyReread l := stmtRereadingFollows.ofStmts l pass

end Boogie.Grammar
