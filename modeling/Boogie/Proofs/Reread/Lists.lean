import Boogie.Proofs.Grammar.Reads
import Boogie.Proofs.Printed.Names
import Boogie.Proofs.Printed.Nodes
import Boogie.Proofs.Printed.Texts
import Mathlib.Data.List.Forall2

/-! Printed lists are read item by item. -/
namespace Boogie.Grammar

open Token (Kind Word)
open Layout (Piece wordsOf)

def ReadsBack {α β : Type} (words : α → List Word) (behind : Kind → Prop) (V : α → β → Prop) (m : Production β)
    (a : α) : Prop :=
  ∀ rest, behind (headKind rest) → Reads (words a) rest (V a) m

section Lists

variable {α β : Type} {as : List α} {W : α → List Word} {behind : Kind → Prop} {V : α → β → Prop}
  {item : Production β} {rest : List Word} {k : Kind}

theorem readsMany {p : Kind → Bool} (moves : Progresses (fun k => p k = true) item)
    (each : ∀ a ∈ as, ReadsBack W behind V item a)
    (opens : ∀ a ∈ as, ∃ w more, W a = w :: more ∧ p w.kind = true ∧ behind w.kind)
    (stops : p (headKind rest) = false) (last : behind (headKind rest)) :
    Reads (as.flatMap W) rest (List.Forall₂ V as) (many (nextIs p) item) := by
  induction as with
  | nil => exact (Reads.manyDone stops).weaken fun bs none => none ▸ .nil
  | cons a as ih =>
    obtain ⟨first, others⟩ := List.forall_mem_cons.mp each
    obtain ⟨⟨w, more, same, holds, _⟩, opens'⟩ := List.forall_mem_cons.mp opens
    have next : behind (headKind (as.flatMap W ++ rest)) := by
      cases as with
      | nil => exact last
      | cons b bs =>
        obtain ⟨⟨w', more', same', _, ok⟩, _⟩ := List.forall_mem_cons.mp opens'
        rw [List.flatMap_cons, same']
        exact ok
    refine (Reads.manyRound moves ?_ (first _ next) (ih others opens')).weaken ?_
    · rw [same]
      exact holds
    · rintro bs ⟨b, bs', rfl, one, rest⟩
      exact .cons one rest

theorem readsMarked (real : k ≠ .endOfText) (each : ∀ a ∈ as, ReadsBack W behind V item a) (between : behind k)
    (stops : headKind rest ≠ k) (last : behind (headKind rest)) :
    Reads (as.flatMap fun a => Word.of k :: W a) rest (List.Forall₂ V as) (many (eat k) item) := by
  induction as with
  | nil => exact (Reads.manyEatsDone stops).weaken fun bs none => none ▸ .nil
  | cons a as ih =>
    obtain ⟨first, others⟩ := List.forall_mem_cons.mp each
    have next : behind (headKind ((as.flatMap fun a => Word.of k :: W a) ++ rest)) := by
      cases as with
      | nil => exact last
      | cons b bs => exact between
    have inside : Reads (W a ++ as.flatMap fun a => Word.of k :: W a) rest (List.Forall₂ V (a :: as))
        (separated k item) := .bind (first _ next) fun b one => .last (ih others) fun bs more => .pure (.cons one more)
    intro s closed words
    have here : s.kind = k := State.kindOfWords closed words
    rw [manyAtMark real closed here]
    exact inside s.advance closed (State.wordsCons words).2

theorem markedStarts (k last : Kind) (W : α → List Word) (as : List α) (rest : List Word) (here : headKind rest = last) :
    headKind ((as.flatMap fun a => Word.of k :: W a) ++ rest) = k ∨
      headKind ((as.flatMap fun a => Word.of k :: W a) ++ rest) = last := by
  cases as with
  | nil => exact .inr here
  | cons a as => exact .inl rfl

theorem readsSeparated {a : α} (real : k ≠ .endOfText) (each : ∀ b ∈ a :: as, ReadsBack W behind V item b)
    (between : behind k) (stops : headKind rest ≠ k) (last : behind (headKind rest)) :
    Reads (W a ++ as.flatMap fun b => Word.of k :: W b) rest (List.Forall₂ V (a :: as)) (separated k item) := by
  obtain ⟨first, others⟩ := List.forall_mem_cons.mp each
  have next : behind (headKind ((as.flatMap fun b => Word.of k :: W b) ++ rest)) := by
    cases as with
    | nil => exact last
    | cons b bs => exact between
  exact .bind (first _ next) fun b one =>
    .last (readsMarked real others between stops last) fun bs more => .pure (.cons one more)

end Lists

def flag (k : Kind) (present : Bool) : List Word := if present then [Word.of k] else []

theorem headKindFlag (k : Kind) (present : Bool) (ws : List Word) :
    headKind (flag k present ++ ws) = if present then k else headKind ws := by
  cases present <;> rfl

theorem readsFlag {β : Type} {k : Kind} {present : Bool} {ws rest : List Word} {V : β → Prop} {f : Bool → Production β}
    (other : headKind (ws ++ rest) ≠ k) (next : Reads ws rest V (f present)) :
    Reads (flag k present ++ ws) rest V (eat k >>= f) := by
  cases present with
  | true => exact .eatYes rfl next
  | false => exact .eatNo other next

section Printed

variable {α β : Type} {a : α} {as : List α} {print : α → List Piece} {behind : Kind → Prop} {V : α → β → Prop}
  {item : Production β} {rest : List Word}

theorem wordsSeparated {mark : String} {k : Kind} (marks : (Piece.text mark).words = [Word.of k]) :
    wordsOf (List.intercalate [.text mark] ((a :: as).map print)) =
      wordsOf (print a) ++ as.flatMap fun b => Word.of k :: wordsOf (print b) := by
  induction as generalizing a with
  | nil => simp
  | cons b as ih =>
    rw [List.map_cons, List.map_cons, List.intercalate_cons_cons, Layout.wordsOfAppend, ← List.map_cons, ih]
    simp [marks]

theorem commaWords : (Piece.text ", ").words = [Word.of .comma] := Layout.textWords ", "

theorem wordsComma : wordsOf (Layout.commaList ((a :: as).map print)) =
    wordsOf (print a) ++ as.flatMap fun b => Word.of .comma :: wordsOf (print b) := wordsSeparated commaWords

theorem readsComma (filled : as ≠ []) (each : ∀ a ∈ as, ReadsBack (fun a => wordsOf (print a)) behind V item a)
    (between : behind .comma) (stops : headKind rest ≠ .comma) (last : behind (headKind rest)) :
    Reads (wordsOf (Layout.commaList (as.map print))) rest (List.Forall₂ V as) (commaSeparated item) := by
  cases as with
  | nil => exact absurd rfl filled
  | cons a as =>
    rw [wordsComma]
    exact readsSeparated (by decide) each between stops last

theorem commaStarts {p : Kind → Bool} (starts : ∃ w more, wordsOf (print a) = w :: more ∧ p w.kind = true)
    (as : List α) (rest : List Word) : p (headKind (wordsOf (Layout.commaList ((a :: as).map print)) ++ rest)) = true := by
  obtain ⟨w, more, same, holds⟩ := starts
  rw [wordsComma, same]
  exact holds

theorem wordsSpaced (as : List α) : wordsOf (Layout.spaced print as) = as.flatMap fun a => wordsOf (print a) := by
  induction as with
  | nil => rfl
  | cons a as ih => simp [Layout.spacedCons, ih]

theorem wordsFlat (as : List α) : wordsOf (as.flatMap print) = as.flatMap fun a => wordsOf (print a) := by
  induction as with
  | nil => rfl
  | cons a as ih => simp [ih]

theorem wordsWrapped (ps : List Piece) :
    wordsOf (Layout.wrapped ps) = Word.of .leftParen :: (wordsOf ps ++ [Word.of .rightParen]) := by
  simp [Layout.wrapped, Layout.textWords, Layout.Terminals.row, Token.Spelling.kinds]

end Printed

theorem alikeOfForall {α : Type} [Spanned α] {as bs : List α} (h : List.Forall₂ Alike as bs) : Alike as bs := by
  induction h with
  | nil => exact .nil
  | cons one _ more => exact .cons one more

theorem readsNamed {β : Type} {n : String} (written : Layout.isWritten n) {f : Ident → Production β}
    {ws rest : List Word} {V : β → Prop} (next : ∀ span, Reads ws rest V (f ⟨n, span⟩)) :
    Reads (Layout.nameWord n :: ws) rest V (ident >>= f) := by
  refine Reads.ident fun span => ?_
  have same : Reads.nameOf (Layout.nameWord n).text = n := Layout.nameOfWord written
  rw [show Reads.nameOf (Name.escape n).toList = n from same]
  exact next span

theorem readsIdent {id : Ident} (written : Layout.isWritten id.name) (rest : List Word) :
    Reads (wordsOf (Layout.name id.name)) rest (Alike id) ident := by
  have step : Reads [Layout.nameWord id.name] rest (Alike id) (ident >>= Pure.pure) :=
    readsNamed written fun span => .pure rfl
  rwa [bind_pure, ← Layout.nameWords written] at step

theorem readsIdents {ns : List Ident} (filled : ns ≠ []) (written : ∀ id ∈ ns, Layout.isWritten id.name)
    {rest : List Word} (stops : headKind rest ≠ .comma) : Reads (wordsOf (Layout.names ns)) rest (Alike ns) idents := by
  have each (id : Ident) (mem : id ∈ ns) :
      ReadsBack (fun id : Ident => wordsOf (Layout.name id.name)) (fun _ => True) Alike ident id :=
    fun rest _ => readsIdent (written id mem) rest
  exact (readsComma filled each trivial stops trivial).weaken fun _ => alikeOfForall

theorem readsOneName {β : Type} {n : String} (written : Layout.isWritten n) (span : Span) {f : List Ident → Production β}
    {ws rest : List Word} {V : β → Prop} (stops : headKind (ws ++ rest) ≠ .comma)
    (next : ∀ ns, Alike [⟨n, span⟩] ns → Reads ws rest V (f ns)) : Reads (Layout.nameWord n :: ws) rest V (idents >>= f) := by
  have single : wordsOf (Layout.names [⟨n, span⟩]) = [Layout.nameWord n] := Layout.nameWords written
  have names : Reads [Layout.nameWord n] (ws ++ rest) (Alike [⟨n, span⟩]) idents := by
    rw [← single]
    exact readsIdents (List.cons_ne_nil _ _) (fun id mem => List.mem_singleton.mp mem ▸ written) stops
  exact .bind names next

end Boogie.Grammar
