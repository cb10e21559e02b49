import Boogie.Proofs.Grammar.Yields
import Mathlib.Data.List.Chain

/-! What is true of the trees that the grammar builds. Some of it is true of all of them; of a clean run
it is also true that every name and every literal was read off a token. -/
namespace Boogie.Grammar

open Token (Kind)

inductive Named (tokens : List Token) : String → Prop
  | written (t : Token) (mem : t ∈ tokens) (kind : t.kind = .identifier) :
    Named tokens (Name.unescape t.text)
  | width (w : Nat) : Named tokens ("bv" ++ toString w)
  | place (i : Nat) : Named tokens ("_" ++ toString i)

def tyRead (tokens : List Token) : Ty → Prop
  | .basic span b => ∃ t ∈ tokens, t.span = span ∧ basicType t.kind = some b
  | _ => True

def exprRead (tokens : List Token) : Expr → Prop
  | .literal span value => ∃ t ∈ tokens, t.span = span ∧ literalOf t = some value
  | _ => True

def paramRead (tokens : List Token) : AttributeParam → Prop
  | .string content => ∃ t ∈ tokens, t.kind = .string ∧ content = Literal.stringContent t.text
  | .expr _ => True

def blockRead (b : Block) : Prop :=
  match b.transfer with
  | .leave _ => False
  | _ => True

def declRead : Decl → Prop
  | .function f => (∀ x ∈ f.formals, x.name = none) ∨ ∀ x ∈ f.formals, positional x = .keeps
  | _ => True

def tyFixed : Ty → Prop
  | .bitVector _ width => width < Text.wordCount 32
  | _ => True

def exprFixed : Expr → Prop
  | .bind _ _ _ vars _ _ _ => ∀ v ∈ vars, v.whereClause = none
  | .apply _ (.extract upper lower) _ => upper < Text.wordCount 32 ∧ lower < Text.wordCount 32
  | _ => True

def cmdFixed : Cmd → Prop
  | .parallel _ calls _ => calls ≠ []
  | _ => True

def isFilled (b : BigBlock) : Prop := b.label.isSome ∨ b.cmds ≠ [] ∨ b.tail.isSome

def isApart (b next : BigBlock) : Prop := b.tail.isSome ∨ next.label.isSome

def stmtListFixed (l : StmtList) : Prop :=
  (∃ b, l.blocks = [b] ∧ ¬ isFilled b) ∨ (∀ b ∈ l.blocks, isFilled b) ∧ l.blocks.IsChain isApart

def declFixed : Decl → Prop
  | .constant c => c.parents = none → c.complete = false
  | .function f => f.result.incoming = false ∧ f.result.whereClause = none ∧
      ∀ x ∈ f.formals, x.incoming = true ∧ x.whereClause = none
  | .procedure p => (∀ f ∈ p.ins, f.incoming = true) ∧ ∀ f ∈ p.outs, f.incoming = false
  | .implementation i => (∀ f ∈ i.ins, f.incoming = true) ∧ ∀ f ∈ i.outs, f.incoming = false
  | _ => True

def Scope.built (G : Scope) : Checks where
  name n := G.clean → Named G.tokens n
  ty t := t.isShaped ∧ tyFixed t ∧ (G.clean → tyRead G.tokens t)
  expr e := e.isShaped ∧ exprFixed e ∧ (G.clean → exprRead G.tokens e)
  attr a := a.isShaped ∧ ∀ p ∈ a.params, paramRead G.tokens p
  trigger := Trigger.isShaped
  cmd c := c.isShaped ∧ cmdFixed c
  block b := b.isShaped ∧ (G.clean → blockRead b)
  tail := Tail.isShaped
  stmtList l := l.isShaped ∧ stmtListFixed l
  decl d := d.isShaped ∧ declFixed d ∧ (G.clean → declRead d)

theorem builtImpliesWellFormed (G : Scope) : G.built.Implies wellFormed where
  name _ _ := trivial
  ty _ h _ := h.1
  expr _ h _ := h.1
  attr _ h := h.1
  trigger _ h := h
  cmd _ h := h.1
  block _ h := h.1
  tail _ h := h
  stmtList _ h := h.1
  decl _ h := h.1

abbrev Builds (G : Scope) (n : Nat) (sort : Kind → Prop) {α : Type} [Inspected α] (m : Production α) :
    Prop := Yields G n sort (every G.built) m

section Names

variable {G : Scope} {n : Nat} {sort : Kind → Prop}

theorem buildsIdentWritten : Builds G n sort identWritten := by
  refine .ifNext ?_ ?_
  · refine .bind (.advance ?_) fun t ⟨mem, _, kind⟩ => .pure ?_
    · rintro k ⟨_, same⟩ rfl
      simp at same
    · exact ⟨fun _ => .written t mem (by simpa using kind), trivial⟩
  · refine .bind (.fault (.syntaxError _)) fun _ dirty => .any fun span => .pure ?_
    exact ⟨fun clean => absurd clean dirty, trivial⟩

theorem buildsIdent : Builds G n sort ident := .bind buildsIdentWritten fun _ found => .pure found.1

theorem buildsIdents : Yields G n sort (fun ids => ids ≠ [] ∧ every G.built ids) idents :=
  .separated (by decide) buildsIdent buildsIdent (Nat.le_succ n)

end Names

theorem buildsCommaSeparated {G : Scope} {n : Nat} {sort : Kind → Prop} {α : Type} [Inspected α]
    {item : Production α} (nested : Builds G n anywhere item) :
    Yields G n sort (fun as => as ≠ [] ∧ every G.built as) (commaSeparated item) :=
  .separated (by decide) nested.always nested (Nat.le_succ n)

end Boogie.Grammar
