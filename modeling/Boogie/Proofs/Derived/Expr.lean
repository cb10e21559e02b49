import Boogie.Grammar.Expr
import Boogie.Proofs.Grammar.Reads

/-! The grammar of expressions as a relation between words and trees. Each rank of operands is made of the
ranks that bind more tightly; a chain of operators groups to the left behind its first operand. The trees
have no places. -/
namespace Boogie.Grammar

open Token (Kind KindSet Word)

inductive Rank where
  | equivalence
  | implication
  | implied
  | logical
  | conjunction
  | disjunction
  | relational
  | concatenation
  | additive
  | multiplicative
  | power
  | unary
  | brackets
  | atom
  deriving DecidableEq, Repr

namespace Rank

def strength : Rank → Nat
  | .equivalence => 1
  | .implication | .implied => 2
  | .logical | .conjunction | .disjunction => 3
  | .relational => 4
  | .concatenation => 5
  | .additive => 6
  | .multiplicative => 7
  | .power => 8
  | .unary => 9
  | .brackets => 10
  | .atom => 11

def operand : Rank → Rank
  | .equivalence => .implication
  | .implication => .logical
  | .conjunction | .disjunction => .relational
  | .concatenation => .additive
  | .additive => .multiplicative
  | .multiplicative => .power
  | rank => rank

end Rank

/-- How tightly a token binds the operand in front of it, if it does at all. -/
def strength : Kind → Nat
  | .iff => 1
  | .implies | .explies => 2
  | .and | .or => 3
  | .equal | .notEqual | .less | .greater | .atMost | .atLeast | .subtype => 4
  | .concat => 5
  | .plus | .minus => 6
  | .star | .kwDiv | .kwMod | .slash => 7
  | .power => 8
  | .colon => 9
  | .leftBracket => 10
  | .leftParen => 11
  | _ => 0

def binaryTree (op : BinaryOp) (left right : Expr) : Expr := .apply .nowhere (.binary op) [left, right]

def concatTree (left right : Expr) : Expr := .apply .nowhere .concat [left, right]

def unaryTree (op : UnaryOp) (operand : Expr) : Expr := .apply .nowhere (.unary op) [operand]

def callTree (function : String) (args : List Expr) : Expr := .apply .nowhere (.call function) args

def selectTree (indexes : List Expr) (base : Expr) : Expr :=
  .apply .nowhere (.select indexes.length) (base :: indexes)

def storeTree (indexes : List Expr) (value base : Expr) : Expr :=
  .apply .nowhere (.store indexes.length) (base :: (indexes ++ [value]))

def Rank.joins : Rank → Kind → Option (Expr → Expr → Expr)
  | .equivalence, .iff => some (binaryTree .iff)
  | .implication, .explies => some fun left right => binaryTree .implies right left
  | .conjunction, .and => some (binaryTree .and)
  | .disjunction, .or => some (binaryTree .or)
  | .concatenation, .concat => some concatTree
  | .additive, k => (additiveOp k).map binaryTree
  | .multiplicative, k => (multiplicativeOp k).map binaryTree
  | _, _ => none

def literalOfWord (w : Word) : Option Literal := literalOf ⟨w.kind, String.ofList w.text, .nowhere, ⟨0, 0⟩⟩

inductive Phrase where
  | expr (rank : Rank)
  | chain (rank : Rank) (left : Expr)
  | brackets (base : Expr)
  | inside
  | exprs

abbrev Phrase.Tree : Phrase → Type
  | .expr _ | .chain _ _ | .brackets _ => Expr
  | .inside => Expr → Expr
  | .exprs => List Expr

structure Extras where
  atom : List Word → Expr → Prop
  inside : List Word → (Expr → Expr) → Prop

def Extras.none : Extras := ⟨fun _ _ => False, fun _ _ => False⟩

inductive Derives (X : Extras) : (p : Phrase) → List Word → p.Tree → Prop where
  | chain {rank ws e ws' e'} (first : Derives X (.expr (Rank.operand rank)) ws e)
      (more : Derives X (.chain rank e) ws' e') : Derives X (.expr rank) (ws ++ ws') e'
  | done {rank left} : Derives X (.chain rank left) [] left
  | more {rank left k text join ws e ws' e'} (joins : Rank.joins rank k = some join)
      (next : Derives X (.expr (Rank.operand rank)) ws e)
      (more : Derives X (.chain rank (join left e)) ws' e') :
      Derives X (.chain rank left) (⟨k, text⟩ :: (ws ++ ws')) e'
  | arrow {rank ws e text ws' e'} (place : rank = .implication ∨ rank = .implied)
      (left : Derives X (.expr .logical) ws e) (right : Derives X (.expr .implied) ws' e') :
      Derives X (.expr rank) (ws ++ ⟨.implies, text⟩ :: ws') (binaryTree .implies e e')
  | implied {ws e} (last : Derives X (.expr .logical) ws e) : Derives X (.expr .implied) ws e
  | conjunction {ws e} (all : Derives X (.expr .conjunction) ws e) : Derives X (.expr .logical) ws e
  | disjunction {ws e} (any : Derives X (.expr .disjunction) ws e) : Derives X (.expr .logical) ws e
  | compared {k op ws e text ws' e'} (compares : relationalOp k = some op)
      (left : Derives X (.expr .concatenation) ws e) (right : Derives X (.expr .concatenation) ws' e') :
      Derives X (.expr .relational) (ws ++ ⟨k, text⟩ :: ws') (binaryTree op e e')
  | relational {ws e} (one : Derives X (.expr .concatenation) ws e) : Derives X (.expr .relational) ws e
  | raised {ws e text ws' e'} (left : Derives X (.expr .unary) ws e) (right : Derives X (.expr .power) ws' e') :
      Derives X (.expr .power) (ws ++ ⟨.power, text⟩ :: ws') (binaryTree .power e e')
  | power {ws e} (one : Derives X (.expr .unary) ws e) : Derives X (.expr .power) ws e
  | signed {k op text ws e} (sign : unaryOp k = some op) (operand : Derives X (.expr .unary) ws e) :
      Derives X (.expr .unary) (⟨k, text⟩ :: ws) (unaryTree op e)
  | unary {ws e} (one : Derives X (.expr .brackets) ws e) : Derives X (.expr .unary) ws e
  | brackets {ws e ws' e'} (base : Derives X (.expr .atom) ws e) (more : Derives X (.brackets e) ws' e') :
      Derives X (.expr .brackets) (ws ++ ws') e'
  | bare {base} : Derives X (.brackets base) [] base
  | bracket {base opened ws f closed ws' e} (inside : Derives X .inside ws f)
      (more : Derives X (.brackets (f base)) ws' e) :
      Derives X (.brackets base) (⟨.leftBracket, opened⟩ :: (ws ++ ⟨.rightBracket, closed⟩ :: ws')) e
  | empty : Derives X .inside [] (selectTree [])
  | select {ws es} (indexes : Derives X .exprs ws es) : Derives X .inside ws (selectTree es)
  | store {ws es text ws' e} (indexes : Derives X .exprs ws es) (value : Derives X (.expr .equivalence) ws' e) :
      Derives X .inside (ws ++ ⟨.assign, text⟩ :: ws') (storeTree es e)
  | storeAll {text ws e} (value : Derives X (.expr .equivalence) ws e) :
      Derives X .inside (⟨.assign, text⟩ :: ws) (storeTree [] e)
  | otherInside {ws f} (other : X.inside ws f) : Derives X .inside ws f
  | one {ws e} (one : Derives X (.expr .equivalence) ws e) : Derives X .exprs ws [e]
  | cons {ws e text ws' es} (first : Derives X (.expr .equivalence) ws e) (more : Derives X .exprs ws' es) :
      Derives X .exprs (ws ++ ⟨.comma, text⟩ :: ws') (e :: es)
  | name {text} : Derives X (.expr .atom) [⟨.identifier, text⟩] (.name .nowhere (Reads.nameOf text))
  | call {text opened ws es closed} (args : Derives X .exprs ws es) :
      Derives X (.expr .atom) (⟨.identifier, text⟩ :: ⟨.leftParen, opened⟩ :: (ws ++ [⟨.rightParen, closed⟩]))
        (callTree (Reads.nameOf text) es)
  | callNone {text opened closed} :
      Derives X (.expr .atom) [⟨.identifier, text⟩, ⟨.leftParen, opened⟩, ⟨.rightParen, closed⟩]
        (callTree (Reads.nameOf text) [])
  | literal {w value} (first : literalStart.contains w.kind = true) (reads : literalOfWord w = some value) :
      Derives X (.expr .atom) [w] (.literal .nowhere value)
  | paren {opened ws e closed} (inner : Derives X (.expr .equivalence) ws e) :
      Derives X (.expr .atom) (⟨.leftParen, opened⟩ :: (ws ++ [⟨.rightParen, closed⟩])) e
  | otherAtom {ws e} (other : X.atom ws e) : Derives X (.expr .atom) ws e

namespace Derives

variable {X : Extras} {ws : List Word} {e : Expr}

theorem alone {rank : Rank} (h : Derives X (.expr rank.operand) ws e) : Derives X (.expr rank) ws e := by
  simpa using Derives.chain h .done

theorem ofLogical (h : Derives X (.expr .logical) ws e) (rank : Rank) (looser : rank.strength ≤ 2) :
    Derives X (.expr rank) ws e := by
  cases rank with
  | equivalence => exact .alone (.alone h)
  | implication => exact .alone h
  | implied => exact .implied h
  | _ => exact absurd looser (by decide)

theorem ofConjunction (h : Derives X (.expr .conjunction) ws e) (rank : Rank) (looser : rank.strength ≤ 3)
    (same : rank ≠ .disjunction) : Derives X (.expr rank) ws e := by
  by_cases here : rank = .conjunction ∨ rank = .logical
  · rcases here with rfl | rfl
    · exact h
    · exact .conjunction h
  · exact ofLogical (.conjunction h) rank (by revert here looser same; cases rank <;> decide)

theorem ofDisjunction (h : Derives X (.expr .disjunction) ws e) (rank : Rank) (looser : rank.strength ≤ 3)
    (same : rank ≠ .conjunction) : Derives X (.expr rank) ws e := by
  by_cases here : rank = .disjunction ∨ rank = .logical
  · rcases here with rfl | rfl
    · exact h
    · exact .disjunction h
  · exact ofLogical (.disjunction h) rank (by revert here looser same; cases rank <;> decide)

theorem ofRelational (h : Derives X (.expr .relational) ws e) (rank : Rank) (looser : rank.strength ≤ 4) :
    Derives X (.expr rank) ws e := by
  by_cases here : rank = .relational ∨ rank = .disjunction
  · rcases here with rfl | rfl
    · exact h
    · exact .alone h
  · have less : rank.strength ≤ 3 := by revert here looser; cases rank <;> decide
    exact ofConjunction (.alone h) rank less fun same => here (.inr same)

theorem ofConcatenation (h : Derives X (.expr .concatenation) ws e) (rank : Rank) (looser : rank.strength ≤ 5) :
    Derives X (.expr rank) ws e := by
  by_cases here : rank = .concatenation
  · exact here ▸ h
  · exact ofRelational (.relational h) rank (by revert here looser; cases rank <;> decide)

theorem ofAdditive (h : Derives X (.expr .additive) ws e) (rank : Rank) (looser : rank.strength ≤ 6) :
    Derives X (.expr rank) ws e := by
  by_cases here : rank = .additive
  · exact here ▸ h
  · exact ofConcatenation (.alone h) rank (by revert here looser; cases rank <;> decide)

theorem ofMultiplicative (h : Derives X (.expr .multiplicative) ws e) (rank : Rank) (looser : rank.strength ≤ 7) :
    Derives X (.expr rank) ws e := by
  by_cases here : rank = .multiplicative
  · exact here ▸ h
  · exact ofAdditive (.alone h) rank (by revert here looser; cases rank <;> decide)

theorem ofPower (h : Derives X (.expr .power) ws e) (rank : Rank) (looser : rank.strength ≤ 8) :
    Derives X (.expr rank) ws e := by
  by_cases here : rank = .power
  · exact here ▸ h
  · exact ofMultiplicative (.alone h) rank (by revert here looser; cases rank <;> decide)

theorem ofUnary (h : Derives X (.expr .unary) ws e) (rank : Rank) (looser : rank.strength ≤ 9) :
    Derives X (.expr rank) ws e := by
  by_cases here : rank = .unary
  · exact here ▸ h
  · exact ofPower (.power h) rank (by revert here looser; cases rank <;> decide)

theorem ofBrackets (h : Derives X (.expr .brackets) ws e) (rank : Rank) (looser : rank.strength ≤ 10) :
    Derives X (.expr rank) ws e := by
  by_cases here : rank = .brackets
  · exact here ▸ h
  · exact ofUnary (.unary h) rank (by revert here looser; cases rank <;> decide)

theorem ofAtom (h : Derives X (.expr .atom) ws e) (rank : Rank) : Derives X (.expr rank) ws e := by
  have brackets : Derives X (.expr .brackets) ws e := by simpa using Derives.brackets h .bare
  by_cases here : rank = .atom
  · exact here ▸ h
  · exact ofBrackets brackets rank (by revert here; cases rank <;> decide)

end Derives

def Starts (tight : Bool) (ws : List Word) : Prop :=
  ∃ w more, ws = w :: more ∧ exprStart.contains w.kind = true ∧ (tight = true → unaryOp w.kind = none)

theorem Starts.append {tight : Bool} {ws : List Word} (h : Starts tight ws) (ws' : List Word) :
    Starts tight (ws ++ ws') := by
  obtain ⟨w, more, rfl, first⟩ := h
  exact ⟨w, more ++ ws', rfl, first⟩

theorem Starts.loose {tight : Bool} {ws : List Word} (h : Starts tight ws) : Starts false ws := by
  obtain ⟨w, more, rfl, first, _⟩ := h
  exact ⟨w, more, rfl, first, nofun⟩

def Extras.Starting (X : Extras) : Prop := ∀ ws e, X.atom ws e → Starts true ws

theorem Extras.noneStarting : Extras.none.Starting := fun _ _ => False.elim

def Rank.isTight : Rank → Bool
  | .brackets | .atom => true
  | _ => false

def Phrase.Begins : (p : Phrase) → List Word → p.Tree → Prop
  | .expr rank, ws, _ => Starts rank.isTight ws
  | .chain rank left, ws, e =>
    (ws = [] → e = left) ∧ ∀ w more, ws = w :: more → ∃ join, rank.joins w.kind = some join
  | .brackets _, ws, _ => ∀ w more, ws = w :: more → w.kind = .leftBracket
  | .inside, _, _ => True
  | .exprs, ws, _ => Starts false ws

theorem Derives.begins {X : Extras} (starting : X.Starting) {p : Phrase} {ws : List Word} {tree : p.Tree}
    (h : Derives X p ws tree) : p.Begins ws tree := by
  induction h with
  | @chain rank _ _ _ _ _ _ first _ => cases rank <;> exact first.append _
  | done => exact ⟨fun _ => rfl, nofun⟩
  | more joins =>
    refine ⟨nofun, fun w more same => ?_⟩
    cases same
    exact ⟨_, joins⟩
  | arrow place _ _ left _ =>
    rcases place with rfl | rfl
    · exact left.append _
    · exact left.append _
  | implied _ ih => exact ih
  | conjunction _ ih => exact ih
  | disjunction _ ih => exact ih
  | compared _ _ _ left _ => exact left.append _
  | relational _ ih => exact ih
  | raised _ _ left _ => exact left.append _
  | power _ ih => exact ih
  | @signed k _ _ _ _ sign =>
    have first : exprStart.contains k = true := by
      cases k <;> first | decide | exact absurd sign nofun
    exact ⟨_, _, rfl, first, nofun⟩
  | unary _ ih => exact ih.loose
  | brackets _ _ base _ => exact base.append _
  | bare => exact nofun
  | bracket =>
    intro w more same
    cases same
    rfl
  | empty | select | store | storeAll | otherInside => trivial
  | one _ ih => exact ih
  | cons _ _ first _ => exact first.append _
  | name | call | callNone =>
    exact ⟨_, _, rfl, (by decide : exprStart.contains .identifier = true), fun _ => rfl⟩
  | @literal w _ first =>
    refine ⟨_, _, rfl, ?_, fun _ => ?_⟩
    · rw [exprStart, KindSet.containsUnion, first, Bool.true_or]
    · revert first
      cases w.kind <;> first | exact fun _ => rfl | exact fun first => absurd first (by decide)
  | paren => exact ⟨_, _, rfl, (by decide : exprStart.contains .leftParen = true), fun _ => rfl⟩
  | otherAtom other => exact starting _ _ other

end Boogie.Grammar
