import Boogie.Proofs.Derived.Accepted
import Boogie.Proofs.Printed.Texts

/-! Derivations that grow at their end: by one more operand of a chain, or by one more bracket. Operators with
derived operands are derived, wherever nothing that binds more tightly is asked for. -/
namespace Boogie.Grammar

open Token (Kind Word)
open Layout (kindOfBinary kindOfUnary)

def Phrase.Grows (X : Extras) : (p : Phrase) → List Word → p.Tree → Prop
  | .chain rank left, ws, e => ∀ ⦃k text join ws' e'⦄, rank.joins k = some join →
    Derives X (.expr rank.operand) ws' e' → Derives X (.chain rank left) (ws ++ ⟨k, text⟩ :: ws') (join e e')
  | .brackets base, ws, e => ∀ ⦃opened ws' f closed⦄, Derives X .inside ws' f →
    Derives X (.brackets base) (ws ++ ⟨.leftBracket, opened⟩ :: (ws' ++ [⟨.rightBracket, closed⟩])) (f e)
  | .expr rank, ws, e => rank = .brackets → ∀ ⦃opened ws' f closed⦄, Derives X .inside ws' f →
    Derives X (.expr .brackets) (ws ++ ⟨.leftBracket, opened⟩ :: (ws' ++ [⟨.rightBracket, closed⟩])) (f e)
  | _, _, _ => True

theorem Derives.grows {X : Extras} {p : Phrase} {ws : List Word} {tree : p.Tree} (h : Derives X p ws tree) :
    p.Grows X ws tree := by
  induction h with
  | done =>
    intro k text join ws' e' joins next
    simpa using Derives.more joins next .done
  | more joins next _ _ ih =>
    intro k text join ws' e' joins' next'
    simpa using Derives.more joins next (ih joins' next')
  | bare =>
    intro opened ws' f closed inside
    exact .bracket inside .bare
  | bracket inside _ _ ih =>
    intro opened ws' f closed inside'
    simpa using Derives.bracket inside (ih inside')
  | chain _ more ih _ =>
    rintro rfl opened ws' f closed inside
    cases more with
    | done => simpa using ih rfl inside
    | more joins => simp [Rank.joins] at joins
  | brackets atom _ _ ih =>
    intro _ opened ws' f closed inside
    rw [List.append_assoc]
    exact .brackets atom (ih inside)
  | arrow place => rcases place with rfl | rfl <;> rintro ⟨⟩
  | _ => first | trivial | rintro ⟨⟩

namespace Derives

variable {X : Extras} {ws ws' : List Word} {e e' : Expr}

theorem join {rank : Rank} {k : Kind} {text : List Char} {join : Expr → Expr → Expr} (chained : rank ≠ .implication)
    (joins : rank.joins k = some join) (h : Derives X (.expr rank) ws e) (next : Derives X (.expr rank.operand) ws' e') :
    Derives X (.expr rank) (ws ++ ⟨k, text⟩ :: ws') (join e e') := by
  cases h with
  | chain first more =>
    rw [List.append_assoc]
    exact .chain first (more.grows joins next)
  | arrow place =>
    rcases place with rfl | rfl
    · exact absurd rfl chained
    · contradiction
  | _ => contradiction

end Derives

def leftRank : BinaryOp → Rank
  | .iff => .equivalence
  | .implies => .logical
  | .and => .conjunction
  | .or => .disjunction
  | .equal | .notEqual | .less | .greater | .atMost | .atLeast | .subtype => .concatenation
  | .add | .subtract => .additive
  | .multiply | .divide | .modulo | .divideReal => .multiplicative
  | .power => .unary

def rightRank : BinaryOp → Rank
  | .iff => .implication
  | .implies => .implied
  | .and | .or => .relational
  | .equal | .notEqual | .less | .greater | .atMost | .atLeast | .subtype => .concatenation
  | .add | .subtract => .multiplicative
  | .multiply | .divide | .modulo | .divideReal => .power
  | .power => .power

def standsAt (strength : Nat) (chained : Option BinaryOp) (rank : Rank) : Prop :=
  rank.strength ≤ strength ∧ (rank = .conjunction → chained ≠ some .or) ∧ (rank = .disjunction → chained ≠ some .and)

namespace Derives

variable {X : Extras} {ws ws' : List Word} {e e' : Expr}

theorem binary {op : BinaryOp} (left : Derives X (.expr (leftRank op)) ws e)
    (right : Derives X (.expr (rightRank op)) ws' e') (rank : Rank) (stands : standsAt op.precedence (some op) rank) :
    Derives X (.expr rank) (ws ++ Word.of (kindOfBinary op) :: ws') (binaryTree op e e') := by
  obtain ⟨looser, noOr, noAnd⟩ := stands
  cases op with
  | iff =>
    obtain rfl : rank = .equivalence := by revert looser; cases rank <;> decide
    exact left.join (by decide) rfl right
  | implies =>
    have arrow {rank : Rank} (place : rank = .implication ∨ rank = .implied) :
        Derives X (.expr rank) (ws ++ Word.of .implies :: ws') (binaryTree .implies e e') := .arrow place left right
    cases rank with
    | equivalence => exact .alone (arrow (.inl rfl))
    | implication => exact arrow (.inl rfl)
    | implied => exact arrow (.inr rfl)
    | _ => exact absurd looser (by decide)
  | and => exact ofConjunction (left.join (by decide) rfl right) rank looser fun same => noAnd same rfl
  | or => exact ofDisjunction (left.join (by decide) rfl right) rank looser fun same => noOr same rfl
  | equal | notEqual | less | greater | atMost | atLeast | subtype =>
    exact ofRelational (.compared rfl left right) rank looser
  | add | subtract => exact ofAdditive (left.join (by decide) rfl right) rank looser
  | multiply | divide | modulo | divideReal => exact ofMultiplicative (left.join (by decide) rfl right) rank looser
  | power => exact ofPower (.raised left right) rank looser

theorem concat (left : Derives X (.expr .concatenation) ws e) (right : Derives X (.expr .additive) ws' e')
    (rank : Rank) (looser : rank.strength ≤ 5) :
    Derives X (.expr rank) (ws ++ Word.of .concat :: ws') (concatTree e e') :=
  ofConcatenation (left.join (by decide) rfl right) rank looser

theorem sign {op : UnaryOp} (operand : Derives X (.expr .unary) ws e) (rank : Rank) (looser : rank.strength ≤ 9) :
    Derives X (.expr rank) (Word.of (kindOfUnary op) :: ws) (unaryTree op e) :=
  ofUnary (.signed (by cases op <;> rfl) operand) rank looser

end Derives

end Boogie.Grammar
