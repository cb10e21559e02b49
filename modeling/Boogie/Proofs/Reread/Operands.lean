import Boogie.Proofs.Derived.Grown
import Boogie.Proofs.Printed.Flows
import Boogie.Proofs.Reread.Ty

/-! Printed operators are read back. Parentheses stand where an operand would be read otherwise, so what a
printed expression derives is bound as tightly as it has to be where it stands. -/
namespace Boogie.Grammar

open Token (Kind Word)
open Layout (Piece wordsOf precedence wrappedIf wrapsLeft wrapsRight based commaList textWords Terminals
  kindOfBinary kindOfUnary)

/-- Atoms and insides of brackets that are read, in whichever way. -/
def readable : Extras where
  atom ws e := Starts true ws ∧
    ∀ rest, strength (headKind rest) < 11 → Reads ws rest (fun a => bare a = e) (atom operand)
  inside ws f := ∀ text rest, Reads ws (⟨.rightBracket, text⟩ :: rest) (IsInside f) (indexes operand)

theorem readableAccepted : readable.Accepted :=
  ⟨fun _ _ read => read.1, fun read weak => read.2 _ weak, fun read => read _ _⟩

theorem readsTight {ws rest : List Word} {V : Operand → Prop} (starts : Starts true ws)
    (weak : strength (headKind rest) < 1) (h : Reads ws rest V (coercion operand)) :
    Reads ws rest V (equivalence operand) := by
  have unary : Reads ws rest V (unary operand) := by
    obtain ⟨w, more, rfl, first, unsigned⟩ := starts
    refine .byKind rfl ?_
    simp only [List.cons_append, headKindCons, unsigned rfl]
    exact .ifYes first h
  have power : Reads ws rest V (power operand) :=
    .last unary fun o ofO => .eatNo (notOfStrength (show strength (headKind rest) < 8 by omega) (by decide))
      (.pure ofO)
  have multiplicative : Reads ws rest V (multiplicative operand) :=
    .last power fun o ofO => .whileDone (by rw [multiplicativeOpWeak (by omega)]; rfl) ofO
  have additive : Reads ws rest V (additive operand) :=
    .last multiplicative fun o ofO => .whileDone (by rw [additiveOpWeak (by omega)]; rfl) ofO
  have concatenation : Reads ws rest V (concatenation operand) :=
    .last additive fun o ofO => .whileDone (by rw [concatOpWeak (by omega)]; rfl) ofO
  have relational : Reads ws rest V (relational operand) := .last concatenation fun o ofO => .byKind rfl (by
    rw [List.nil_append, relationalOpWeak (by omega)]
    exact .pure ofO)
  have logical : Reads ws rest V (logical operand) := .last relational fun o ofO => .byKind rfl (by
    rw [List.nil_append, logicalOpWeak (by omega)]
    exact .pure ofO)
  have ⟨noExplies, noImplies⟩ := arrowsWeak (show strength (headKind rest) < 2 by omega)
  have implication : Reads ws rest V (implication operand false) := .last logical fun o ofO => .byKind rfl (by
    split
    · exact absurd ‹_› noImplies
    · exact absurd ‹_› noExplies
    · exact .pure ofO)
  exact .last implication fun o ofO => .whileDone (by rw [iffOpWeak weak]; rfl) ofO

theorem readsTightAtom {ws rest : List Word} {e : Expr} (starts : Starts true ws) (weak : strength (headKind rest) < 1)
    (h : Reads ws rest (fun a => bare a = e) (atom operand)) : Reads ws rest (IsTree e) (equivalence operand) := by
  have noBracket : headKind rest ≠ .leftBracket := notOfStrength (show strength (headKind rest) < 10 by omega) (by decide)
  have noColon : headKind rest ≠ .colon := notOfStrength (show strength (headKind rest) < 9 by omega) (by decide)
  have brackets : Reads ws rest (fun a => bare a = e) (brackets operand) :=
    .last h fun a ofA => .whileDone (by simpa using noBracket) ofA
  exact readsTight starts weak (.last brackets fun a ofA => .whileEatsDone noColon (isTree ofA))

def stands (e : Expr) (rank : Rank) : Prop := standsAt (precedence e) (e.asBinary.map Prod.fst) rank

theorem precedencePos (e : Expr) : 1 ≤ precedence e := by
  unfold Layout.precedence
  split
  · rename_i op _
    cases op <;> decide
  all_goals decide

def IsDerived (e : Expr) : Prop :=
  ∀ rank, stands e rank → Derives readable (.expr rank) (wordsOf (Layout.expr e)) (bare e)

section Operands

variable {e : Expr}

theorem IsDerived.whole (h : IsDerived e) :
    Derives readable (.expr .equivalence) (wordsOf (Layout.expr e)) (bare e) :=
  h .equivalence ⟨precedencePos e, nofun, nofun⟩

theorem IsDerived.starts (h : IsDerived e) : Starts false (wordsOf (Layout.expr e)) :=
  h.whole.begins readableAccepted.starting

theorem IsDerived.operand (h : IsDerived e) {wraps : Bool} {rank : Rank}
    (fits : wraps = false → stands e rank) :
    Derives readable (.expr rank) (wordsOf (wrappedIf wraps (Layout.expr e))) (bare e) := by
  cases wraps with
  | true =>
    rw [wrappedIf, if_pos rfl, wordsWrapped]
    exact .ofAtom (.paren h.whole) rank
  | false => exact h rank (fits rfl)

theorem standsTight {rank : Rank} (tight : rank.strength ≤ precedence e) (noOr : rank ≠ .conjunction)
    (noAnd : rank ≠ .disjunction) : stands e rank :=
  ⟨tight, fun same => absurd same noOr, fun same => absurd same noAnd⟩

theorem standsLeft {op : BinaryOp} (unwrapped : wrapsLeft op e = false) : stands e (leftRank op) := by
  have tight : (leftRank op).strength ≤ precedence e := by
    cases op <;> simp only [wrapsLeft, Layout.grouping, Bool.or_eq_false_iff] at unwrapped <;>
      first | exact Nat.le_of_not_lt (of_decide_eq_false unwrapped.1)
            | exact Nat.lt_of_not_le (of_decide_eq_false unwrapped)
  have unmixed (other : Layout.isOtherLogical op e = false) {mixed : BinaryOp}
      (found : e.asBinary.map Prod.fst = some mixed) : (op, mixed) ≠ (.and, .or) ∧ (op, mixed) ≠ (.or, .and) := by
    obtain ⟨⟨_, operands⟩, same, rfl⟩ := Option.map_eq_some_iff.mp found
    constructor <;> rintro ⟨⟩ <;> simp [Layout.isOtherLogical, same] at other
  cases op with
  | and => exact ⟨tight, fun _ found => (unmixed (Bool.or_eq_false_iff.mp unwrapped).2 found).1 rfl, nofun⟩
  | or => exact ⟨tight, nofun, fun _ found => (unmixed (Bool.or_eq_false_iff.mp unwrapped).2 found).2 rfl⟩
  | _ => exact standsTight tight (by decide) (by decide)

theorem IsDerived.left (h : IsDerived e) (op : BinaryOp) :
    Derives readable (.expr (leftRank op)) (wordsOf (wrappedIf (wrapsLeft op e) (Layout.expr e))) (bare e) :=
  h.operand standsLeft

theorem IsDerived.right (h : IsDerived e) (op : BinaryOp) :
    Derives readable (.expr (rightRank op)) (wordsOf (wrappedIf (wrapsRight op e) (Layout.expr e))) (bare e) := by
  refine h.operand fun unwrapped => standsTight ?_ (by cases op <;> decide) (by cases op <;> decide)
  cases op <;> first | exact Nat.lt_of_not_le (of_decide_eq_false unwrapped)
                     | exact Nat.le_of_not_lt (of_decide_eq_false unwrapped)

theorem IsDerived.based (h : IsDerived e) : Derives readable (.expr .brackets) (wordsOf (Layout.based e)) (bare e) :=
  h.operand fun unwrapped => standsTight (Nat.le_of_not_lt (of_decide_eq_false unwrapped)) (by decide) (by decide)

end Operands

theorem wordsCommaCons {α : Type} {print : α → List Piece} (a b : α) (as : List α) :
    wordsOf (commaList ((a :: b :: as).map print)) =
      wordsOf (print a) ++ Word.of .comma :: wordsOf (commaList ((b :: as).map print)) := by
  rw [commaList, commaList, List.map_cons, List.map_cons, List.intercalate_cons_cons, Layout.wordsOfAppend,
    ← List.map_cons]
  simp [commaWords]

theorem derivedExprs {es : List Expr} (filled : es ≠ []) (each : ∀ e ∈ es, IsDerived e) :
    Derives readable .exprs (wordsOf (commaList (es.map Layout.expr))) (bare es) := by
  induction es with
  | nil => exact absurd rfl filled
  | cons e es ih =>
    obtain ⟨first, others⟩ := List.forall_mem_cons.mp each
    cases es with
    | nil =>
      rw [List.map_singleton, commaList, List.intercalate_singleton]
      exact .one first.whole
    | cons e' es =>
      rw [wordsCommaCons]
      exact .cons first.whole (ih (List.cons_ne_nil e' es) others)

inductive IsNumber : List Word → Nat → Prop
  | digits {text n} (reads : Text.readNat text = some n) : IsNumber [⟨.digits, text⟩] n
  | paren {opened ws closed n} (inner : IsNumber ws n) :
      IsNumber (⟨.leftParen, opened⟩ :: (ws ++ [⟨.rightParen, closed⟩])) n

inductive IsRange : List Word → Nat → Nat → Prop
  | bounds {ws upper colon text lower} (first : IsNumber ws upper) (upperFits : upper < Text.wordCount 32)
      (last : Text.readNat text = some lower) (lowerFits : lower < Text.wordCount 32) :
      IsRange (ws ++ [⟨.colon, colon⟩, ⟨.digits, text⟩]) upper lower

theorem IsNumber.derived {X : Extras} {ws : List Word} {n : Nat} (h : IsNumber ws n) :
    Derives X (.expr .atom) ws (.literal .nowhere (.int n)) := by
  induction h with
  | digits reads =>
    have first : literalStart.contains .digits = true := by decide
    exact .literal first (by simp [literalOfWord, literalOf, reads])
  | paren _ ih => exact .paren (ih.ofAtom .equivalence)

theorem readsBitBound {n : Nat} (fits : n < Text.wordCount 32) {rest : List Word} :
    Reads [] rest (· = n) (bitBound n) := by
  rw [bitBound, if_pos ⟨Int.natCast_nonneg n, by exact_mod_cast fits⟩]
  exact .pure (Int.toNat_natCast n)

def IsBits (upper lower : Nat) (o : Operand) : Prop := ∃ span, o = .bits ⟨upper, lower, span⟩

theorem readsLower {upper lower : Nat} {text : List Char} (fits : upper < Text.wordCount 32)
    (reads : Text.readNat text = some lower) (fits' : lower < Text.wordCount 32) {a : Expr}
    (ofA : bare a = .literal .nowhere (.int upper)) {rest : List Word} :
    Reads [⟨.digits, text⟩] rest (IsBits upper lower) (coerced (.expr a)) := by
  obtain ⟨span, rfl⟩ : ∃ span, a = .literal span (.int upper) := by
    cases a <;> simp [bare] at ofA
    exact ⟨_, congrArg _ ofA⟩
  refine .ifNo (by decide : typeStart.contains .digits = false) (.ifYes rfl (.advance fun t same => ?_))
  have spelled : t.text.toList = text := congrArg Word.text same
  have value : natValue t.text = pure lower := by rw [natValue, spelled, reads]
  rw [value]
  refine .stay (V := (· = lower)) (.pure rfl) ?_
  rintro _ rfl
  refine .stay (readsBitBound fits') ?_
  rintro _ rfl
  refine .stay (V := (· = upper)) (readsBitBound fits) ?_
  rintro _ rfl
  exact .pure ⟨_, rfl⟩

def extractTree (upper lower : Nat) (base : Expr) : Expr := .apply .nowhere (.extract upper lower) [base]

def IsBounds (upper lower : Nat) (found : List Expr × Option BitRange × Option Expr) : Prop :=
  ∃ span, found = ([], some ⟨upper, lower, span⟩, none)

theorem IsBounds.isInside {upper lower : Nat} {found : List Expr × Option BitRange × Option Expr}
    (h : IsBounds upper lower found) : IsInside (extractTree upper lower) found := by
  obtain ⟨_, rfl⟩ := h
  exact fun span base => by simp [bare, bracketed, extractTree]

theorem readsBounds {inner : List Word} {upper lower : Nat} (h : IsRange inner upper lower) (text : List Char)
    (rest : List Word) : Reads inner (⟨.rightBracket, text⟩ :: rest) (IsBounds upper lower) (indexes operand) := by
  obtain @⟨ws, upper, colon, digits, lower, number, fits, reads, fits'⟩ := h
  let after : List Word := [⟨.colon, colon⟩, ⟨.digits, digits⟩]
  have derived : Derives .none (.expr .brackets) ws (.literal .nowhere (.int upper)) := number.derived.ofAtom .brackets
  have starts : Starts true (ws ++ after) := (derived.begins Extras.noneStarting).append after
  have first : Reads ws (after ++ ⟨.rightBracket, text⟩ :: rest)
      (fun a => bare a = .literal .nowhere (.int upper)) (brackets operand) :=
    readsInside (derived.accepted Extras.noneAccepted _ (by decide : strength .colon < 10))
  have both : Reads (ws ++ after) (⟨.rightBracket, text⟩ :: rest) (IsBits upper lower) (coercion operand) := by
    refine .bind first fun a ofA => ?_
    exact .whileEatsRound (by decide : Kind.colon ≠ .endOfText) rfl (readsLower fits reads fits' ofA) fun o ofO =>
      .whileEatsDone (by decide : Kind.rightBracket ≠ .colon) ofO
  have whole : Reads (ws ++ after) (⟨.rightBracket, text⟩ :: rest) (IsBits upper lower) (operand .whole) := by
    have weak : strength .rightBracket < 1 := by decide
    refine .ofSame (alikeUnfold .whole) ?_ (readsTight starts weak both)
    rintro _ o' same ⟨span, rfl⟩
    cases o' with
    | expr e => simp [Alike, bare] at same
    | bits range =>
      obtain ⟨upper', lower', span'⟩ := range
      obtain ⟨rfl, rfl⟩ : upper = upper' ∧ lower = lower' := by simpa [Alike, bare] using same
      exact ⟨_, rfl⟩
  have opens : exprStart.contains (headKind ((ws ++ after) ++ ⟨.rightBracket, text⟩ :: rest)) = true := by
    obtain ⟨w, more, is, opens, _⟩ := starts
    rw [is]
    exact opens
  refine .ifYes opens (.last whole ?_)
  rintro _ ⟨span, rfl⟩
  refine .stay (.manyEatsDone (by decide : Kind.rightBracket ≠ .comma)) ?_
  rintro _ rfl
  refine .stay (V := (· = none)) (.eatNo (by decide : Kind.rightBracket ≠ .assign) (.pure rfl)) ?_
  rintro _ rfl
  exact .pure ⟨_, rfl⟩

end Boogie.Grammar
