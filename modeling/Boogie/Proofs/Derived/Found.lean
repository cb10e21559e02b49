import Boogie.Proofs.Derived.Accepted
import Boogie.Proofs.Grammar.Finds

/-! What is accepted is derived. Where nothing but names, numbers, truth values, operators and brackets are
ahead, whatever a rank reads without a mistake derives what it finds. -/
namespace Boogie.Grammar

open Token (Kind Word)

/-- The kinds that expressions of operators, calls and maps are written with. -/
def isOperatorKind : Kind → Bool
  | .identifier | .digits | .kwTrue | .kwFalse | .leftParen | .rightParen | .leftBracket | .rightBracket | .comma
  | .assign | .iff | .implies | .explies | .and | .or | .equal | .notEqual | .less | .greater | .atMost | .atLeast
  | .subtype | .concat | .plus | .minus | .star | .slash | .kwDiv | .kwMod | .power | .not => true
  | _ => false

abbrev plain (k : Kind) : Prop := (isOperatorKind k || k == .kwAxiom || k == .semicolon) = true

def OfRank (rank : Rank) (ws : List Word) (o : Operand) : Prop :=
  ∃ e, o = .expr e ∧ Derives .none (.expr rank) ws (bare e)

def Level.rank : Level → Rank
  | .whole => .equivalence
  | .implication => .implied
  | .power => .power
  | .unary => .unary

section Operands

variable {n : Nat} {sort : Kind → Prop} {α : Type} {m : Production Operand} {rank : Rank}
  {T : List Word → Operand → Prop} {f : Expr → Operand}

theorem findsOperand {U : List Word → α → Prop} {f : Operand → Production α}
    (step : Finds plain n sort (OfRank rank) m)
    (rest : ∀ ws e, Derives .none (.expr rank) ws (bare e) →
      Finds plain n anywhere (fun ws' => U (ws ++ ws')) (f (.expr e))) :
    Finds plain n sort U (m >>= f) := by
  refine .bind step fun ws o ⟨e, same, derived⟩ => ?_
  subst same
  exact rest ws e derived

theorem findsToExpr {U : List Word → α → Prop} {e : Expr} {f : Expr → Production α}
    (rest : Finds plain n sort U (f e)) : Finds plain n sort U ((Operand.expr e).toExpr >>= f) := rest

theorem findsLast {U : List Word → α → Prop} {g : Expr → α} (step : Finds plain n sort (OfRank rank) m)
    (imp : ∀ ws e, Derives .none (.expr rank) ws (bare e) → U ws (g e)) :
    Finds plain n sort U (do return g (← (← m).toExpr)) :=
  findsOperand step fun ws e derived => findsToExpr (.ends (imp ws e derived))

theorem bareBinaryEq (op : BinaryOp) (left right : Expr) :
    bare (Expr.binary op left right) = binaryTree op (bare left) (bare right) := bareBinary rfl rfl

theorem bareUnaryEq (op : UnaryOp) (start : Span) (e : Expr) :
    bare (Expr.unary op start e) = unaryTree op (bare e) := by
  simp [bare, Expr.unary, unaryTree]

theorem bareCallEq (span : Span) (name : String) (es : List Expr) :
    bare (Expr.apply span (.call name) es) = callTree name (bare es) := by
  simp [bare, callTree]

end Operands

section Lists

variable {n : Nat} {sort : Kind → Prop}

abbrev IsExpr (ws : List Word) (e : Expr) : Prop := Derives .none (.expr .equivalence) ws (bare e)

theorem derivesItems {ws ws' : List Word} {e : Expr} {es : List Expr} (first : IsExpr ws e)
    (more : Finds.Items .comma IsExpr ws' es) : Derives .none .exprs (ws ++ ws') (bare (e :: es)) := by
  induction more generalizing ws e with
  | nil =>
    rw [List.append_nil]
    exact .one first
  | cons next _ ih => exact .cons first (ih next)

theorem findsExprs {item : Production Expr} (one : Finds plain n anywhere IsExpr item) :
    Finds plain n sort (fun ws es => Derives .none .exprs ws (bare es)) (commaSeparated item) :=
  .bind one.always fun _ _ first => .commute (.manyEats (by decide) one) fun _ _ more => derivesItems first more

def IsArguments (ws : List Word) (es : List Expr) : Prop :=
  ∃ inner closed, ws = inner ++ [⟨.rightParen, closed⟩] ∧
    ((inner = [] ∧ es = []) ∨ Derives .none .exprs inner (bare es))

theorem findsArguments {expr : Production Expr} (one : Finds plain n anywhere IsExpr expr) :
    Finds plain n sort IsArguments (callArguments expr) := by
  have ins : Finds plain n sort (fun ws es => (ws = [] ∧ es = []) ∨ Derives .none .exprs ws (bare es))
      (optionalExprs expr) :=
    .ifNext ((findsExprs one).weaken fun _ _ => .inr) (.pure (.inl ⟨rfl, rfl⟩))
  exact .bind ins fun ws es found => .expect (by decide) fun closed => .pure ⟨ws, closed, rfl, found⟩

end Lists

section Levels

variable {n : Nat} {sort : Kind → Prop} {nested : Nested}
  (same : ∀ l, Finds plain n anywhere (OfRank l.rank) (nested l))

section Chains

variable {rank : Rank} {β : Type} {operator : Kind → Option β} {join : β → Expr → Expr → Expr}
  {next : Production Operand} (ends : operator .endOfText = none)
  (joins : ∀ k op, operator k = some op →
    ∃ tree, rank.joins k = some tree ∧ ∀ a b, bare (join op a b) = tree (bare a) (bare b))
  (operand : Finds plain n anywhere (OfRank rank.operand) next)
include ends joins operand

theorem findsChainStep (left : Expr) :
    Finds plain n (fun k => (operator k).isSome = true)
      (fun ws o => ∃ tree, (∃ e, o = .expr e ∧ bare e = tree) ∧
        ∀ ws' e', Derives .none (.chain rank tree) ws' e' →
          Derives .none (.chain rank (bare left)) (ws ++ ws') e')
      (chainStep operator join next (.expr left)) := by
  refine .byKind fun k some => ?_
  split
  · rename_i op found
    obtain ⟨tree, joined, ofJoin⟩ := joins k op found
    have real : k ≠ .endOfText := by
      rintro rfl
      exact absurd (found.symm.trans ends) nofun
    refine .token (k := n) real (fun t _ => ?_) (Nat.le_succ n)
    refine findsToExpr (findsLast operand fun ws e derived => ?_)
    exact ⟨_, ⟨_, rfl, ofJoin left e⟩, fun ws' e' more => .more joined derived more⟩
  · rename_i none
    exact absurd some (by simp [none])

theorem findsChain : Finds plain n sort (OfRank rank) (chain operator join next) := by
  refine findsOperand operand.always fun ws e first => ?_
  have loop : Finds plain n anywhere
      (fun ws o => ∃ tree, (∃ e, o = .expr e ∧ bare e = tree) ∧ Derives .none (.chain rank (bare e)) ws tree)
      (whileHolds (nextIs fun k => (operator k).isSome) (chainStep operator join next) (.expr e)) := by
    refine .whileNext (Q := fun tree o => ∃ e, o = Operand.expr e ∧ bare e = tree)
      (T := fun tree ws tree' => Derives .none (.chain rank tree) ws tree') (fun _ => .done)
      (fun tree o ⟨e, isExpr, ofE⟩ => ?_) ⟨e, rfl, rfl⟩
    subst isExpr ofE
    exact findsChainStep ends joins operand e
  refine loop.weaken fun ws' o ⟨tree, ⟨e', isExpr, ofE⟩, more⟩ => ⟨e', isExpr, ?_⟩
  subst ofE
  exact .chain first more

end Chains

include same

theorem findsExpression : Finds plain n sort IsExpr nested.expression :=
  findsLast (same .whole).always fun _ _ => id

theorem findsFurther {e : Expr} {rule : Rule} :
    Finds plain n sort IsExpr (further nested (.expr e) rule) := by
  refine findsOperand (same .whole).always fun ws a derived => .given (.broken rule) fun _ => ?_
  exact .ends derived

theorem findsNameOrCall :
    Finds plain (n + 1) (· = .identifier) (fun ws e => Derives .none (.expr .atom) ws (bare e))
      (nameOrCall nested.expression) := by
  refine .ident fun text span => ?_
  refine .eat (k := n) (by decide) (fun opened => ?_) (.pure .name) (Nat.le_succ n)
  refine .bind (findsArguments (findsExpression same)) fun ws es found => .spanFrom fun _ => .pure ?_
  obtain ⟨inner, closed, rfl, none | args⟩ := found
  · obtain ⟨rfl, rfl⟩ := none
    exact .callNone
  · rw [bareCallEq, List.append_nil]
    exact .call args

theorem findsParen :
    Finds plain (n + 1) (· = .leftParen) (fun ws e => Derives .none (.expr .atom) ws (bare e)) (paren nested) := by
  refine .token (k := n) (by decide) (fun t _ => ?_) (Nat.le_refl _)
  have body : Finds plain n anywhere IsExpr (parenBody nested t.span) := by
    refine .known (.ifNext ?_ (.ifNext ?_ ?_))
    · exact findsOperand (same .whole).always fun _ _ derived => .ends derived
    · refine .impossible fun x ⟨_, is⟩ => ?_
      have : x = .kwVar := by simpa using is
      subst this
      decide
    · refine .byKind fun k ⟨⟨⟨_, known⟩, _⟩, _⟩ => ?_
      split
      · rename_i binder found
        cases k <;> first | exact absurd known (by decide) | exact absurd found nofun
      · exact .fault (.syntaxError _)
  refine .bind body fun ws e derived => .expect (by decide) fun closed => .pure ?_
  exact .paren derived

omit same in
theorem findsLiteral {k : Kind} (first : literalStart.contains k = true) :
    Finds plain n (· = k) (fun ws e => Derives .none (.expr .atom) ws (bare e)) literal := by
  have real : k ≠ .endOfText := by
    rintro rfl
    exact absurd first (by decide)
  refine .token (k := n) real (fun t kind => ?_) (Nat.le_succ n)
  subst kind
  have read : literalOf t = literalOfWord (Token.word t) := literalOfSpelled rfl fun _ => String.ofList_toList
  cases value : literalOf t with
  | some v =>
    have derived := Derives.literal (X := .none) first (read.symm.trans value)
    rw [literalValue, value]
    exact .bind (T := fun ws v' => ws = [] ∧ v' = v) (.pure ⟨rfl, rfl⟩) fun ws v' found =>
      .pure (by simpa [bare, Token.word, found.1, found.2] using derived)
  | none =>
    rw [literalValue, value]
    exact .bind (T := fun _ _ => False) (.fault (.broken _)) fun _ _ => False.elim

theorem findsAtom :
    Finds plain (n + 1) sort (fun ws e => Derives .none (.expr .atom) ws (bare e)) (atom nested) := by
  refine .known (.byKind fun k ⟨_, known⟩ => ?_)
  split
  · exact findsNameOrCall same
  · exact findsParen same
  · exact absurd known (by decide)
  · exact absurd known (by decide)
  · exact absurd known (by decide)
  · exact absurd known (by decide)
  · exact absurd known (by decide)
  · split
    · exact findsLiteral ‹_›
    · exact .fault (.syntaxError _)

def OfInside (ws : List Word) (found : List Expr × Option BitRange × Option Expr) : Prop :=
  ∃ f, IsInside f found ∧ Derives .none .inside ws f

def OfStored (first : Expr) (rest : List Expr) (before ws : List Word) (value : Option Expr) : Prop :=
  OfInside (before ++ ws) (first :: rest, none, value)

theorem findsStored {ws : List Word} {e : Expr} {es : List Expr}
    (indexes : Derives .none .exprs ws (bare (e :: es))) :
    Finds plain n sort (OfStored e es ws) (stored nested (.expr e)) := by
  refine .eat (k := n) (by decide) (fun text => ?_) (.pure ?_) (Nat.le_succ n)
  · refine .bind (findsFurther same) fun ws' value derived => .pure ?_
    rw [List.append_nil]
    exact ⟨_, insideStore rfl rfl, .store indexes derived⟩
  · exact ⟨_, insideSelect rfl, by simpa using Derives.select indexes⟩

theorem findsIndexes : Finds plain n sort OfInside (indexes nested) := by
  refine .ifNext ?_ (.eat (k := n) (by decide) (fun text => ?_) (.pure ?_) (Nat.le_succ n))
  · refine findsOperand (same .whole).always fun ws e first => ?_
    refine .bind (.manyEats (by decide) (findsFurther same)) fun ws' es more => ?_
    refine .bind (findsStored same (derivesItems first more)) fun ws'' value found => .pure ?_
    simpa [OfStored] using found
  · exact .commute (findsExpression same) fun ws e derived => ⟨_, insideStore rfl rfl, .storeAll derived⟩
  · exact ⟨_, insideSelect rfl, .empty⟩

theorem findsBracket (base : Expr) :
    Finds plain (n + 1) (fun k => (k == .leftBracket) = true)
      (fun ws e => ∃ tree, bare e = tree ∧ ∀ ws' e', Derives .none (.brackets tree) ws' e' →
        Derives .none (.brackets (bare base)) (ws ++ ws') e') (bracket nested base) := by
  refine (Finds.token (x := .leftBracket) (k := n) (by decide) (fun t _ => ?_) (Nat.le_refl _)).mono
    (fun _ is => by simpa using is) (Nat.le_refl _)
  refine .bind (findsIndexes same) fun ws found ⟨f, inside, derived⟩ => .expect (by decide) fun closed => ?_
  refine .look fun last => .pure ⟨_, rfl, fun ws' e' more => ?_⟩
  rw [inside] at more
  rw [List.cons_append, List.append_assoc]
  exact .bracket derived more

theorem findsBrackets :
    Finds plain (n + 1) sort (fun ws e => Derives .none (.expr .brackets) ws (bare e)) (brackets nested) := by
  refine .bind (findsAtom same) fun ws base derived => ?_
  have loop : Finds plain (n + 1) anywhere
      (fun ws e => ∃ tree, bare e = tree ∧ Derives .none (.brackets (bare base)) ws tree)
      (whileHolds (check .leftBracket) (bracket nested) base) := by
    refine .whileNext (Q := fun tree e => bare e = tree)
      (T := fun tree ws tree' => Derives .none (.brackets tree) ws tree') (fun _ => .bare)
      (fun tree e ofE => ?_) rfl
    subst ofE
    exact findsBracket same e
  refine loop.weaken fun ws' e ⟨tree, ofE, more⟩ => ?_
  subst ofE
  exact .brackets derived more

theorem findsUnary : Finds plain (n + 1) sort (OfRank .unary) (unary nested) := by
  refine .byKind fun k _ => ?_
  split
  · rename_i op sign
    have real : k ≠ .endOfText := by
      rintro rfl
      exact absurd sign nofun
    refine .token (k := n) real (fun t _ => ?_) (Nat.le_refl _)
    refine findsLast (same .unary) fun ws e derived => ⟨_, rfl, ?_⟩
    rw [bareUnaryEq]
    exact .signed sign derived
  · refine .ifNext ?_ (.fault (.syntaxError _))
    refine .bind (findsBrackets same) fun ws e derived => ?_
    refine (Finds.whileEatsNever (by decide) (by decide)).weaken fun ws' o ⟨unread, is⟩ => ?_
    subst unread is
    exact ⟨e, rfl, by simpa using Derives.unary derived⟩

theorem findsPower : Finds plain (n + 1) sort (OfRank .power) (power nested) := by
  refine findsOperand (findsUnary same) fun ws left derived => ?_
  refine .ifEats (by decide) (fun text => findsToExpr ?_) (.ends ⟨left, rfl, .power derived⟩)
  refine .bind (same .power) fun ws' o ⟨right, is, derived'⟩ => ?_
  subst is
  refine findsToExpr (.pure ⟨_, rfl, ?_⟩)
  rw [bareBinaryEq, List.append_nil]
  exact .raised derived derived'

theorem findsMultiplicative : Finds plain (n + 1) sort (OfRank .multiplicative) (multiplicative nested) := by
  refine findsChain rfl (fun k op found => ⟨_, ?_, bareBinaryEq op⟩) (findsPower same)
  rw [Rank.joins, found]
  rfl

theorem findsAdditive : Finds plain (n + 1) sort (OfRank .additive) (additive nested) := by
  refine findsChain rfl (fun k op found => ⟨_, ?_, bareBinaryEq op⟩) (findsMultiplicative same)
  rw [Rank.joins, found]
  rfl

theorem findsConcatenation : Finds plain (n + 1) sort (OfRank .concatenation) (concatenation nested) := by
  refine findsChain rfl (fun k op found => ⟨concatTree, ?_, fun a b => ?_⟩)
    (findsAdditive same)
  · cases k <;> first | rfl | exact absurd found nofun
  · simp [bare, concatTree]

theorem findsRelational : Finds plain (n + 1) sort (OfRank .relational) (relational nested) := by
  refine findsOperand (findsConcatenation same) fun ws left derived => .byKind fun k _ => ?_
  split
  · rename_i op compares
    have real : k ≠ .endOfText := by
      rintro rfl
      exact absurd compares nofun
    refine .token (k := n + 1) real (fun t _ => findsToExpr ?_) (Nat.le_succ _)
    refine findsOperand (findsConcatenation same) fun ws' right derived' => ?_
    refine findsToExpr (.pure ⟨_, rfl, ?_⟩)
    rw [bareBinaryEq, List.append_nil]
    exact .compared compares derived derived'
  · exact .ends ⟨left, rfl, .relational derived⟩

theorem findsLogicalLoop (rank : Rank) {op : BinaryOp} (operand : rank.operand = .relational)
    (joins : ∀ k, logicalOp k = some op → rank.joins k = some (binaryTree op)) (left : Expr) :
    Finds plain (n + 1) sort (fun ws e => Derives .none (.chain rank (bare left)) ws (bare e))
      (whileHolds (nextIs fun k => (logicalOp k).isSome) (logicalStep nested op) left) := by
  refine (Finds.whileNext (Q := fun tree e => bare e = tree)
    (T := fun tree ws tree' => Derives .none (.chain rank tree) ws tree') (fun _ => .done) (fun tree e ofE => ?_)
    rfl).weaken fun ws e ⟨tree, ofE, more⟩ => ofE ▸ more
  subst ofE
  refine .byKind fun k isOperator => .given (.syntaxError _) fun unmixed => ?_
  obtain ⟨op', found⟩ := Option.isSome_iff_exists.mp isOperator
  have same_ : op' = op := by simpa [found] using unmixed
  subst same_
  have real : k ≠ .endOfText := by
    rintro rfl
    exact absurd found nofun
  refine .token (k := n + 1) real (fun t _ => ?_) (Nat.le_succ _)
  refine findsLast (findsRelational same) fun ws right derived => ⟨_, rfl, fun ws' e' more => ?_⟩
  rw [found, Option.getD_some, bareBinaryEq] at more
  exact .more (joins k found) (operand ▸ derived) more

theorem findsLogical : Finds plain (n + 1) sort (OfRank .logical) (logical nested) := by
  refine findsOperand (findsRelational same) fun ws left derived => .byKind fun k _ => ?_
  split
  · exact .ends ⟨left, rfl, .conjunction (.alone derived)⟩
  · rename_i op found
    refine findsToExpr ?_
    have kinds : op = .and ∨ op = .or := by
      cases k <;> first
        | exact .inl (Option.some.inj found).symm
        | exact .inr (Option.some.inj found).symm
        | exact absurd found nofun
    rcases kinds with rfl | rfl
    · refine .commute (findsLogicalLoop same .conjunction rfl (fun k found => ?_) left)
        fun ws' e more => ⟨e, rfl, .conjunction (.chain derived more)⟩
      cases k <;> first | rfl | exact absurd found nofun
    · refine .commute (findsLogicalLoop same .disjunction rfl (fun k found => ?_) left)
        fun ws' e more => ⟨e, rfl, .disjunction (.chain derived more)⟩
      cases k <;> first | rfl | exact absurd found nofun

theorem findsExpliesStep (left : Expr) (text : List Char) :
    Finds plain (n + 1) sort
      (fun ws acc => ∃ tree, (bare acc.1 = tree ∧ acc.2 = false) ∧
        ∀ ws' e', Derives .none (.chain .implication tree) ws' e' →
          Derives .none (.chain .implication (bare left)) (⟨.explies, text⟩ :: (ws ++ ws')) e')
      (expliesStep nested (left, false)) := by
  refine .given (.broken _) fun _ => ?_
  refine findsLast (findsLogical same) fun ws right derived => ⟨_, ⟨rfl, rfl⟩, fun ws' e' more => ?_⟩
  rw [bareBinaryEq] at more
  exact .more rfl derived more

theorem findsExpliesLoop (left : Expr) :
    Finds plain (n + 1) sort (fun ws acc => Derives .none (.chain .implication (bare left)) ws (bare acc.1))
      (whileHolds (eat .explies) (expliesStep nested) (left, false)) := by
  have loop : Finds plain (n + 1) sort
      (fun ws acc => ∃ tree, (bare acc.1 = tree ∧ acc.2 = false) ∧
        Derives .none (.chain .implication (bare left)) ws tree)
      (whileHolds (eat .explies) (expliesStep nested) (left, false)) := by
    refine .whileEats (Q := fun tree (acc : Expr × Bool) => bare acc.1 = tree ∧ acc.2 = false)
      (T := fun tree ws tree' => Derives .none (.chain .implication tree) ws tree') (by decide)
      (fun _ => .done) (fun tree (e, mixed) text ⟨ofE, unmixed⟩ => ?_) ⟨rfl, rfl⟩
    subst ofE unmixed
    exact findsExpliesStep same e text
  exact loop.weaken fun ws acc ⟨tree, ⟨ofE, _⟩, more⟩ => ofE ▸ more

def arrowRank (afterImplies : Bool) : Rank := if afterImplies = true then .implied else .implication

theorem findsImplication (afterImplies : Bool) :
    Finds plain (n + 1) sort (OfRank (arrowRank afterImplies)) (implication nested afterImplies) := by
  refine findsOperand (findsLogical same) fun ws left derived => .byKind fun k _ => ?_
  split
  · refine .token (k := n) (by decide) (fun t _ => findsToExpr ?_) (Nat.le_refl _)
    refine findsOperand (same .implication) fun ws' right derived' => findsToExpr (.pure ⟨_, rfl, ?_⟩)
    have place : arrowRank afterImplies = .implication ∨ arrowRank afterImplies = .implied := by
      cases afterImplies
      · exact .inl rfl
      · exact .inr rfl
    rw [bareBinaryEq, List.append_nil]
    exact .arrow place derived derived'
  · refine findsToExpr ?_
    cases afterImplies with
    | true =>
      -- the first round reports the mixture
      refine .bind (T := fun _ _ => False) ?_ fun _ _ => False.elim
      exact .whileEatsFirst (by decide) fun text => .bind (T := fun _ _ => False) (.fault (.broken _))
        fun _ _ => False.elim
    | false =>
      exact .commute (findsExpliesLoop same left) fun ws' acc more => ⟨acc.1, rfl, .chain derived more⟩
  · refine .ends ⟨left, rfl, ?_⟩
    cases afterImplies with
    | true => exact .implied derived
    | false => exact .alone derived

theorem findsLevel (l : Level) : Finds plain (n + 1) sort (OfRank l.rank) (level nested l) := by
  cases l with
  | whole =>
    refine findsChain rfl (fun k op found => ⟨binaryTree .iff, ?_, fun a b => ?_⟩)
      (findsImplication same false)
    · cases k <;> first | rfl | exact absurd found nofun
    · have : op = .iff := by
        cases k <;> first | exact (Option.some.inj found).symm | exact absurd found nofun
      rw [this, bareBinaryEq]
  | implication => exact findsImplication same true
  | power => exact findsPower same
  | unary => exact findsUnary same

end Levels

theorem findsNested {n : Nat} (l : Level) : Finds plain n anywhere (OfRank l.rank) (operand l) :=
  .nest (T := fun l => OfRank (Level.rank l)) (fun _ _ same l => findsLevel same l) l

theorem findsWhole {n : Nat} {sort : Kind → Prop} : Finds plain n sort IsExpr expression :=
  findsExpression findsNested

end Boogie.Grammar
