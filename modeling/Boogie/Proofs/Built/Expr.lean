import Boogie.Proofs.Built.Cmd
import Boogie.Grammar.Expr

/-! Expressions as they are built. Each level is shown to build what it should with one token more ahead
than the productions nested in it; the levels are tied together at the end. -/
namespace Boogie.Grammar

open Token (Kind)

instance : Inspected BitRange where
  every _ range := range.upper < Text.wordCount 32 ∧ range.lower < Text.wordCount 32

instance : Inspected Operand where
  every c
    | .expr e => every c e
    | .bits range => every c range

section Nodes

variable {G : Scope}

theorem exprPlaceholder (span : Span) (dirty : ¬ G.clean) : every G.built (Expr.placeholder span) :=
  ⟨trivial, trivial, fun clean => absurd clean dirty⟩

theorem applyBuilt {span : Span} {op : Operator} {args : List Expr} (fits : op.fits args.length)
    (fixed : exprFixed (.apply span op args)) (ofOp : every G.built op) (ofArgs : every G.built args) :
    every G.built (Expr.apply span op args) :=
  Expr.everyApply.mpr ⟨⟨fits, fixed, fun _ => trivial⟩, ofOp, ofArgs⟩

theorem binaryBuilt {op : BinaryOp} {left right : Expr} (ofLeft : every G.built left)
    (ofRight : every G.built right) : every G.built (Expr.binary op left right) :=
  applyBuilt (by simp [Operator.fits, Operator.arity]) trivial trivial (by simp [ofLeft, ofRight])

theorem unaryBuilt {op : UnaryOp} {start : Span} {e : Expr} (ofE : every G.built e) :
    every G.built (Expr.unary op start e) :=
  applyBuilt (by simp [Operator.fits, Operator.arity]) trivial trivial (by simp [ofE])

theorem concatBuilt {span : Span} {left right : Expr} (ofLeft : every G.built left)
    (ofRight : every G.built right) : every G.built (Expr.apply span .concat [left, right]) :=
  applyBuilt (by simp [Operator.fits, Operator.arity]) trivial trivial (by simp [ofLeft, ofRight])

theorem callBuilt {span : Span} {function : String} {args : List Expr} (ofName : G.built.name function)
    (ofArgs : every G.built args) : every G.built (Expr.apply span (.call function) args) :=
  applyBuilt (by simp [Operator.fits, Operator.arity]) trivial ofName ofArgs

theorem coerceBuilt {span : Span} {type : Ty} {e : Expr} (ofType : every G.built type)
    (ofE : every G.built e) : every G.built (Expr.apply span (.coerce type) [e]) :=
  applyBuilt (by simp [Operator.fits, Operator.arity]) trivial ofType (by simp [ofE])

theorem bracketedBuilt {span : Span} {base : Expr} (ofBase : every G.built base)
    {found : List Expr × Option BitRange × Option Expr} (ok : every G.built found) :
    every G.built (bracketed span base found) := by
  obtain ⟨indexes, range, stored⟩ := found
  obtain ⟨ofIndexes, ofRange, ofStored⟩ := ok
  cases stored with
  | some value =>
    have ofValue := (everySome value).mp ofStored
    refine applyBuilt (by simp [Operator.fits, Operator.arity]) trivial trivial ?_
    simp [ofBase, ofIndexes, ofValue]
  | none =>
    cases range with
    | some range =>
      exact applyBuilt (by simp [Operator.fits, Operator.arity]) ((everySome range).mp ofRange) trivial
        (by simp [ofBase])
    | none =>
      exact applyBuilt (by simp [Operator.fits, Operator.arity]) trivial trivial
        (by simp [ofBase, ofIndexes])

theorem bindingBuilt {start : Span} {binder : Binder} {params : List Ident} {vars : List Variable}
    {as : List Attribute} {ts : List Trigger} {body : Expr} (ofParams : every G.built params)
    (ofVars : areBuilt G .boundVariables vars) (ofAs : every G.built as) (ofTs : every G.built ts)
    (ofBody : every G.built body) : every G.built (binding start binder params vars as ts body) := by
  rw [binding]
  split
  · exact ofBody
  · rename_i more
    have some : params ≠ [] ∨ vars ≠ [] := by
      rw [← not_and_or]
      simpa using more
    have kept : every G.built (if binder == .lambda then [] else ts) := by
      split
      · exact everyNil
      · exact ofTs
    have noTriggers : binder = .lambda → (if binder == .lambda then [] else ts) = [] := by
      rintro rfl
      rfl
    exact Expr.everyBind.mpr
      ⟨⟨⟨some, noTriggers⟩, ofVars.2 rfl, fun _ => trivial⟩, ofParams, ofVars.1, ofAs, kept, ofBody⟩

end Nodes

section Operands

variable {G : Scope} {n : Nat} {sort : Kind → Prop}

theorem buildsToExpr {operand : Operand} (ok : every G.built operand) : Builds G n sort operand.toExpr := by
  cases operand with
  | expr e => exact .pure ok
  | bits range =>
    exact .bind (.fault (.brokenAt _ _)) fun _ dirty => .pure (exprPlaceholder _ dirty)

theorem exprOrPlaceholderBuilt {operand : Operand} (ok : every G.built operand)
    (dirty : operand.isBits = true → ¬ G.clean) : every G.built operand.exprOrPlaceholder := by
  cases operand with
  | expr e => exact ok
  | bits range => exact exprPlaceholder _ (dirty rfl)

end Operands

section Atoms

variable {G : Scope} {n : Nat} {sort : Kind → Prop} {expr : Production Expr}
  (nested : Builds G n anywhere expr)
include nested

theorem buildsNameOrCall : Builds G (n + 1) (· = .identifier) (nameOrCall expr) := by
  refine .progress .ident buildsIdent fun id ofId => ?_
  refine .ifEats (by decide) ?_ (.pure (Expr.everyName.mpr ⟨⟨trivial, trivial, fun _ => trivial⟩, ofId⟩))
  refine .bind (buildsCallArguments nested) fun args ofArgs => ?_
  exact .any fun span => .pure (callBuilt ofId ofArgs)

theorem buildsParenthesized : Builds G n sort (parenthesized expr) := by
  refine .any fun _ => ?_
  refine .bind nested fun inner ok => ?_
  exact .any fun _ => .pure ok

theorem buildsBound :
    Yields G n sort (fun p => every G.built p.1 ∧ areBuilt G .boundVariables p.2) (bound expr) := by
  have none : areBuilt G .boundVariables [] := ⟨everyNil, fun _ => List.forall_mem_nil _⟩
  refine .ifNext ?_ (.ifNext ?_ ?_)
  · refine .bind buildsTypeParams fun params ofParams => ?_
    have vars : Yields G n anywhere (areBuilt G .boundVariables)
        (ifNext (checkAny groupStart) (attributedGroups expr .boundVariables) (pure [])) :=
      .ifNext (buildsAttributedGroups nested) (.pure none)
    exact .bind vars fun vars ofVars => .pure ⟨ofParams, ofVars⟩
  · exact .bind (buildsAttributedGroups nested) fun vars ofVars => .pure ⟨everyNil, ofVars⟩
  · exact .any fun _ => .pure ⟨everyNil, none⟩

theorem buildsBindBody {binder : Binder} {start : Span} : Builds G n sort (bindBody expr binder start) := by
  refine .bind (buildsBound nested) fun (params, vars) ⟨ofParams, ofVars⟩ => ?_
  refine .any fun _ => ?_
  refine .bind (buildsBracedGroups nested) fun (found, triggers) ⟨ofFound, ofTriggers⟩ => ?_
  refine .bind nested fun body ofBody => ?_
  exact .any fun _ => .pure (bindingBuilt ofParams ofVars ofFound ofTriggers ofBody)

theorem buildsLetVar : Builds G n sort (letVar expr) := by
  refine .bind (buildsAttributes nested) fun found ofFound => ?_
  exact .bind buildsIdent fun id ofId => .pure (LetVar.everyMk.mpr ⟨ofId, ofFound⟩)

theorem buildsLetBody : Builds G n sort (letBody expr) := by
  refine .any fun start => ?_
  refine .bind (buildsCommaSeparated (buildsLetVar nested)) fun vars ⟨someVars, ofVars⟩ => ?_
  refine .any fun _ => ?_
  refine .bind (buildsCommaSeparated nested) fun values ⟨someValues, ofValues⟩ => ?_
  refine .any fun _ => ?_
  refine .bind (buildsAttributes nested) fun found ofFound => ?_
  refine .bind nested fun body ofBody => .pure ?_
  exact Expr.everyLetIn.mpr
    ⟨⟨⟨someVars, someValues⟩, trivial, fun _ => trivial⟩, ofVars, ofValues, ofFound, ofBody⟩

theorem buildsIfThenElse : Builds G (n + 1) (· = .kwIf) (ifThenElse expr) := by
  refine .anyProgress (.advance (by rintro _ rfl; decide)) fun t => ?_
  refine .bind nested fun condition ofCondition => ?_
  refine .any fun _ => ?_
  refine .bind nested fun thenPart ofThen => ?_
  refine .any fun _ => ?_
  refine .bind nested fun elsePart ofElse => .pure ?_
  exact applyBuilt (by simp [Operator.fits, Operator.arity]) trivial trivial
    (by simp [ofCondition, ofThen, ofElse])

theorem buildsBlockCmd : Builds G n sort (blockCmd expr) := by
  refine .bind (buildsLabelOrCmd nested) fun found ok => ?_
  cases found with
  | cmd x => exact .pure ((everySome x).mpr ok)
  | label id => exact .any fun _ => .pure everyNone
  | mistake => exact .pure everyNone

theorem buildsBlockTransfer :
    Yields G n sort (fun t => every G.built t ∧ t.isShaped ∧ (G.clean → ∀ span, t ≠ .leave span))
      (blockTransfer expr) := by
  refine .any fun start => ?_
  refine .ifEats (by decide) ?_ (.ifEats (by decide) ?_ ?_)
  · refine .bind buildsIdents fun labels ⟨more, ofLabels⟩ => ?_
    exact .any fun span => .pure ⟨ofLabels, more, nofun⟩
  · refine .bind nested fun value ofValue => ?_
    exact .any fun span => .pure ⟨ofValue, trivial, nofun⟩
  · refine .bind (.fault (.syntaxError _)) fun _ dirty => ?_
    exact .any fun span => .pure ⟨trivial, trivial, fun clean => absurd clean dirty⟩

theorem buildsBlock : Builds G n sort (block expr) := by
  refine .bind buildsIdent fun label ofLabel => ?_
  refine .any fun _ => ?_
  refine .bind (P := every G.built) (.manyNext (buildsBlockCmd nested).always) fun cmds ofCmds => ?_
  refine .bind (buildsBlockTransfer nested) fun transfer ⟨ofTransfer, shaped, left⟩ => ?_
  refine .any fun _ => .any fun span => .pure ?_
  refine Block.everyMk.mpr ⟨⟨shaped, fun clean => ?_⟩, ofLabel, ?_, ofTransfer⟩
  · have left := left clean
    cases transfer with
    | leave span => exact absurd rfl (left span)
    | _ => trivial
  · exact everyFilterMap ofCmds fun x c same here => here c same

theorem buildsCodeExpr : Builds G (n + 1) (· = .leftCode) (codeExpr expr) := by
  refine .anyProgress (.advance (by rintro _ rfl; decide)) fun t => ?_
  refine .bind (buildsLocalVariables nested) fun locals ofLocals => ?_
  refine .bind (buildsBlock nested) fun first ofFirst => ?_
  refine .bind (P := every G.built) (.manyNext (buildsBlock nested)) fun rest ofRest => ?_
  refine .any fun _ => .any fun span => .pure ?_
  exact Expr.everyCode.mpr ⟨⟨nofun, trivial, fun _ => trivial⟩, ofLocals, (everyCons first rest).mpr ⟨ofFirst, ofRest⟩⟩

theorem buildsOldExpr : Builds G (n + 1) (· = .kwOld) (oldExpr expr) := by
  refine .anyProgress (.advance (by rintro _ rfl; decide)) fun t => ?_
  refine .bind (buildsParenthesized nested) fun inner ok => ?_
  exact .any fun span => .pure (Expr.everyOld.mpr ⟨⟨trivial, trivial, fun _ => trivial⟩, ok⟩)

theorem buildsConverted {target : Conversion} (real : ∀ k, sort k → k ≠ .endOfText) :
    Builds G (n + 1) sort (converted target expr) := by
  refine .anyProgress (.advance real) fun t => ?_
  refine .bind (buildsParenthesized nested) fun inner ok => ?_
  refine .any fun span => .pure ?_
  exact applyBuilt (by simp [Operator.fits, Operator.arity]) trivial trivial (by simp [ok])

omit nested in
theorem buildsLiteral (real : ∀ k, sort k → k ≠ .endOfText) : Builds G n sort literal := by
  refine .bind (.advance real) fun t ⟨mem, _⟩ => ?_
  have value : Yields G n anywhere (fun v => G.clean → literalOf t = some v) (literalValue t) := by
    rw [literalValue]
    split
    · rename_i v found
      exact .pure fun _ => found
    · exact .bind (.fault (.broken _)) fun _ dirty => .pure fun clean => absurd clean dirty
  exact .bind value fun v found => .pure ⟨trivial, trivial, fun clean => ⟨t, mem, rfl, found clean⟩⟩

end Atoms

section Levels

variable {G : Scope} {n : Nat} {sort : Kind → Prop} {nested : Nested}
  (ok : ∀ l, Builds G n anywhere (nested l))
include ok

theorem buildsNested : Builds G n sort nested.expression :=
  .bind (ok .whole).always fun _ found => buildsToExpr found

theorem buildsInParens : Builds G n sort (inParens nested) := by
  refine .bind (ok .whole).always fun operand found => ?_
  cases operand with
  | expr e => exact .pure found
  | bits range => exact .bind (.fault (.broken _)) fun _ dirty => .pure (exprPlaceholder _ dirty)

theorem buildsParenBody {start : Span} : Builds G n sort (parenBody nested start) := by
  refine .ifNext (buildsInParens ok) (.ifNext (buildsLetBody (buildsNested ok)) ?_)
  refine .any fun k => ?_
  split
  · exact .any fun _ => buildsBindBody (buildsNested ok)
  · exact .bind (.fault (.syntaxError _)) fun _ dirty => .pure (exprPlaceholder _ dirty)

theorem buildsParen : Builds G (n + 1) (· = .leftParen) (paren nested) := by
  refine .anyProgress (.advance (by rintro _ rfl; decide)) fun t => ?_
  refine .bind (buildsParenBody ok) fun inner found => ?_
  exact .any fun _ => .pure found

theorem buildsAtom : Builds G (n + 1) sort (atom nested) := by
  have whole : Builds G n anywhere nested.expression := buildsNested ok
  refine .byKind fun k first => ?_
  split
  · exact buildsNameOrCall whole
  · exact buildsParen ok
  · exact buildsIfThenElse whole
  · exact buildsCodeExpr whole
  · exact buildsOldExpr whole
  · exact buildsConverted whole (by rintro _ rfl; decide)
  · exact buildsConverted whole (by rintro _ rfl; decide)
  · split
    · rename_i start
      refine buildsLiteral ?_
      rintro _ rfl rfl
      revert start
      decide
    · refine .bind (.fault (.syntaxError _)) fun _ dirty => ?_
      exact .any fun span => .pure (exprPlaceholder span dirty)

theorem buildsFurther {first : Operand} {rule : Rule} : Builds G n sort (further nested first rule) := by
  refine .bind (ok .whole).always fun next found => ?_
  refine .bind (.given (.broken rule)) fun _ dirty => .pure ?_
  exact exprOrPlaceholderBuilt found fun bits => dirty (by simp [bits])

theorem buildsStored {first : Operand} : Builds G n sort (stored nested first) := by
  refine .ifEats (by decide) ?_ (.pure everyNone)
  exact .bind (buildsFurther ok) fun value found => .pure ((everySome value).mpr found)

theorem buildsIndexes : Builds G n sort (indexes nested) := by
  refine .ifNext ?_ (.ifEats (by decide) ?_ ?_)
  · refine .bind (ok .whole).always fun first ofFirst => ?_
    refine .bind (P := every G.built)
      (.manyEats (by decide) (buildsFurther ok) (Nat.le_succ n)) fun rest ofRest => ?_
    refine .bind (buildsStored ok) fun stored ofStored => ?_
    cases first with
    | expr e => exact .pure ⟨(everyCons e rest).mpr ⟨ofFirst, ofRest⟩, everyNone, ofStored⟩
    | bits range => exact .pure ⟨ofRest, (everySome range).mpr ofFirst, ofStored⟩
  · refine .bind (buildsNested ok) fun value found => .pure ?_
    exact ⟨everyNil, everyNone, (everySome value).mpr found⟩
  · exact .pure ⟨everyNil, everyNone, everyNone⟩

theorem buildsBracket {base : Expr} (ofBase : every G.built base) :
    Builds G (n + 1) (fun k => (k == .leftBracket) = true) (bracket nested base) := by
  refine .anyProgress (.advance (by simp)) fun t => ?_
  refine .bind (buildsIndexes ok) fun found ofFound => ?_
  exact .any fun _ => .any fun span => .pure (bracketedBuilt ofBase ofFound)

theorem buildsBrackets : Builds G (n + 1) sort (brackets nested) := by
  refine .bind (buildsAtom ok) fun base ofBase => ?_
  exact .whileNext ofBase fun base ofBase => buildsBracket ok ofBase

omit ok in
theorem buildsBitBound {value : Int} : Yields G n sort (· < Text.wordCount 32) (bitBound value) := by
  rw [bitBound]
  split
  · rename_i bounds
    exact .pure (by omega)
  · exact .any fun _ => .pure (by decide)

omit ok in
theorem buildsUpperBound {operand : Operand} :
    Yields G n sort (· < Text.wordCount 32) (upperBound operand) := by
  unfold upperBound
  split
  · exact buildsBitBound
  · exact .any fun _ => .pure (by decide)

omit ok in
theorem buildsCoerced {operand : Operand} (found : every G.built operand) :
    Builds G n sort (coerced operand) := by
  refine .ifNext ?_ (.ifNext ?_ ?_)
  · refine .bind buildsType fun type ofType => ?_
    exact .bind (buildsToExpr found) fun e ofE => .pure (coerceBuilt ofType ofE)
  · refine .any fun t => .any fun value => ?_
    refine .bind buildsBitBound fun lower low => ?_
    exact .bind buildsUpperBound fun upper high => .pure ⟨high, low⟩
  · exact .any fun _ => .pure found

theorem buildsCoercion : Builds G (n + 1) sort (coercion nested) := by
  refine .bind (buildsBrackets ok) fun e ofE => ?_
  exact .whileEats (by decide) ofE (fun operand found => buildsCoerced found) (Nat.le_refl _)

theorem buildsUnary : Builds G (n + 1) sort (unary nested) := by
  refine .byKind fun k first => ?_
  split
  · rename_i op found
    refine .anyProgress (.advance ?_) fun t => ?_
    · rintro _ rfl rfl
      exact absurd found nofun
    · refine .bind (ok .unary) fun operand ofOperand => ?_
      exact .bind (buildsToExpr ofOperand) fun e ofE => .pure (unaryBuilt ofE)
  · refine .ifNext (buildsCoercion ok) ?_
    refine .bind (.fault (.syntaxError _)) fun _ dirty => ?_
    exact .any fun span => .pure (exprPlaceholder span dirty)

theorem buildsPower : Builds G (n + 1) sort (power nested) := by
  refine .bind (buildsUnary ok) fun left ofLeft => ?_
  refine .ifEatsFirst (by decide) ?_ (.pure ofLeft)
  refine .bind (buildsToExpr ofLeft) fun lhs ofLhs => ?_
  refine .bind (ok .power) fun right ofRight => ?_
  exact .bind (buildsToExpr ofRight) fun rhs ofRhs => .pure (binaryBuilt ofLhs ofRhs)

omit ok in
theorem buildsChain {β : Type} {operator : Kind → Option β} {join : β → Expr → Expr → Expr}
    {next : Production Operand}
    (joined : ∀ op left right, every G.built left → every G.built right →
      every G.built (join op left right))
    (operand : Builds G n anywhere next) : Builds G n sort (chain operator join next) := by
  refine .bind operand.always fun first ofFirst => ?_
  refine .whileNext ofFirst fun left ofLeft => ?_
  refine .any fun k => ?_
  split
  · rename_i op _
    refine .any fun _ => ?_
    refine .bind (buildsToExpr ofLeft) fun lhs ofLhs => ?_
    refine .bind operand fun right ofRight => ?_
    exact .bind (buildsToExpr ofRight) fun rhs ofRhs => .pure (joined op lhs rhs ofLhs ofRhs)
  · exact .pure ofLeft

theorem buildsMultiplicative : Builds G (n + 1) sort (multiplicative nested) :=
  buildsChain (fun _ _ _ => binaryBuilt) (buildsPower ok)

theorem buildsAdditive : Builds G (n + 1) sort (additive nested) :=
  buildsChain (fun _ _ _ => binaryBuilt) (buildsMultiplicative ok)

theorem buildsConcatenation : Builds G (n + 1) sort (concatenation nested) :=
  buildsChain (fun _ _ _ => concatBuilt) (buildsAdditive ok)

theorem buildsRelational : Builds G (n + 1) sort (relational nested) := by
  refine .bind (buildsConcatenation ok) fun left ofLeft => ?_
  refine .any fun k => ?_
  split
  · refine .any fun _ => ?_
    refine .bind (buildsToExpr ofLeft) fun lhs ofLhs => ?_
    refine .bind (buildsConcatenation ok) fun right ofRight => ?_
    exact .bind (buildsToExpr ofRight) fun rhs ofRhs => .pure (binaryBuilt ofLhs ofRhs)
  · exact .pure ofLeft

theorem buildsLogicalStep {first : BinaryOp} {left : Expr} (ofLeft : every G.built left) :
    Builds G (n + 1) sort (logicalStep nested first left) := by
  refine .any fun k => .any fun _ => .any fun _ => ?_
  refine .bind (buildsRelational ok) fun right ofRight => ?_
  exact .bind (buildsToExpr ofRight) fun rhs ofRhs => .pure (binaryBuilt ofLeft ofRhs)

theorem buildsLogical : Builds G (n + 1) sort (logical nested) := by
  refine .bind (buildsRelational ok) fun left ofLeft => ?_
  refine .any fun k => ?_
  split
  · exact .pure ofLeft
  · refine .bind (buildsToExpr ofLeft) fun e ofE => ?_
    refine .bind (.whileNext ofE fun e ofE => buildsLogicalStep ok ofE) fun e ofE => .pure ofE

theorem buildsExpliesStep {acc : Expr × Bool} (ofAcc : every G.built acc.1) :
    Yields G (n + 1) sort (fun acc => every G.built acc.1) (expliesStep nested acc) := by
  refine .any fun _ => ?_
  refine .bind (buildsLogical ok) fun right ofRight => ?_
  exact .bind (buildsToExpr ofRight) fun rhs ofRhs => .pure (binaryBuilt ofRhs ofAcc)

theorem buildsImplication {afterImplies : Bool} :
    Builds G (n + 1) sort (implication nested afterImplies) := by
  refine .bind (buildsLogical ok) fun left ofLeft => ?_
  refine .byKind fun k _ => ?_
  split
  · refine .anyProgress (.advance (by rintro _ rfl; decide)) fun _ => ?_
    refine .bind (buildsToExpr ofLeft) fun lhs ofLhs => ?_
    refine .bind (ok .implication) fun right ofRight => ?_
    exact .bind (buildsToExpr ofRight) fun rhs ofRhs => .pure (binaryBuilt ofLhs ofRhs)
  · refine .bind (buildsToExpr ofLeft) fun e ofE => ?_
    refine .bind (.whileEats (P := fun acc => every G.built acc.1) (by decide) ofE (fun acc ofAcc => buildsExpliesStep ok ofAcc) (Nat.le_succ _))
      fun acc ofAcc => .pure ofAcc
  · exact .pure ofLeft

theorem buildsLevel (l : Level) : Builds G (n + 1) sort (level nested l) := by
  cases l with
  | whole => exact buildsChain (fun _ _ _ => binaryBuilt) (buildsImplication ok)
  | implication => exact buildsImplication ok
  | power => exact buildsPower ok
  | unary => exact buildsUnary ok

end Levels

theorem buildsOperand {G : Scope} {n : Nat} {sort : Kind → Prop} (l : Level) : Builds G n sort (operand l) :=
  Yields.always (.nest (P := fun _ => every G.built) (fun _ _ _ ok l => buildsLevel ok l) l)

theorem buildsExpression {G : Scope} {n : Nat} {sort : Kind → Prop} : Builds G n sort expression :=
  buildsNested buildsOperand

end Boogie.Grammar
