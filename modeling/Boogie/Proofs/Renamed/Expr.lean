import Boogie.Grammar.Expr
import Boogie.Proofs.Renamed.Behind

/-! No expression goes on with an argument of a type behind a colon and a keyword that is a type. -/
namespace Boogie.Grammar

open Token (Kind)

section Names

variable {e : Ending} {sort : Kind → Prop}

theorem keepsIdentWritten : Keeps .noType .plain sort identWritten := by
  refine .ifNext (.advance (b := .plain) ?_ fun _ _ => .pure) (.fault (.syntaxError _))
  rintro k ⟨-, is⟩
  rw [beq_iff_eq.mp is]
  decide

theorem keepsIdent : Keeps .noType .plain sort ident := .bind keepsIdentWritten fun _ => .pure

theorem keepsIdents : Keeps .noType .plain sort idents := .commaSeparated keepsIdent keepsIdent.of

theorem keepsTypeParams : Keeps e .plain sort typeParams := by
  have names {e : Ending} (plain : e = .plain) : Keeps e .plain anywhere (idents >>= fun names =>
      expect .greater >>= fun _ => pure names) := by
    subst plain
    exact .bind keepsIdents fun _ => .expect .pure
  cases e <;> exact .expect (names rfl)

theorem keepsOptionalTypeParams : Keeps e e sort optionalTypeParams := by
  cases e <;> exact .ifNext (.last keepsTypeParams) .pure

end Names

section Types

variable {sort : Kind → Prop} {type : Production Ty}

theorem behindOther {e : Ending} {k : Kind} (other : k ≠ .colon) (word : ¬ isTypeWord k) : e.behind k = .plain := by
  revert other word
  cases e <;> cases k <;> decide

variable (nested : Keeps .plain .noColon anywhere type)
include nested

theorem keepsTypeAtom (start : ∀ k, sort k → argumentStart.contains k = true) :
    Keeps .noType .noColon sort (typeAtom type) := by
  refine .cases fun k first => ?_
  by_cases word : isTypeWord k
  · refine .advance (b := .noColon) ?_ fun t same => ?_
    · rintro k rfl
      revert word
      cases k <;> decide
    · obtain ⟨b, is⟩ := Option.isSome_iff_exists.mp (same ▸ word)
      rw [is]
      exact .pure
  · have other : k ≠ .colon := by
      rintro rfl
      exact absurd (start _ first) (by decide)
    refine .advance (b := .plain) ?_ fun t same => ?_
    · rintro _ rfl
      exact ⟨rfl, behindOther other word⟩
    · cases basicType t.kind with
      | some b => exact .pure
      | none => exact .bind nested fun _ => .expect .pure

theorem keepsTypeArgument : Keeps .plain .plain (fun k => argumentStart.contains k = true) (typeArgument type) := by
  refine .ifNext (.bind keepsIdentWritten fun _ => .pure) (.advance (b := .plain) ?_ fun t _ => ?_)
  · rintro k ⟨start, -⟩
    revert start
    cases k <;> decide
  · cases basicType t.kind with
    | some b => exact .pure
    | none => exact .bind nested fun _ => .expect .pure

theorem keepsMapType : Keeps .noType .noColon sort (mapType type) := by
  refine .look fun start => .bind (keepsOptionalTypeParams (e := .noType)) fun _ => .expect ?_
  refine .bind (b := .noColon) (.ifNext (.commaSeparated nested.always nested) .pure) fun _ => .expect ?_
  exact .bind nested fun _ => .spanFrom fun _ => .pure

theorem keepsTypeArgs : Keeps .plain .noColon sort (typeArgs type) :=
  .bind (.manyNext (keepsTypeArgument nested)) fun _ => .ifNext (.bind (keepsMapType nested) fun _ => .pure) .pure

theorem keepsTypeLevel : Keeps .noType .noColon sort (typeLevel type) := by
  refine .ifNext ?_ (.ifNext (keepsMapType nested) (.ifNext ?_ (.fault (.syntaxError _))))
  · refine .look fun start => .bind keepsIdentWritten fun _ => ?_
    exact .bind (keepsTypeArgs nested) fun _ => .spanFrom fun _ => .pure
  · exact keepsTypeAtom nested fun k first => first.2

end Types

theorem keepsType {sort : Kind → Prop} : Keeps .noType .noColon sort type :=
  .always (.nest (fun _ => .look fun _ => .pure) fun _ nested _ => keepsTypeLevel (nested ()))

section Groups

variable {sort : Kind → Prop} {expr : Production Expr} {role : GroupRole} (nested : Keeps .plain .noColon anywhere expr)
include nested

theorem keepsAttributeParam : Keeps .plain .noColon sort (attributeParam expr) := by
  refine .ifNext (.advance (b := .plain) ?_ fun _ _ => .pure) (.bind nested.always fun _ => .pure)
  rintro k ⟨-, is⟩
  rw [beq_iff_eq.mp is]
  decide

theorem keepsBraced : Keeps .plain .plain sort (braced expr) := by
  refine .look fun start => .expect (.ifEats ?_ (.ifNext ?_ (.fault (.syntaxError _))))
  · refine .bind keepsIdent fun key => ?_
    refine .bind (b := .noColon) (.ifNext (.commaSeparated (keepsAttributeParam nested) (keepsAttributeParam nested))
      .pure) fun params => .expect (.spanFrom fun span => ?_)
    split
    · split
      · exact .pure
      · exact .fault (.broken _)
    · exact .pure
  · exact .bind (.commaSeparated nested.always nested) fun _ => .expect (.spanFrom fun _ => .pure)

theorem keepsBracedGroups : Keeps .plain .plain sort (bracedGroups expr) :=
  .bind (.manyNext (keepsBraced nested)) fun _ => .pure

theorem keepsAttributes : Keeps .plain .plain sort (attributes expr) := by
  refine .bind (.manyNext (e := .plain) (.bind (keepsBraced nested) fun found => ?_)) fun _ => .pure
  exact .given (.broken _) .pure

theorem keepsOptionalWhere : Keeps .noColon .noColon sort (optionalWhere expr role) := by
  refine .ifEats (.bind nested fun _ => ?_) .pure
  split
  · exact .pure
  · exact .fault (.broken _)

theorem keepsTypedGroup {found : List Attribute} : Keeps .plain .noColon sort (typedGroup expr role found) := by
  refine .bind keepsIdents fun _ => .expect (.bind keepsType fun _ => ?_)
  exact .bind (keepsOptionalWhere nested) fun _ => .pure

theorem keepsAttributedGroups : Keeps .plain .noColon sort (attributedGroups expr role) := by
  have group {sort : Kind → Prop} : Keeps .plain .noColon sort (attributedGroup expr role) := by
    refine .bind (keepsAttributes nested) fun found => ?_
    split
    · exact .fault (.broken _)
    · exact keepsTypedGroup nested
  exact .bind (.commaSeparated group group) fun _ => .pure

theorem keepsVariableDecl : Keeps .plain .plain sort (variableDecl expr role) := by
  refine .expect (.bind (keepsAttributes nested) fun found => ?_)
  exact .bind (.commaSeparated (keepsTypedGroup nested) (keepsTypedGroup nested)) fun _ => .expect .pure

theorem keepsLocalVariables : Keeps .plain .plain sort (localVariables expr) :=
  .bind (.manyNext (keepsVariableDecl nested)) fun _ => .pure

end Groups

section Commands

variable {sort : Kind → Prop} {expr : Production Expr} (nested : Keeps .plain .noColon anywhere expr)
include nested

theorem keepsOptionalExprs : Keeps .plain .noColon sort (optionalExprs expr) :=
  .ifNext (.commaSeparated nested.always nested) .pure

theorem keepsCallArguments : Keeps .plain .plain sort (callArguments expr) :=
  .bind (keepsOptionalExprs nested) fun _ => .expect .pure

theorem keepsTarget {id : Ident} : Keeps .plain .plain sort (target expr id) :=
  .whileEats fun _ => .bind (keepsOptionalExprs nested) fun _ => .expect (.spanFrom fun _ => .pure)

theorem keepsLabelOrAssign : Keeps .noType .noType sort (labelOrAssign expr) := by
  refine .bind keepsIdent fun id => .ifEats .pure (.ifNext ?_ (.fault (.syntaxError _)))
  refine .bind (keepsTarget nested) fun _ => ?_
  refine .bind (.manyEats (e := .plain) (.bind keepsIdent fun _ => keepsTarget nested)) fun _ => .expect ?_
  exact .bind (.commaSeparated nested nested) fun _ => .expect (.spanFrom fun _ => .pure)

theorem keepsCallParams {isAsync isFree : Bool} {found : List Attribute} {start : Span} :
    Keeps .plain .plain sort (callParams expr isAsync isFree found start) := by
  refine .bind keepsIdent fun first => .ifEats ?_ (.ifNext ?_ (.fault (.syntaxError _)))
  · exact .bind (keepsCallArguments nested) fun _ => .spanFrom fun _ => .pure
  · refine .bind (.manyEats (e := .plain) keepsIdent.of) fun _ => .expect (.bind keepsIdent fun _ => .expect ?_)
    exact .bind (keepsCallArguments nested) fun _ => .spanFrom fun _ => .pure

theorem keepsCall : Keeps .noType .plain sort (call expr) := by
  have calls {isAsync isFree : Bool} {start : Span} : Keeps .noType .plain anywhere (expect .kwCall >>= fun _ =>
      attributes expr >>= fun found => callParams expr isAsync isFree found start) :=
    .expect (.bind (keepsAttributes nested) fun _ => keepsCallParams nested)
  have maybeFree {isAsync : Bool} {start : Span} : Keeps .noType .plain anywhere (eat .kwFree >>= fun isFree =>
      expect .kwCall >>= fun _ => attributes expr >>= fun found => callParams expr isAsync isFree found start) :=
    .eat (calls.of) calls.always
  exact .look fun start => .eat maybeFree.of maybeFree.always

theorem keepsParallelCalls : Keeps .noType .plain (· = .kwPar) (parallelCalls expr) := by
  refine .advance (b := .plain) (by rintro _ rfl; decide) fun _ _ => .bind (keepsAttributes nested) fun found => ?_
  refine .bind (keepsCallParams nested) fun first => ?_
  exact .bind (.manyEats (e := .plain) (.look fun start => keepsCallParams nested)) fun _ => .pure

theorem keepsConditionCmd {make : Span → List Attribute → Expr → Cmd} {k : Kind}
    (other : Ending.noType.behind k = .plain) : Keeps .noType .plain (· = k) (conditionCmd expr make) := by
  refine .advance (b := .plain) (by rintro _ rfl; exact ⟨rfl, other⟩) fun _ _ => ?_
  refine .bind (keepsAttributes nested) fun found => .bind nested fun _ => .expect (.spanFrom fun _ => .pure)

omit nested in
theorem keepsHavocCmd : Keeps .noType .plain (· = .kwHavoc) havocCmd := by
  refine .advance (b := .plain) (by rintro _ rfl; decide) fun _ _ => ?_
  exact .bind keepsIdents fun _ => .expect (.spanFrom fun _ => .pure)

omit nested in
theorem keepsYieldCmd : Keeps .noType .plain (· = .kwYield) yieldCmd :=
  .advance (b := .plain) (by rintro _ rfl; decide) fun _ _ => .expect (.spanFrom fun _ => .pure)

theorem keepsWordCmd : Keeps .noType .plain sort (wordCmd expr) := by
  have calls {sort : Kind → Prop} : Keeps .noType .plain sort (callCmd expr) :=
    .look fun start => .bind (keepsCall nested) fun _ => .expect (.spanFrom fun _ => .pure)
  refine .byKind fun k first => ?_
  split
  · exact keepsConditionCmd nested rfl
  · exact keepsConditionCmd nested rfl
  · exact keepsHavocCmd
  · exact calls
  · exact calls
  · exact calls
  · exact .look fun start => .bind (keepsParallelCalls nested) fun _ => .expect (.spanFrom fun _ => .pure)
  · exact keepsYieldCmd
  · exact .fault (.syntaxError _)

theorem keepsLabelOrCmd : Keeps .noType .noType sort (labelOrCmd expr) :=
  .ifNext (keepsLabelOrAssign nested) (keepsWordCmd nested).of

end Commands

section Atoms

variable {sort : Kind → Prop} {expr : Production Expr} (nested : Keeps .plain .noColon anywhere expr)
include nested

theorem keepsNameOrCall : Keeps .plain .plain sort (nameOrCall expr) := by
  refine .bind keepsIdent fun id => .ifEats ?_ .pure
  exact .bind (keepsCallArguments nested) fun _ => .spanFrom fun _ => .pure

theorem keepsParenthesized : Keeps .plain .plain sort (parenthesized expr) :=
  .expect (.bind nested fun _ => .expect .pure)

theorem keepsBindBody {binder : Binder} {start : Span} : Keeps .plain .noColon sort (bindBody expr binder start) := by
  have bound : Keeps .plain .noColon sort (bound expr) := by
    refine .ifNext (.bind (keepsTypeParams (e := .plain)) fun _ => ?_) (.ifNext ?_ (.fault (.syntaxError _)))
    · exact .bind (b := .noColon) (.ifNext (keepsAttributedGroups nested) .pure) fun _ => .pure
    · exact .bind (keepsAttributedGroups nested) fun _ => .pure
  refine .bind bound fun _ => .expect (.bind (keepsBracedGroups nested) fun _ => .bind nested fun _ => ?_)
  exact .given (.broken _) .pure

theorem keepsLetBody : Keeps .plain .noColon (· = .kwVar) (letBody expr) := by
  have letVar {sort : Kind → Prop} : Keeps .plain .plain sort (letVar expr) :=
    .bind (keepsAttributes nested) fun _ => .bind keepsIdent fun _ => .pure
  refine .advance (b := .plain) (by rintro _ rfl; decide) fun _ _ => ?_
  refine .bind (.commaSeparated letVar letVar) fun _ => .expect (.bind (.commaSeparated nested nested) fun _ => ?_)
  exact .expect (.bind (keepsAttributes nested) fun _ => .bind nested fun _ => .pure)

theorem keepsIfThenElse : Keeps .plain .noColon (· = .kwIf) (ifThenElse expr) := by
  refine .advance (b := .plain) (by rintro _ rfl; decide) fun _ _ => .bind nested fun _ => .expect ?_
  exact .bind nested fun _ => .expect (.bind nested fun _ => .pure)

theorem keepsBlock : Keeps .plain .plain sort (block expr) := by
  have cmd {sort : Kind → Prop} : Keeps .noType .noType sort (blockCmd expr) := by
    refine .bind (keepsLabelOrCmd nested) fun found => ?_
    cases found with
    | cmd c => exact .pure
    | label id => exact .fault (.broken _)
    | mistake => exact .pure
  have transfer : Keeps .noType .noColon anywhere (blockTransfer expr) := by
    refine .look fun start => .ifEats ?_ (.ifEats ?_ (.fault (.syntaxError _)))
    · exact .bind keepsIdents fun _ => .spanFrom fun _ => .pure
    · exact .bind nested fun _ => .spanFrom fun _ => .pure
  refine .bind keepsIdent fun label => .expect (.bind (.manyNext cmd) fun cmds => ?_)
  exact .bind transfer fun _ => .expect (.spanFrom fun _ => .pure)

theorem keepsCodeExpr : Keeps .plain .plain (· = .leftCode) (codeExpr expr) := by
  refine .advance (b := .plain) (by rintro _ rfl; decide) fun _ _ => .bind (keepsLocalVariables nested) fun _ => ?_
  refine .bind (keepsBlock nested) fun _ => .bind (.manyNext (keepsBlock nested)) fun _ => ?_
  exact .expect (.spanFrom fun _ => .pure)

theorem keepsOldExpr : Keeps .plain .plain (· = .kwOld) (oldExpr expr) :=
  .advance (b := .plain) (by rintro _ rfl; decide) fun _ _ =>
    .bind (keepsParenthesized nested) fun _ => .spanFrom fun _ => .pure

theorem keepsConverted {target : Conversion} {k : Kind} (other : Ending.plain.behind k = .plain) :
    Keeps .plain .plain (· = k) (converted target expr) :=
  .advance (b := .plain) (by rintro _ rfl; exact ⟨rfl, other⟩) fun _ _ =>
    .bind (keepsParenthesized nested) fun _ => .spanFrom fun _ => .pure

omit nested in
theorem keepsLiteral {k : Kind} (start : literalStart.contains k = true) :
    Keeps .plain .plain (· = k) literal := by
  have idle (token : Token) : Idle (literalValue token) := by
    rw [literalValue]
    split
    · exact .pure _
    · exact .bind (.broken _) fun _ => .pure _
  refine .advance (b := .plain) ?_ fun token _ => .idle (idle token) fun _ => .pure
  rintro k rfl
  revert start
  cases k <;> decide

end Atoms

section Levels

variable {sort : Kind → Prop} {nested : Nested}

theorem Idle.toExpr (operand : Operand) : Idle operand.toExpr := by
  cases operand with
  | expr e => exact .pure _
  | bits range => exact .bind (.brokenAt _ _) fun _ => .pure _

theorem keepsNested (same : ∀ l, Keeps .plain .noColon anywhere (nested l)) :
    Keeps .plain .noColon sort nested.expression :=
  .bind (same .whole).always fun operand => .still (.toExpr operand)

variable (same : ∀ l, Keeps .plain .noColon anywhere (nested l))
include same

theorem keepsParen : Keeps .plain .plain (· = .leftParen) (paren nested) := by
  have whole : Keeps .plain .noColon anywhere nested.expression := keepsNested same
  have body {start : Span} : Keeps .plain .noColon anywhere (parenBody nested start) := by
    refine .ifNext ?_ (.ifNext ((keepsLetBody whole).mono fun k is => beq_iff_eq.mp is.2) (.byKind fun k _ => ?_))
    · refine .bind (same .whole).always fun inner => ?_
      cases inner with
      | expr e => exact .pure
      | bits range => exact .fault (.broken _)
    · split
      · rename_i binder found
        refine .advance (b := .plain) ?_ fun _ _ => keepsBindBody whole
        rintro k rfl
        revert found
        cases k <;> first | exact fun _ => ⟨rfl, rfl⟩ | exact nofun
      · exact .fault (.syntaxError _)
  refine .advance (b := .plain) (by rintro _ rfl; decide) fun _ _ => .bind body fun _ => .expect .pure

theorem keepsAtom : Keeps .plain .noColon sort (atom nested) := by
  have whole : Keeps .plain .noColon anywhere nested.expression := keepsNested same
  refine .byKind fun k _ => ?_
  split
  · exact (keepsNameOrCall whole).of
  · exact (keepsParen same).of
  · exact keepsIfThenElse whole
  · exact (keepsCodeExpr whole).of
  · exact (keepsOldExpr whole).of
  · exact (keepsConverted whole rfl).of
  · exact (keepsConverted whole rfl).of
  · split
    · exact (keepsLiteral ‹_›).of
    · exact .fault (.syntaxError _)

theorem keepsIndexes : Keeps .plain .noColon sort (indexes nested) := by
  have more {first : Operand} {rule : Rule} : Keeps .plain .noColon anywhere (further nested first rule) :=
    .bind (same .whole) fun _ => .given (.broken _) .pure
  have stores {first : Operand} : Keeps .noColon .noColon anywhere (stored nested first) :=
    .ifEats (.bind more fun _ => .pure) .pure
  refine .ifNext ?_ (.ifEats (.bind (keepsNested same) fun _ => .pure) .pure)
  refine .bind (same .whole).always fun first => .bind (.manyEats more) fun rest => .bind stores fun stored => ?_
  cases first <;> exact .pure

theorem keepsBrackets : Keeps .plain .noColon sort (brackets nested) := by
  refine .bind (keepsAtom same) fun base => .whileNext fun base => ?_
  refine .advance (b := .plain) (fun k is => by rw [beq_iff_eq.mp is]; decide) fun _ _ => ?_
  exact .bind (keepsIndexes same) fun _ => .expect (.look fun _ => .pure)

omit same in
theorem keepsCoerced {operand : Operand} : Keeps .noType .noColon anywhere (coerced operand) := by
  have idleBound (value : Int) : Idle (bitBound value) := by
    rw [bitBound]
    split
    · exact .pure _
    · exact .bind (.broken _) fun _ => .pure _
  have idleValue (text : String) : Idle (natValue text) := by
    rw [natValue]
    split
    · exact .pure _
    · exact .bind (.broken _) fun _ => .pure _
  have idleUpper : Idle (upperBound operand) := by
    unfold upperBound
    split
    · exact idleBound _
    · exact .bind (.broken _) fun _ => .pure _
  refine .ifNext ?_ (.ifNext (.advance (b := .plain) ?_ fun token _ => ?_) (.fault (.syntaxError _)))
  · exact .bind keepsType fun _ => .idle (.toExpr operand) fun _ => .pure
  · rintro k ⟨-, is⟩
    rw [beq_iff_eq.mp is]
    decide
  · exact .idle (idleValue _) fun _ => .idle (idleBound _) fun _ => .idle idleUpper fun _ => .pure

theorem keepsUnary : Keeps .plain .noColon sort (unary nested) := by
  refine .byKind fun k _ => ?_
  split
  · rename_i op found
    refine .advance (b := .plain) ?_ fun _ _ => .bind (same .unary) fun operand => .idle (.toExpr operand) fun _ => .pure
    rintro k rfl
    revert found
    cases k <;> first | exact fun _ => ⟨rfl, rfl⟩ | exact nofun
  · refine .ifNext ?_ (.fault (.syntaxError _))
    exact .bind (keepsBrackets same) fun _ => .whileEats fun _ => keepsCoerced

theorem keepsPower : Keeps .plain .noColon sort (power nested) := by
  refine .bind (keepsUnary same) fun left => .ifEats (.idle (.toExpr left) fun _ => ?_) .pure
  exact .bind (same .power) fun right => .idle (.toExpr right) fun _ => .pure

omit same in
theorem keepsChain {β : Type} {operator : Kind → Option β} {join : β → Expr → Expr → Expr} {next : Production Operand}
    (apart : ∀ k, (operator k).isSome = true → Ending.noColon.allows k = true ∧ Ending.noColon.behind k = .plain)
    (operand : Keeps .plain .noColon anywhere next) : Keeps .plain .noColon sort (chain operator join next) := by
  refine .bind operand.always fun first => .whileNext fun left => .byKind fun k some => ?_
  split
  · refine .advance (b := .plain) (by rintro _ rfl; exact apart _ some) fun _ _ => .idle (.toExpr left) fun _ => ?_
    exact .bind operand fun right => .idle (.toExpr right) fun _ => .pure
  · exact .pure

theorem keepsConcatenation : Keeps .plain .noColon sort (concatenation nested) := by
  have product : Keeps .plain .noColon anywhere (multiplicative nested) :=
    keepsChain (by intro k; cases k <;> decide) (keepsPower same)
  have sum : Keeps .plain .noColon anywhere (additive nested) := keepsChain (by intro k; cases k <;> decide) product
  exact keepsChain (by intro k; cases k <;> decide) sum

theorem keepsRelational : Keeps .plain .noColon sort (relational nested) := by
  refine .bind (keepsConcatenation same) fun left => .byKind fun k _ => ?_
  split
  · rename_i op found
    refine .advance (b := .plain) ?_ fun _ _ => .idle (.toExpr left) fun _ => ?_
    · rintro k rfl
      revert found
      cases k <;> first | exact fun _ => by decide | exact nofun
    · exact .bind (keepsConcatenation same) fun right => .idle (.toExpr right) fun _ => .pure
  · exact .pure

theorem keepsLogical : Keeps .plain .noColon sort (logical nested) := by
  have step {first : BinaryOp} {left : Expr} :
      Keeps .noColon .noColon (fun k => (logicalOp k).isSome = true) (logicalStep nested first left) := by
    refine .byKind fun k some => .given (.syntaxError _) (.advance (b := .plain) ?_ fun _ _ => ?_)
    · rintro k rfl
      revert some
      cases k <;> decide
    · exact .bind (keepsRelational same) fun right => .idle (.toExpr right) fun _ => .pure
  refine .bind (keepsRelational same) fun left => .byKind fun k _ => ?_
  split
  · exact .pure
  · exact .idle (.toExpr left) fun _ => .bind (.whileNext fun _ => step) fun _ => .pure

theorem keepsImplication {afterImplies : Bool} : Keeps .plain .noColon sort (implication nested afterImplies) := by
  refine .bind (keepsLogical same) fun left => .byKind fun k _ => ?_
  split
  · refine .advance (b := .plain) (by rintro _ rfl; decide) fun _ _ => .idle (.toExpr left) fun _ => ?_
    exact .bind (same .implication) fun right => .idle (.toExpr right) fun _ => .pure
  · refine .idle (.toExpr left) fun _ => .bind (.whileEats (e := .noColon) fun (acc, mixed) => ?_) fun _ => .pure
    refine .given (.broken _) (.bind (keepsLogical same) fun right => ?_)
    exact .idle (.toExpr right) fun _ => .pure
  · exact .pure

theorem keepsLevel (l : Level) : Keeps .plain .noColon sort (level nested l) := by
  cases l with
  | whole => exact keepsChain (by intro k; cases k <;> decide) (keepsImplication same)
  | implication => exact keepsImplication same
  | power => exact keepsPower same
  | unary => exact keepsUnary same

end Levels

theorem keepsExpression {sort : Kind → Prop} : Keeps .plain .noColon sort expression := by
  refine keepsNested fun l => ?_
  exact .nest (fun _ => .look fun _ => .pure) fun _ same l => keepsLevel same l

end Boogie.Grammar
