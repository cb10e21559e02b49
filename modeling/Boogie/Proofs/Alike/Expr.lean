import Boogie.Grammar.Expr
import Boogie.Proofs.Alike.Cmd

/-! Expressions, read side by side. Each level is read alike with one token more ahead than the
productions nested in it; the levels are tied together at the end. -/
namespace Boogie.Grammar

open Token (Kind)

instance : Spanned BitRange := ⟨fun f range => ⟨range.upper, range.lower, f range.span⟩⟩

instance : Spanned Operand where
  respan f
    | .expr e => .expr (respan f e)
    | .bits range => .bits (respan f range)

instance : Typed BitRange := ⟨fun _ range => range⟩

instance : Typed Operand where
  retype f
    | .expr e => .expr (retype f e)
    | .bits range => .bits range

@[simp] theorem BitRange.retyped (c : Option Change) (range : BitRange) : retyped c range = range := by
  cases c <;> rfl

@[simp] theorem Operand.retypedExpr (c : Option Change) (e : Expr) :
    retyped c (Operand.expr e) = .expr (retyped c e) := by
  cases c <;> rfl

@[simp] theorem Operand.retypedBits (c : Option Change) (range : BitRange) :
    retyped c (Operand.bits range) = .bits range := by
  cases c <;> rfl

@[simp] theorem BitRange.respanMk (f : Span → Span) (upper lower : Nat) (span : Span) :
    respan f (⟨upper, lower, span⟩ : BitRange) = ⟨upper, lower, f span⟩ := rfl

@[simp] theorem Operand.respanExpr (f : Span → Span) (e : Expr) :
    respan f (Operand.expr e) = .expr (respan f e) := rfl

@[simp] theorem Operand.respanBits (f : Span → Span) (range : BitRange) :
    respan f (Operand.bits range) = .bits (respan f range) := rfl

section Nodes

variable {c : Option Change}

theorem alikeBinary {op : BinaryOp} {left left' right right' : Expr} (ofLeft : Like c left left')
    (ofRight : Like c right right') : Like c (Expr.binary op left right) (Expr.binary op left' right') := by
  simp_all [Like, Alike, bare, Expr.binary]

theorem alikeUnary {op : UnaryOp} {start start' : Span} {e e' : Expr} (same : Like c e e') :
    Like c (Expr.unary op start e) (Expr.unary op start' e') := by
  simp_all [Like, Alike, bare, Expr.unary]

theorem alikeConcat {span span' : Span} {left left' right right' : Expr} (ofLeft : Like c left left')
    (ofRight : Like c right right') :
    Like c (Expr.apply span .concat [left, right]) (.apply span' .concat [left', right']) := by
  simp_all [Like, Alike, bare]

theorem Like.operand {e e' : Expr} (same : Like c e e') : Like c (Operand.expr e) (.expr e') := by
  simpa [Like, Alike, bare] using same

theorem Like.isBitsEq {operand operand' : Operand} (same : Like c operand operand') :
    operand.isBits = operand'.isBits := by
  cases operand <;> cases operand' <;> simp_all [Like, Alike, bare, Operand.isBits]

theorem likePlaceholder {span span' : Span} : Like c (Expr.placeholder span) (.placeholder span') := by
  simp [Like, Alike, bare, Expr.placeholder]

theorem alikeExprOrPlaceholder {operand operand' : Operand} (same : Like c operand operand') :
    Like c operand.exprOrPlaceholder operand'.exprOrPlaceholder := by
  cases operand <;> cases operand'
  · simpa [Like, Alike, bare, Operand.exprOrPlaceholder] using same
  · simp [Like, Alike, bare] at same
  · simp [Like, Alike, bare] at same
  · exact likePlaceholder

theorem Like.number {span : Span} {value : Int} {operand : Operand}
    (same : Like c (.expr (.literal span (.int value))) operand) :
    ∃ span', operand = .expr (.literal span' (.int value)) := by
  cases operand with
  | bits range => simp [Like, Alike, bare] at same
  | expr e =>
    cases e with
    | literal span' v =>
      have : Literal.int value = v := by simpa [Like, Alike, bare] using same
      exact ⟨span', this ▸ rfl⟩
    | _ => simp [Like, Alike, bare] at same

theorem Like.ofNumber {span : Span} {value : Int} {operand : Operand}
    (same : Like c operand (.expr (.literal span (.int value)))) :
    ∃ span', operand = .expr (.literal span' (.int value)) := by
  cases operand with
  | bits range => simp [Like, Alike, bare] at same
  | expr e =>
    cases e with
    | literal span' v =>
      have : v = Literal.int value := by simpa [Like, Alike, bare] using same
      exact ⟨span', this ▸ rfl⟩
    | _ => simp [Like, Alike, bare] at same

theorem alikeBinding {start start' : Span} {binder : Binder} {params params' : List Ident}
    {vars vars' : List Variable} {as as' : List Attribute} {ts ts' : List Trigger} {body body' : Expr}
    (ofParams : Like c params params') (ofVars : Like c vars vars') (ofAs : Like c as as')
    (ofTs : Like c ts ts') (ofBody : Like c body body') :
    Like c (binding start binder params vars as ts body) (binding start' binder params' vars' as' ts' body') := by
  rw [binding, binding, ofParams.isEmptyEq, ofVars.isEmptyEq]
  split
  · exact ofBody
  · have kept : Like c (if binder == .lambda then [] else ts) (if binder == .lambda then [] else ts') := by
      split
      · exact .nil
      · exact ofTs
    simp_all [Like, Alike, bare]

theorem alikeBracketed {span span' : Span} {base base' : Expr} (ofBase : Like c base base')
    {found found' : List Expr × Option BitRange × Option Expr} (same : Like c found found') :
    Like c (bracketed span base found) (bracketed span' base' found') := by
  obtain ⟨indexes, range, stored⟩ := found
  obtain ⟨indexes', range', stored'⟩ := found'
  obtain ⟨ofIndexes, same⟩ := same.pair
  obtain ⟨ofRange, ofStored⟩ := same.pair
  have count := ofIndexes.lengthEq
  rcases stored with _ | value <;> rcases stored' with _ | value'
  · rcases range with _ | ⟨upper, lower, _⟩ <;> rcases range' with _ | ⟨upper', lower', _⟩ <;>
      simp_all [Like, Alike, bare, bracketed]
  · simp [Like, Alike, bare] at ofStored
  · simp [Like, Alike, bare] at ofStored
  · simp_all [Like, Alike, bare, bracketed]

end Nodes

section Operands

variable {S : Simulation} {n : Nat} {sort : Kind → Prop}

theorem alikeToExpr {operand operand' : Operand} (same : Like S.change operand operand') :
    Simulates S n sort (Like S.change) operand.toExpr operand'.toExpr := by
  cases operand <;> cases operand'
  · exact .pure (by simpa [Like, Alike, bare] using same)
  · simp [Like, Alike, bare] at same
  · simp [Like, Alike, bare] at same
  · exact .bind (.brokenAt _) fun _ _ _ => .pure likePlaceholder

end Operands

section Atoms

variable {S : Simulation} {n : Nat} {sort : Kind → Prop} {expr expr' : Production Expr}
  (nested : Simulates S n anywhere (Like S.change) expr expr')

theorem Progresses.blockCmd : Progresses (fun k => commandStart.contains k = true) (blockCmd expr) :=
  .first .labelOrCmd

theorem Progresses.block : Progresses (fun k => (k == .identifier) = true) (block expr) :=
  .first (ident.mono fun k h => by simpa using h)

include nested

theorem alikeNameOrCall :
    Simulates S (n + 1) (· = .identifier) (Like S.change) (nameOrCall expr) (nameOrCall expr') := by
  refine .progress .ident alikeIdent fun id id' ofId => ?_
  rw [ofId.nameEq]
  refine .ifEats (by decide) ?_ (.pure (by simp [Like, Alike, bare]))
  refine .bind (alikeCallArguments nested) fun args args' ofArgs => ?_
  refine .bind .spanFrom fun _ _ _ => .pure ?_
  simp_all [Like, Alike, bare]

theorem alikeParenthesized : Simulates S n sort (Like S.change) (parenthesized expr) (parenthesized expr') := by
  refine .bind (.expect (by decide)) fun _ _ _ => ?_
  refine .bind nested fun inner inner' same => ?_
  exact .bind (.expect (by decide)) fun _ _ _ => .pure same

theorem alikeBound : Simulates S n sort (Like S.change) (bound expr) (bound expr') := by
  refine .ifNext (by decide) ?_ (.ifNext (by decide) ?_ ?_)
  · refine .bind alikeTypeParams fun params params' ofParams => ?_
    have vars : Simulates S n anywhere (Like S.change)
        (ifNext (checkAny groupStart) (attributedGroups expr .boundVariables) (pure []))
        (ifNext (checkAny groupStart) (attributedGroups expr' .boundVariables) (pure [])) :=
      .ifNext (by decide) (alikeAttributedGroups nested) (.pure .nil)
    exact .bind vars fun vars vars' ofVars => .pure (ofParams.both ofVars)
  · exact .bind (alikeAttributedGroups nested) fun vars vars' ofVars => .pure (Like.nil.both ofVars)
  · exact .bind (.syntaxError _) fun _ _ _ => .pure (Like.nil.both .nil)

theorem alikeBindBody {binder : Binder} {start start' : Span} :
    Simulates S n sort (Like S.change) (bindBody expr binder start) (bindBody expr' binder start') := by
  refine .bind (alikeBound nested) fun (params, vars) (params', vars') same => ?_
  obtain ⟨ofParams, ofVars⟩ := same.pair
  refine .bind (.expect (by decide)) fun _ _ _ => ?_
  refine .bind (alikeBracedGroups nested) fun (found, triggers) (found', triggers') same => ?_
  obtain ⟨ofFound, ofTriggers⟩ := same.pair
  refine .bind nested fun body body' ofBody => ?_
  rw [ofTriggers.isEmptyEq]
  refine .bind (.given (.broken _)) fun _ _ _ => .pure ?_
  exact alikeBinding ofParams ofVars ofFound ofTriggers ofBody

theorem alikeLetVar : Simulates S n sort (Like S.change) (letVar expr) (letVar expr') := by
  refine .bind (alikeAttributes nested) fun found found' ofFound => ?_
  refine .bind alikeIdent fun id id' ofId => .pure ?_
  simp_all [Like, Alike, bare, ofId.nameEq]

theorem alikeLetBody (plain : ∀ k, sort k → isPlain k = true) :
    Simulates S n sort (Like S.change) (letBody expr) (letBody expr') := by
  refine .bind (.advance plain) fun t t' _ => ?_
  refine .bind (.commaSeparated (alikeLetVar nested)) fun vars vars' ofVars => ?_
  refine .bind (.expect (by decide)) fun _ _ _ => ?_
  refine .bind (.commaSeparated nested) fun values values' ofValues => ?_
  refine .bind (.expect (by decide)) fun _ _ _ => ?_
  refine .bind (alikeAttributes nested) fun found found' ofFound => ?_
  refine .bind nested fun body body' ofBody => .pure ?_
  simp_all [Like, Alike, bare]

theorem alikeIfThenElse :
    Simulates S (n + 1) (· = .kwIf) (Like S.change) (ifThenElse expr) (ifThenElse expr') := by
  have plain : ∀ k : Kind, k = .kwIf → isPlain k = true := by rintro _ rfl; decide
  refine .progress (.advance fun k first => realOfPlain (plain k first)) (.advance plain) fun t t' _ => ?_
  refine .bind nested fun condition condition' ofCondition => ?_
  refine .bind (.expect (by decide)) fun _ _ _ => ?_
  refine .bind nested fun thenPart thenPart' ofThen => ?_
  refine .bind (.expect (by decide)) fun _ _ _ => ?_
  refine .bind nested fun elsePart elsePart' ofElse => .pure ?_
  simp_all [Like, Alike, bare]

theorem alikeBlockCmd : Simulates S n sort (Like S.change) (blockCmd expr) (blockCmd expr') := by
  refine MayMark.bind (alikeLabelOrCmd nested) (fun found found' same => ?_) fun found found' _ ended => ?_
  · cases found with
    | label id =>
      cases found' with
      | label id' => exact .bind (.broken _) fun _ _ _ => .pure .none
      | cmd c' => simp [Like, Alike, bare] at same
      | mistake => simp [Like, Alike, bare] at same
    | cmd c =>
      cases found' with
      | label id' => simp [Like, Alike, bare] at same
      | cmd c' => exact .pure (by simpa [Like, Alike, bare] using same)
      | mistake => simp [Like, Alike, bare] at same
    | mistake =>
      cases found' with
      | label id' => simp [Like, Alike, bare] at same
      | cmd c' => simp [Like, Alike, bare] at same
      | mistake => exact .pure .none
  · obtain ⟨id, rfl⟩ := ended
    exact .misses (.fault (.broken _))

theorem alikeBlockTransfer :
    Simulates S n sort (Like S.change) (blockTransfer expr) (blockTransfer expr') := by
  refine .bind .currentSpan fun start start' _ => ?_
  refine .ifEats (by decide) ?_ (.ifEats (by decide) ?_ ?_)
  · refine .bind alikeIdents fun labels labels' same => ?_
    exact .bind .spanFrom fun _ _ _ => .pure (by simpa [Like, Alike, bare] using same)
  · refine .bind nested fun value value' same => ?_
    exact .bind .spanFrom fun _ _ _ => .pure (by simpa [Like, Alike, bare] using same)
  · refine .bind (.syntaxError _) fun _ _ _ => ?_
    exact .bind .spanFrom fun _ _ _ => .pure (by simp [Like, Alike, bare])

omit nested in
theorem missesBlockTransfer : Misses isTypeWord (blockTransfer expr) :=
  .stay (.read _) fun _ => .eat (by decide) (.eat (by decide) (.fault (.syntaxError _)))

theorem alikeBlock : Simulates S n sort (Like S.change) (block expr) (block expr') := by
  refine .bind alikeIdent fun label label' ofLabel => .expectColon ?_ ?_
  · refine .bind (.manyNext (by decide) (by decide) .blockCmd (alikeBlockCmd nested).always)
      fun cmds cmds' ofCmds => ?_
    refine .bind (alikeBlockTransfer nested) fun transfer transfer' ofTransfer => ?_
    refine .bind (.expect (by decide)) fun _ _ _ => ?_
    refine .bind .spanFrom fun _ _ _ => .pure ?_
    have kept : Like S.change (cmds.filterMap id) (cmds'.filterMap id) :=
      ofCmds.filterMap (g := id) (fun _ _ => rfl) fun _ => rfl
    simp_all [Like, Alike, bare, ofLabel.nameEq]
  · refine .misses (.none ?_ fun _ => .first missesBlockTransfer)
    rintro k word
    revert word
    cases k <;> decide

theorem alikeCodeExpr :
    Simulates S (n + 1) (· = .leftCode) (Like S.change) (codeExpr expr) (codeExpr expr') := by
  have plain : ∀ k : Kind, k = .leftCode → isPlain k = true := by rintro _ rfl; decide
  refine .progress (.advance fun k first => realOfPlain (plain k first)) (.advance plain) fun t t' _ => ?_
  refine .bind (alikeLocalVariables nested) fun locals locals' ofLocals => ?_
  refine .bind (alikeBlock nested) fun first first' ofFirst => ?_
  refine .bind (.manyNext (by decide) (by decide) .block (alikeBlock nested).always)
    fun rest rest' ofRest => ?_
  refine .bind (.expect (by decide)) fun _ _ _ => ?_
  refine .bind .spanFrom fun _ _ _ => .pure ?_
  simp_all [Like, Alike, bare]

theorem alikeOldExpr : Simulates S (n + 1) (· = .kwOld) (Like S.change) (oldExpr expr) (oldExpr expr') := by
  have plain : ∀ k : Kind, k = .kwOld → isPlain k = true := by rintro _ rfl; decide
  refine .progress (.advance fun k first => realOfPlain (plain k first)) (.advance plain) fun t t' _ => ?_
  refine .bind (alikeParenthesized nested) fun inner inner' same => ?_
  exact .bind .spanFrom fun _ _ _ => .pure (by simpa [Like, Alike, bare] using same)

theorem alikeConverted {target : Conversion} (plain : ∀ k, sort k → isPlain k = true) :
    Simulates S (n + 1) sort (Like S.change) (converted target expr) (converted target expr') := by
  refine .progress (.advance fun k first => realOfPlain (plain k first)) (.advance plain) fun t t' _ => ?_
  refine .bind (alikeParenthesized nested) fun inner inner' same => ?_
  exact .bind .spanFrom fun _ _ _ => .pure (by simpa [Like, Alike, bare] using same)

omit nested in
theorem literalOfSpelled {t t' : Token} (kind : t'.kind = t.kind)
    (text : t.kind.isClass = true → t.text = t'.text) : literalOf t' = literalOf t := by
  by_cases spelled : t.kind.isClass = true
  · rw [literalOf, literalOf, kind, text spelled]
  · unfold literalOf
    rw [kind]
    split <;> simp_all [Kind.isClass]

omit nested in
theorem alikeLiteral (plain : ∀ k, sort k → isPlain k = true) : Simulates S n sort (Like S.change) literal literal := by
  refine .bind (.advance plain) fun t t' same => ?_
  have value : literalOf t' = literalOf t := literalOfSpelled same.kind same.text
  refine .bind (V := fun v v' => v = v') ?_ fun v v' same => .pure (by simp [Like, Alike, bare, same])
  rw [literalValue, literalValue, value, same.kind]
  split
  · exact .pure rfl
  · exact .bind (.broken _) fun _ _ _ => .pure rfl

end Atoms

section Levels

variable {S : Simulation} {n : Nat} {sort : Kind → Prop} {nested nested' : Nested}

theorem Progresses.bracket {base : Expr} :
    Progresses (fun k => (k == .leftBracket) = true) (bracket nested base) :=
  .first (.advance (by simp))

theorem Progresses.chainStep {β : Type} {operator : Kind → Option β} {join : β → Expr → Expr → Expr}
    {next : Production Operand} {left : Operand} (ends : operator .endOfText = none) :
    Progresses (fun k => (operator k).isSome = true) (chainStep operator join next left) := by
  refine .byKind fun k first => ?_
  split
  · refine .first (.advance ?_)
    rintro _ rfl rfl
    simp [ends] at first
  · rename_i none
    simp [none] at first

theorem Progresses.logicalStep {first : BinaryOp} {left : Expr} :
    Progresses (fun k => (logicalOp k).isSome = true) (logicalStep nested first left) := by
  refine .stay (.read _) fun k => .stay (.given (.syntaxError _)) fun _ => .first (.advance ?_)
  rintro _ some rfl
  exact absurd some nofun

variable (same : ∀ l, Simulates S n anywhere (Like S.change) (nested l) (nested' l))
include same

theorem alikeNested : Simulates S n sort (Like S.change) nested.expression nested'.expression :=
  .bind (same .whole).always fun _ _ found => alikeToExpr found

theorem alikeInParens : Simulates S n sort (Like S.change) (inParens nested) (inParens nested') := by
  refine .bind (same .whole).always fun operand operand' found => ?_
  cases operand <;> cases operand'
  · exact .pure (by simpa [Like, Alike, bare] using found)
  · simp [Like, Alike, bare] at found
  · simp [Like, Alike, bare] at found
  · exact .bind (.broken _) fun _ _ _ => .pure likePlaceholder

theorem alikeParenBody {start start' : Span} :
    Simulates S n sort (Like S.change) (parenBody nested start) (parenBody nested' start') := by
  have whole {sort : Kind → Prop} : Simulates S n sort (Like S.change) nested.expression nested'.expression :=
    alikeNested same
  refine .ifNext (by decide) (alikeInParens same) (.ifNext (by decide) (alikeLetBody whole fun k is => plainOf is.2 rfl) ?_)
  refine .byKind ⟨rfl, rfl, rfl, rfl, rfl, rfl⟩ fun k _ => ?_
  split
  · rename_i binder found
    refine .bind (.advance ?_) fun _ _ _ => alikeBindBody whole
    rintro _ rfl
    exact plainOfSome (Option.isSome_of_eq_some found) rfl rfl
  · exact .bind (.syntaxError _) fun _ _ _ => .pure likePlaceholder

theorem alikeParen : Simulates S (n + 1) (· = .leftParen) (Like S.change) (paren nested) (paren nested') := by
  have plain : ∀ k : Kind, k = .leftParen → isPlain k = true := by rintro _ rfl; decide
  refine .progress (.advance fun k first => realOfPlain (plain k first)) (.advance plain) fun t t' _ => ?_
  refine .bind (alikeParenBody same) fun inner inner' found => ?_
  exact .bind (.expect (by decide)) fun _ _ _ => .pure found

theorem alikeAtom : Simulates S (n + 1) sort (Like S.change) (atom nested) (atom nested') := by
  have whole : Simulates S n anywhere (Like S.change) nested.expression nested'.expression := alikeNested same
  refine .byKind ⟨rfl, rfl, rfl, rfl, rfl, rfl⟩ fun k first => ?_
  split
  · exact alikeNameOrCall whole
  · exact alikeParen same
  · exact alikeIfThenElse whole
  · exact alikeCodeExpr whole
  · exact alikeOldExpr whole
  · exact alikeConverted whole (by rintro _ rfl; decide)
  · exact alikeConverted whole (by rintro _ rfl; decide)
  · split
    · rename_i start
      refine alikeLiteral ?_
      rintro _ rfl
      exact plainOfMem start (by decide) (by decide)
    · refine .bind (.syntaxError _) fun _ _ _ => ?_
      exact .bind .currentSpan fun _ _ _ => .pure likePlaceholder

theorem alikeFurther {first first' : Operand} {rule : Rule} (ofFirst : Like S.change first first') :
    Simulates S n sort (Like S.change) (further nested first rule) (further nested' first' rule) := by
  refine .bind (same .whole).always fun next next' found => ?_
  rw [ofFirst.isBitsEq, found.isBitsEq]
  exact .bind (.given (.broken rule)) fun _ _ _ => .pure (alikeExprOrPlaceholder found)

theorem alikeStored {first first' : Operand} (ofFirst : Like S.change first first') :
    Simulates S n sort (Like S.change) (stored nested first) (stored nested' first') := by
  refine .ifEats (by decide) ?_ (.pure .none)
  exact .bind (alikeFurther same ofFirst) fun _ _ found => .pure found.some

theorem alikeIndexes : Simulates S n sort (Like S.change) (indexes nested) (indexes nested') := by
  refine .ifNext (by decide) ?_ (.ifEats (by decide) ?_ (.pure (Like.nil.both (Like.none.both .none))))
  · refine .bind (same .whole).always fun first first' ofFirst => ?_
    refine .bind (.manyEats (by decide) (alikeFurther same ofFirst) (Nat.le_succ n))
      fun rest rest' ofRest => ?_
    refine .bind (alikeStored same ofFirst) fun stored stored' ofStored => ?_
    cases first <;> cases first'
    · exact .pure (by simp_all [Like, Alike, bare])
    · simp [Like, Alike, bare] at ofFirst
    · simp [Like, Alike, bare] at ofFirst
    · exact .pure (by simp_all [Like, Alike, bare])
  · exact .bind (alikeNested same) fun value value' found => .pure (by simpa [Like, Alike, bare] using found)

theorem alikeBracket {base base' : Expr} (ofBase : Like S.change base base') :
    Simulates S (n + 1) (fun k => (k == .leftBracket) = true) (Like S.change) (bracket nested base)
      (bracket nested' base') := by
  refine .progress (.advance (by simp)) (.advance fun k is => plainOf is rfl) fun t t' _ => ?_
  refine .bind (alikeIndexes same) fun found found' ofFound => ?_
  refine .bind (.expect (by decide)) fun _ _ _ => ?_
  exact .bind .previousSpan fun _ _ _ => .pure (alikeBracketed ofBase ofFound)

theorem alikeBrackets : Simulates S (n + 1) sort (Like S.change) (brackets nested) (brackets nested') := by
  refine .bind (alikeAtom same) fun base base' ofBase => ?_
  exact .whileNext (by decide) (by decide) ofBase (fun _ => .bracket) fun _ _ ofBase =>
    alikeBracket same ofBase

omit same in
theorem alikeBitBound {value : Int} : Simulates S n sort (· = ·) (bitBound value) (bitBound value) := by
  rw [bitBound]
  split
  · exact .pure rfl
  · exact .bind (.broken _) fun _ _ _ => .pure rfl

omit same in
theorem alikeNatValue {text : String} : Simulates S n sort (· = ·) (natValue text) (natValue text) := by
  rw [natValue]
  split
  · exact .pure rfl
  · exact .bind (.broken _) fun _ _ _ => .pure rfl

omit same in
theorem alikeUpperBound {operand operand' : Operand} (found : Like S.change operand operand') :
    Simulates S n sort (· = ·) (upperBound operand) (upperBound operand') := by
  unfold upperBound
  split
  · obtain ⟨_, rfl⟩ := found.number
    exact alikeBitBound
  · rename_i other
    split
    · obtain ⟨span, rfl⟩ := found.ofNumber
      exact absurd rfl (other span _)
    · exact .bind (.broken _) fun _ _ _ => .pure rfl

omit same in
theorem alikeCoerced {operand operand' : Operand} (found : Like S.change operand operand') :
    Simulates S n anywhere (Like S.change) (coerced operand) (coerced operand') ∧
      Marks S n (Like S.change) (coerced operand) (coerced operand') := by
  have typed (type type' : Ty) (ofType : Like S.change type type') : Simulates S n anywhere (Like S.change)
      (operand.toExpr >>= fun e => pure (Operand.expr (.apply (e.span.merge type.span) (.coerce type) [e])))
      (operand'.toExpr >>= fun e => pure (Operand.expr (.apply (e.span.merge type'.span) (.coerce type') [e]))) := by
    refine .bind (alikeToExpr found) fun e e' ofE => .pure ?_
    simp_all [Like, Alike, bare]
  refine ⟨.ifNext (by decide) (.bind alikeType typed) (.ifNext (by decide) ?_ ?_), .ifNext ?_ (by decide) (.bind .type typed)⟩
  · refine .bind (.advance fun k is => plainOf is.2 rfl) fun t t' token => ?_
    have kind : t.kind = .digits := by simpa using token.first.2
    rw [token.text (kind ▸ rfl)]
    refine .bind alikeNatValue fun value _ same => ?_
    subst same
    refine .bind alikeBitBound fun lower _ same => ?_
    subst same
    refine .bind (alikeUpperBound found) fun upper _ same => .pure ?_
    simp [Like, Alike, bare, same]
  · exact .bind (.syntaxError _) fun _ _ _ => .pure found
  · intro k word
    revert word
    cases k <;> decide

theorem alikeCoercion : Simulates S (n + 1) sort (Like S.change) (coercion nested) (coercion nested') := by
  refine .bind (alikeBrackets same) fun e e' ofE => ?_
  exact .whileColons ofE.operand (fun _ _ found => (alikeCoerced found).1) (fun _ _ found => (alikeCoerced found).2)
    (Nat.le_refl _)

theorem alikeUnaryLevel : Simulates S (n + 1) sort (Like S.change) (unary nested) (unary nested') := by
  refine .byKind ⟨rfl, rfl, rfl, rfl, rfl, rfl⟩ fun k first => ?_
  split
  · rename_i op found
    have plain : ∀ x : Kind, x = k → isPlain x = true := by
      rintro _ rfl
      exact plainOfSome (Option.isSome_of_eq_some found) rfl rfl
    refine .progress (.advance fun k first => realOfPlain (plain k first)) (.advance plain) fun t t' _ => ?_
    refine .bind (same .unary) fun operand operand' ofOperand => ?_
    exact .bind (alikeToExpr ofOperand) fun e e' ofE => .pure (alikeUnary ofE).operand
  · refine .ifNext (by decide) (alikeCoercion same) ?_
    refine .bind (.syntaxError _) fun _ _ _ => ?_
    exact .bind .currentSpan fun _ _ _ => .pure likePlaceholder.operand

theorem alikePower : Simulates S (n + 1) sort (Like S.change) (power nested) (power nested') := by
  refine .bind (alikeUnaryLevel same) fun left left' ofLeft => ?_
  refine .ifEatsFirst (by decide) ?_ (.pure ofLeft)
  refine .bind (alikeToExpr ofLeft) fun lhs lhs' ofLhs => ?_
  refine .bind (same .power) fun right right' ofRight => ?_
  exact .bind (alikeToExpr ofRight) fun rhs rhs' ofRhs => .pure (alikeBinary ofLhs ofRhs).operand

section Chains

variable {β : Type} {operator : Kind → Option β} {join : β → Expr → Expr → Expr}
  {next next' : Production Operand} (uniform : Uniform operator) (ends : operator .endOfText = none)
  (colon : operator .colon = none) (joined : ∀ op left left' right right', Like S.change left left' →
    Like S.change right right' → Like S.change (join op left right) (join op left' right'))
  (operand : Simulates S n anywhere (Like S.change) next next')
include uniform ends colon joined operand

omit same in
theorem alikeChainStep {left left' : Operand} (ofLeft : Like S.change left left') :
    Simulates S n (fun k => (operator k).isSome = true) (Like S.change) (chainStep operator join next left)
      (chainStep operator join next' left') := by
  refine .byKind ?_ fun k first => ?_
  · constructor
    · simp only [uniform.ofConst]
    · simp only [uniform.ofFunction]
    · simp only [uniform.ofAxiom]
    · simp only [uniform.ofType]
    · simp only [uniform.ofProcedure]
    · simp only [uniform.ofImplementation]
  · split
    · rename_i op found
      refine .bind (.advance ?_) fun _ _ _ => ?_
      · rintro _ rfl
        exact plainOfSome first ends colon
      · refine .bind (alikeToExpr ofLeft) fun lhs lhs' ofLhs => ?_
        refine .bind operand fun right right' ofRight => ?_
        refine .bind (alikeToExpr ofRight) fun rhs rhs' ofRhs => .pure ?_
        exact (joined op lhs lhs' rhs rhs' ofLhs ofRhs).operand
    · exact .pure ofLeft

omit same in
theorem alikeChain : Simulates S n sort (Like S.change) (chain operator join next) (chain operator join next') := by
  have stops : Uniform fun k => (operator k).isSome := by
    constructor
    · rw [uniform.ofConst]
    · rw [uniform.ofFunction]
    · rw [uniform.ofAxiom]
    · rw [uniform.ofType]
    · rw [uniform.ofProcedure]
    · rw [uniform.ofImplementation]
  refine .bind operand.always fun first first' ofFirst => ?_
  refine .whileNext stops (by rw [ends]; rfl) ofFirst (fun _ => .chainStep ends) fun _ _ ofLeft => ?_
  exact alikeChainStep uniform ends colon joined operand ofLeft

end Chains

theorem alikeMultiplicative :
    Simulates S (n + 1) sort (Like S.change) (multiplicative nested) (multiplicative nested') :=
  alikeChain (by decide) rfl rfl (fun _ _ _ _ _ => alikeBinary) (alikePower same)

theorem alikeAdditive : Simulates S (n + 1) sort (Like S.change) (additive nested) (additive nested') :=
  alikeChain (by decide) rfl rfl (fun _ _ _ _ _ => alikeBinary) (alikeMultiplicative same)

theorem alikeConcatenation :
    Simulates S (n + 1) sort (Like S.change) (concatenation nested) (concatenation nested') :=
  alikeChain (by decide) rfl rfl (fun _ _ _ _ _ => alikeConcat) (alikeAdditive same)

theorem alikeRelational : Simulates S (n + 1) sort (Like S.change) (relational nested) (relational nested') := by
  refine .bind (alikeConcatenation same) fun left left' ofLeft => ?_
  refine .byKind ⟨rfl, rfl, rfl, rfl, rfl, rfl⟩ fun k _ => ?_
  split
  · rename_i op found
    refine .bind (.advance ?_) fun _ _ _ => ?_
    · rintro _ rfl
      exact plainOfSome (Option.isSome_of_eq_some found) rfl rfl
    · refine .bind (alikeToExpr ofLeft) fun lhs lhs' ofLhs => ?_
      refine .bind (alikeConcatenation same) fun right right' ofRight => ?_
      exact .bind (alikeToExpr ofRight) fun rhs rhs' ofRhs => .pure (alikeBinary ofLhs ofRhs).operand
  · exact .pure ofLeft

theorem alikeLogicalStep {first : BinaryOp} {left left' : Expr} (ofLeft : Like S.change left left') :
    Simulates S (n + 1) (fun k => (logicalOp k).isSome = true) (Like S.change) (logicalStep nested first left)
      (logicalStep nested' first left') := by
  refine .byKind ⟨rfl, rfl, rfl, rfl, rfl, rfl⟩ fun k some => ?_
  refine .stay (.given (.syntaxError _)) (.given (.syntaxError _)) fun _ _ _ => ?_
  refine .bind (.advance ?_) fun _ _ _ => ?_
  · rintro _ rfl
    exact plainOfSome some rfl rfl
  · refine .bind (alikeRelational same) fun right right' ofRight => ?_
    exact .bind (alikeToExpr ofRight) fun rhs rhs' ofRhs => .pure (alikeBinary ofLeft ofRhs)

theorem alikeLogical : Simulates S (n + 1) sort (Like S.change) (logical nested) (logical nested') := by
  refine .bind (alikeRelational same) fun left left' ofLeft => ?_
  refine .byKind ⟨rfl, rfl, rfl, rfl, rfl, rfl⟩ fun k _ => ?_
  split
  · exact .pure ofLeft
  · refine .bind (alikeToExpr ofLeft) fun e e' ofE => ?_
    refine .bind (V := Like S.change) (.whileNext (by decide) (by decide) ofE (fun _ => .logicalStep) fun _ _ ofE =>
      alikeLogicalStep same ofE) fun e e' ofE => .pure ofE.operand

theorem alikeExpliesStep {acc acc' : Expr × Bool} (ofAcc : Like S.change acc acc') :
    Simulates S (n + 1) sort (Like S.change) (expliesStep nested acc) (expliesStep nested' acc') := by
  obtain ⟨left, mixed⟩ := acc
  obtain ⟨left', mixed'⟩ := acc'
  obtain ⟨ofLeft, ofMixed⟩ := ofAcc.pair
  rw [expliesStep, expliesStep, ofMixed.boolEq]
  refine .bind (.given (.broken _)) fun _ _ _ => ?_
  refine .bind (alikeLogical same) fun right right' ofRight => ?_
  exact .bind (alikeToExpr ofRight) fun rhs rhs' ofRhs =>
    .pure ((alikeBinary ofRhs ofLeft).both (by simp [Like, Alike]))

theorem alikeImplication {afterImplies : Bool} :
    Simulates S (n + 1) sort (Like S.change) (implication nested afterImplies) (implication nested' afterImplies) := by
  refine .bind (alikeLogical same) fun left left' ofLeft => ?_
  refine .byKind ⟨rfl, rfl, rfl, rfl, rfl, rfl⟩ fun k _ => ?_
  split
  · have plain : ∀ k : Kind, k = .implies → isPlain k = true := by rintro _ rfl; decide
    refine .progress (.advance fun k first => realOfPlain (plain k first)) (.advance plain) fun _ _ _ => ?_
    refine .bind (alikeToExpr ofLeft) fun lhs lhs' ofLhs => ?_
    refine .bind (same .implication) fun right right' ofRight => ?_
    exact .bind (alikeToExpr ofRight) fun rhs rhs' ofRhs => .pure (alikeBinary ofLhs ofRhs).operand
  · refine .bind (alikeToExpr ofLeft) fun e e' ofE => ?_
    refine .bind (V := Like S.change) (.whileEats (by decide) (ofE.both (by simp [Like, Alike]))
      (fun _ _ ofAcc => alikeExpliesStep same ofAcc) (Nat.le_succ _)) fun acc acc' ofAcc => .pure ?_
    exact ofAcc.pair.1.operand
  · exact .pure ofLeft

theorem alikeLevel (l : Level) : Simulates S (n + 1) sort (Like S.change) (level nested l) (level nested' l) := by
  cases l with
  | whole => exact alikeChain (by decide) rfl rfl (fun _ _ _ _ _ => alikeBinary) (alikeImplication same)
  | implication => exact alikeImplication same
  | power => exact alikePower same
  | unary => exact alikeUnaryLevel same

end Levels

theorem alikeOperand {S : Simulation} {n : Nat} {sort : Kind → Prop} (l : Level) :
    Simulates S n sort (Like S.change) (operand l) (operand l) :=
  Simulates.always (.nest (V := fun _ => Like S.change) (fun _ _ _ _ same l => alikeLevel same l) l)

theorem alikeExpression {S : Simulation} {n : Nat} {sort : Kind → Prop} :
    Simulates S n sort (Like S.change) expression expression := alikeNested alikeOperand

end Boogie.Grammar
