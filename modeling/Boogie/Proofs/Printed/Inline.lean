import Boogie.Proofs.Printed.Flows

/-! What is printed on one line. Within a name, a type, a literal or an expression, and whatever else of the
kind, no line is broken; lines are broken between statements and declarations only. -/
namespace Boogie.Layout

def IsInline (ps : List Piece) : Prop := '\n' ∉ chars ps

@[simp] theorem inlineNil : IsInline [] := List.not_mem_nil

@[simp] theorem inlineAppend (ps qs : List Piece) : IsInline (ps ++ qs) ↔ IsInline ps ∧ IsInline qs := by
  simp [IsInline]

@[simp] theorem inlineCons (p : Piece) (ps : List Piece) : IsInline (p :: ps) ↔ '\n' ∉ p.chars ∧ IsInline ps := by
  simp [IsInline]

@[simp] theorem spaceChars : Piece.space.chars = [' '] := rfl

@[simp] theorem textChars (s : String) : (Piece.text s).chars = s.toList := rfl

section Lists

variable {α : Type} {as : List α} {print : α → List Piece}

theorem inlineEach (each : ∀ a ∈ as, IsInline (print a)) : IsInline (as.flatMap print) := by
  induction as with
  | nil => simp
  | cons a rest ih =>
    obtain ⟨first, others⟩ := List.forall_mem_cons.mp each
    simp [first, ih others]

theorem inlineJoined {mark : String} (plain : '\n' ∉ mark.toList) (each : ∀ a ∈ as, IsInline (print a)) :
    IsInline (List.intercalate [.text mark] (as.map print)) := by
  induction as with
  | nil => simp
  | cons a rest ih =>
    obtain ⟨first, others⟩ := List.forall_mem_cons.mp each
    cases rest with
    | nil => simpa using first
    | cons b rest =>
      simp only [List.map_cons, List.intercalate_cons_cons, inlineAppend, inlineCons, inlineNil, and_true]
      exact ⟨⟨first, plain⟩, ih others⟩

theorem inlineComma (each : ∀ a ∈ as, IsInline (print a)) : IsInline (commaList (as.map print)) :=
  inlineJoined (by decide) each

theorem inlineSpaced (each : ∀ a ∈ as, IsInline (print a)) : IsInline (spaced print as) :=
  inlineEach fun a mem => by simpa using each a mem

@[simp] theorem inlineWrapped (ps : List Piece) : IsInline (wrapped ps) ↔ IsInline ps := by simp [wrapped]

@[simp] theorem inlineWrappedIf (condition : Bool) (ps : List Piece) :
    IsInline (wrappedIf condition ps) ↔ IsInline ps := by
  cases condition <;> simp [wrappedIf]

end Lists

theorem plainPart {c : Char} (part : Token.isNamePart c = true) : c ≠ '\n' := by
  rintro rfl
  exact absurd part (by decide)

theorem plainName {n : String} (written : isWritten n) : '\n' ∉ n.toList := by
  intro mem
  obtain ⟨c, rest, same, start⟩ := startOfName written
  have parts : rest.all Token.isNamePart = true := by
    have both : Token.isNameStart c = true ∧ rest.all Token.isNamePart = true := by
      simpa [isWritten, same, Token.isName] using written
    exact both.2
  rw [same] at mem
  rcases List.mem_cons.mp mem with rfl | later
  · exact absurd start (by decide)
  · exact plainPart (List.all_eq_true.mp parts _ later) rfl

@[simp] theorem inlineName {n : String} (written : isWritten n) : IsInline (name n) := by
  rw [name, Name.escape]
  split <;> simp [plainName written]

@[simp] theorem plainDigits (n : Nat) : '\n' ∉ Nat.toDigits 10 n := fun mem =>
  absurd (List.all_eq_true.mp (Text.allDigits n) _ mem) (by decide)

@[simp] theorem plainInt (z : Int) : '\n' ∉ z.repr.toList := by
  show '\n' ∉ (toString z).toList
  rw [Text.intDigits]
  split <;> simp

theorem plainBased (z : Int) : '\n' ∉ Text.basedDigits 16 z := by
  have plain : '\n' ∉ Nat.toDigits 16 z.natAbs := fun mem =>
    absurd (List.all_eq_true.mp (Text.allHexDigits z.natAbs) _ mem) (by decide)
  rw [Text.basedDigits]
  split
  · simpa using plain
  · exact plain

theorem plainDecimal (d : Decimal) : '\n' ∉ d.text.toList := by
  rw [Decimal.text]
  have front (n : Nat) : '\n' ∉ d.mantissa.repr.toList.take n := fun mem => plainInt _ (List.mem_of_mem_take mem)
  have back (n : Nat) : '\n' ∉ d.mantissa.repr.toList.drop n := fun mem => plainInt _ (List.mem_of_mem_drop mem)
  split <;> simp [front, back]

theorem plainFloat (f : FloatLiteral) : '\n' ∉ f.text.toList := by
  have sizes : '\n' ∉ f.sizes.toList := by simp [FloatLiteral.sizes]
  unfold FloatLiteral.text
  split
  · rename_i significand places exponent _
    have padded (zeros : Nat) : '\n' ∉ List.replicate zeros '0' ++ Text.basedDigits 16 significand := by
      simp [plainBased]
    have pointed : '\n' ∉ FloatLiteral.pointed significand places := by
      have front (zeros n : Nat) : '\n' ∉ (List.replicate zeros '0' ++ Text.basedDigits 16 significand).take n :=
        fun mem => padded zeros (List.mem_of_mem_take mem)
      have back (zeros n : Nat) : '\n' ∉ (List.replicate zeros '0' ++ Text.basedDigits 16 significand).drop n :=
        fun mem => padded zeros (List.mem_of_mem_drop mem)
      simp [FloatLiteral.pointed, front, back]
    simp [pointed, sizes]
  all_goals simp [sizes]

def literalUnbroken : Expr → Prop
  | .literal _ (.string content) => '\n' ∉ content.toList
  | _ => True

theorem plainLiteral {span : Span} {v : Literal} (unbroken : literalUnbroken (.literal span v)) :
    '\n' ∉ v.text.toList := by
  cases v with
  | bool value => cases value <;> simp [Literal.text]
  | int value => exact plainInt value
  | real value => exact plainDecimal value
  | float value => exact plainFloat value
  | bitVector value width => simp [Literal.text]
  | string content =>
    have plain : '\n' ∉ content.toList := unbroken
    simp [Literal.text, plain]
  | rounding mode => cases mode <;> simp [Literal.text, RoundingMode.text]

def unbroken : Checks where
  name := isWritten
  ty _ := True
  expr e := e.isShaped ∧ literalUnbroken e
  attr a := ∀ content, .string content ∈ a.params → '\n' ∉ content.toList
  trigger _ := True
  cmd := Cmd.isShaped
  block _ := True
  tail _ := True
  stmtList _ := True
  decl _ := True

theorem inlineNames {ns : List Ident} (written : every unbroken ns) : IsInline (names ns) :=
  inlineComma fun id mem => inlineName (written id mem)

theorem inlineTypeParams {ps : List Ident} (written : every unbroken ps) : IsInline (optionalTypeParams ps) := by
  rw [optionalTypeParams]
  split
  · exact inlineNil
  · simp [typeParams, inlineNames written]

mutual

theorem inlineTy : ∀ t, Ty.passes unbroken t → IsInline (ty t)
  | .basic _ b, _ => by cases b <;> simp [ty, BasicType.keyword]
  | .bitVector _ width, _ => by simp [ty]
  | .param _ _, ⟨_, named⟩ => inlineName named
  | .named _ n args, ⟨_, named, pass⟩ => by
    have ofArgs : IsInline (args.flatMap tyArgument) :=
      inlineEach fun t mem => by simpa [tyArgument] using inlineTys args pass t mem
    rw [ty, tyArgsFlat]
    simp [inlineName named, ofArgs]
  | .map _ ps args result, ⟨_, params, ofArgs, ofResult⟩ => by
    have inside := inlineComma fun t mem => inlineTys args ofArgs t mem
    rw [ty, tysMap]
    simp [inlineTypeParams params, inside, inlineTy result ofResult]

theorem inlineTys : ∀ ts, Ty.allPass unbroken ts → ∀ t ∈ ts, IsInline (ty t)
  | [], _ => nofun
  | t :: rest, ⟨first, more⟩ => List.forall_mem_cons.mpr ⟨inlineTy t first, inlineTys rest more⟩

end

def inlining : Facts where
  expr e := IsInline (expr e)
  attr a := IsInline (braced a)
  trigger t := IsInline (trigger t)
  var v := IsInline (boundVariable v) ∧ IsInline (variableDecl v)
  letVar v := IsInline (letVar v)
  target t := IsInline (target t)
  call x := IsInline (callAttributes x) ∧ IsInline (callParams x)
  cmd x := IsInline (cmd x)
  transfer t := IsInline (transfer t)
  block b := IsInline (block b)

section Nodes

variable {span : Span}

theorem inlineExprs {es : List Expr} (each : ∀ e ∈ es, inlining.expr e) : IsInline (commaList (exprs es)) := by
  rw [exprsMap]
  exact inlineComma each

theorem inlineAttributes {as : List Attribute} (each : ∀ a ∈ as, inlining.attr a) : IsInline (attributes as) := by
  rw [attributesSpaced]
  exact inlineSpaced each

theorem inlineTriggers {ts : List Trigger} (each : ∀ t ∈ ts, inlining.trigger t) : IsInline (triggers ts) := by
  rw [triggersSpaced]
  exact inlineSpaced each

theorem inlineLetVars {vars : List LetVar} (each : ∀ v ∈ vars, inlining.letVar v) :
    IsInline (commaList (letVars vars)) := by
  rw [letVarsMap]
  exact inlineComma each

theorem inlineLocals {vars : List Variable} (each : ∀ v ∈ vars, inlining.var v) : IsInline (localDecls vars) := by
  rw [localDeclsSpaced]
  exact inlineSpaced fun v mem => (each v mem).2

theorem inlineBlocks {bs : List Block} (each : ∀ b ∈ bs, inlining.block b) : IsInline (blocks bs) := by
  rw [blocksSpaced]
  exact inlineSpaced each

theorem inlineTargets {ts : List Target} (each : ∀ t ∈ ts, inlining.target t) :
    IsInline (commaList (targets ts)) := by
  rw [targetsMap]
  exact inlineComma each

theorem inlineCalls {calls : List Call} (each : ∀ x ∈ calls, inlining.call x) :
    IsInline (List.intercalate [.text " | "] (callList calls)) := by
  rw [callListMap]
  exact inlineJoined (by decide) fun x mem => (each x mem).2

theorem inlineCmds {cs : List Cmd} (each : ∀ x ∈ cs, inlining.cmd x) : IsInline (cmds cs) := by
  rw [cmdsSpaced]
  exact inlineSpaced each

theorem inlineBased {map : Expr} (h : inlining.expr map) : IsInline (based map) := by
  simpa [based] using (show IsInline (expr map) from h)

theorem inlineApplied {op : Operator} {args : List Expr} (applied : Applied op args) (ofOp : every unbroken op)
    (each : ∀ e ∈ args, inlining.expr e) : IsInline (expr (.apply span op args)) := by
  have one (e : Expr) (mem : e ∈ args) : IsInline (expr e) := each e mem
  cases applied with
  | binary op left right =>
    have plain : '\n' ∉ op.symbol.toList := by cases op <;> simp [BinaryOp.symbol]
    simp [exprBinary, one left, one right, plain]
  | unary op operand =>
    have plain : '\n' ∉ op.symbol.toList := by cases op <;> simp [UnaryOp.symbol]
    simp [exprUnary, one operand, plain]
  | concat left right => simp [exprConcat, one left, one right]
  | call function args =>
    rw [exprCall]
    simp [inlineName ofOp, inlineComma one]
  | select map indexes =>
    obtain ⟨ofMap, ofIndexes⟩ := List.forall_mem_cons.mp one
    simp [exprSelect, inlineBased ofMap, inlineComma ofIndexes]
  | store map indexes value =>
    obtain ⟨ofMap, others⟩ := List.forall_mem_cons.mp one
    obtain ⟨ofIndexes, ofValue⟩ := List.forall_mem_append.mp others
    rw [exprStore]
    cases indexes with
    | nil => simp [inlineBased ofMap, commaList, ofValue]
    | cons first rest => simpa [inlineBased ofMap, ofValue] using inlineComma ofIndexes
  | ifThenElse condition thenPart elsePart =>
    simp [exprIfThenElse, one condition, one thenPart, one elsePart]
  | convert goal operand =>
    have plain : '\n' ∉ goal.keyword.toList := by cases goal <;> simp [Conversion.keyword]
    simp [exprConvert, one operand, plain]
  | coerce type operand =>
    have ofType : IsInline (ty type) := inlineTy type ofOp
    simp [exprCoerce, inlineBased (one operand (by simp)), ofType]
  | extract upper lower operand => simp [exprExtract, inlineBased (one operand (by simp))]

theorem inlineBraced {key : String} {params : List AttributeParam} (named : isWritten key)
    (ofStrings : ∀ content, .string content ∈ params → '\n' ∉ content.toList)
    (ofExprs : ∀ e, .expr e ∈ params → inlining.expr e) : IsInline (braced ⟨key, params, span⟩) := by
  have inside : IsInline (commaList (attributeParams params)) := by
    rw [attributeParamsMap]
    refine inlineComma fun p mem => ?_
    cases p with
    | string content => simp [attributeParam, quotedText, ofStrings content mem]
    | expr e => exact ofExprs e mem
  cases params <;> simp [braced, inlineName named, inside]

theorem inlineWhere {o : Option Expr} (each : ∀ e ∈ o, inlining.expr e) : IsInline (optionalWhere o) := by
  cases o with
  | none => exact inlineNil
  | some e =>
    have one : IsInline (expr e) := each e rfl
    simp [optionalWhere, one]

theorem inlineBound {ps : List Ident} {vars : List Variable} (ofPs : every unbroken ps)
    (ofVars : ∀ v ∈ vars, inlining.var v) : IsInline (optionalTypeParams ps ++
      (if ps.isEmpty || vars.isEmpty then [] else [Piece.space]) ++ commaList (boundVariables vars)) := by
  have declared : IsInline (commaList (boundVariables vars)) := by
    rw [boundVariablesMap]
    exact inlineComma fun v mem => (ofVars v mem).1
  cases h : (ps.isEmpty || vars.isEmpty) <;> simp [inlineTypeParams ofPs, declared]

theorem inlineCallParams {isAsync isFree : Bool} {callee : Ident} {ins : List Expr} {outs : List Ident}
    {as : List Attribute} (ofCallee : every unbroken callee) (ofIns : ∀ e ∈ ins, inlining.expr e)
    (ofOuts : every unbroken outs) : IsInline (callParams ⟨isAsync, isFree, callee, ins, outs, as, span⟩) := by
  have named : IsInline (name callee.name) := inlineName ofCallee
  cases h : outs.isEmpty <;> simp [callParams, h, named, inlineNames ofOuts, inlineExprs ofIns]

end Nodes

theorem plainBinder (binder : Binder) : '\n' ∉ binder.keyword.toList := by
  cases binder <;> simp [Binder.keyword]

theorem plainBrace (positive : Bool) : '\n' ∉ (if positive then "\x7b" else "\x7b:nopats ").toList := by
  cases positive <;> simp

theorem plainCallWords (isAsync isFree : Bool) :
    '\n' ∉ ((if isAsync then "async " else "") ++ (if isFree then "free " else "") ++ "call ").toList := by
  cases isAsync <;> cases isFree <;> simp

theorem inliningFollows : inlining.Follow unbroken where
  literal here := by
    obtain ⟨_, plain⟩ := here
    simpa [inlining, expr] using plainLiteral plain
  name _ named := inlineName named
  old ofBody := by simpa [inlining, expr] using ofBody
  apply here ofOp ofArgs := inlineApplied (appliedOfFits here.1) ofOp ofArgs
  bind _ ofPs ofVars ofAs ofTs ofBody := by
    have bound := inlineBound ofPs ofVars
    simp only [inlineAppend] at bound
    simp only [inlining, expr, inlineAppend, inlineCons, inlineNil, bound, inlineAttributes ofAs, inlineTriggers ofTs]
    simpa [inlining, plainBinder] using ofBody
  letIn _ ofVars ofValues ofAs ofBody := by
    simpa [inlining, expr, inlineLetVars ofVars, inlineExprs ofValues, inlineAttributes ofAs] using ofBody
  code _ ofLocals ofBlocks := by simp [inlining, expr, inlineLocals ofLocals, inlineBlocks ofBlocks]
  attr here named ofParams := inlineBraced named here ofParams
  trigger _ ofExprs := by simpa [inlining, trigger, inlineExprs ofExprs] using plainBrace _
  var named ofType ofWhere ofAs := by
    have ofTy := inlineTy _ ofType
    simp [inlining, boundVariable, variableDecl, inlineName named, ofTy, inlineWhere ofWhere, inlineAttributes ofAs]
  letVar named ofAs := by simp [inlining, letVar, inlineName named, inlineAttributes ofAs]
  targetName named := inlineName named
  element ofMap ofIndexes := by simpa [inlining, target, inlineExprs ofIndexes] using ofMap
  call ofCallee ofIns ofOuts ofAs := ⟨inlineAttributes ofAs, inlineCallParams ofCallee ofIns ofOuts⟩
  assign _ ofTargets ofValues := by simp [inlining, cmd, inlineTargets ofTargets, inlineExprs ofValues]
  assert ofAs ofE := by simpa [inlining, cmd, inlineAttributes ofAs] using ofE
  assume ofAs ofE := by simpa [inlining, cmd, inlineAttributes ofAs] using ofE
  havoc _ ofVars := by simp [inlining, cmd, inlineNames ofVars]
  callCmd ofX := by
    simp only [inlining, cmd, inlineAppend, inlineCons, textChars, plainCallWords]
    simpa [inlining] using ofX
  parallel _ ofCalls ofAs := by simp [inlining, cmd, inlineAttributes ofAs, inlineCalls ofCalls]
  yield := by simp [inlining, cmd]
  goto ofLabels := by simp [inlining, transfer, transferLabels, inlineNames ofLabels]
  leave := by simp [inlining, transfer]
  leaveWith ofValue := by simpa [inlining, transfer] using ofValue
  block _ named ofCmds ofTransfer := by
    simpa [inlining, block, inlineName named, inlineCmds ofCmds] using ofTransfer

theorem inlineExpr {e : Expr} (pass : every unbroken e) : IsInline (expr e) := inliningFollows.ofExpr e pass

theorem inlineAttributeList {as : List Attribute} (pass : every unbroken as) : IsInline (attributes as) :=
  inlineAttributes fun a mem => inliningFollows.ofAttribute a (pass a mem)

theorem inlineVariable {v : Variable} (pass : every unbroken v) : IsInline (variableDecl v) :=
  (inliningFollows.ofVariable v pass).2

theorem inlineOptionalWhere {o : Option Expr} (pass : every unbroken o) : IsInline (optionalWhere o) :=
  inlineWhere fun e mem => inlineExpr (pass e mem)

theorem inlineClause {keyword : String} (plain : '\n' ∉ keyword.toList) {c : Clause} (pass : every unbroken c) :
    IsInline (clause keyword c) := by
  have opens : '\n' ∉ (if c.free then "free " else "").toList := by cases c.free <;> decide
  simp [clause, opens, plain, inlineAttributeList pass.2, inlineExpr pass.1]

theorem inlineGuard {o : Option Expr} (pass : every unbroken o) : IsInline (guard o) := by
  cases o with
  | none => simp [guard]
  | some e => simp [guard, inlineExpr (pass e rfl)]

theorem inlineBreakLabel {label : Option String} (pass : every unbroken label) : IsInline (breakLabel label) := by
  cases label with
  | none => exact inlineNil
  | some n => simp [breakLabel, inlineName (pass n rfl)]

theorem plainUnique (unique : Bool) : '\n' ∉ (if unique then "unique " else "").toList := by cases unique <;> decide

theorem inlineExtension {parents : List Parent} (pass : every unbroken parents) (complete : Bool) :
    IsInline (extension parents complete) := by
  have listed : IsInline (commaList (parents.map parent)) := inlineComma fun p mem => by
    simp [parent, plainUnique, inlineName (pass p mem)]
  cases complete <;> cases none : parents.isEmpty <;> simp [extension, none, listed]

theorem inlineTyped {n : Option String} {type : Ty} (ofName : every unbroken n) (ofType : every unbroken type) :
    IsInline (typed n type) := by
  cases n with
  | none => simpa [typed] using inlineTy type ofType
  | some n => simp [typed, inlineName (ofName n rfl), inlineTy type ofType]

theorem inlineFunctionFormal {f : Formal} (pass : every unbroken f) : IsInline (functionFormal f) := by
  simp [functionFormal, inlineAttributeList pass.2.2.2, inlineTyped pass.1 pass.2.1]

theorem inlineFormals {fs : List Formal} (pass : every unbroken fs) (withAttributes : Bool) :
    IsInline (commaList (fs.map (formal withAttributes))) :=
  inlineComma fun f mem => by
    obtain ⟨named, ofType, ofWhere, ofAs⟩ := pass f mem
    cases withAttributes <;>
      simp [formal, inlineAttributeList ofAs, inlineTyped named ofType, inlineOptionalWhere ofWhere]

theorem inlineSignature {n : String} {params : List Ident} {ins outs : List Formal} (withAttributes : Bool)
    (named : isWritten n) (ofParams : every unbroken params) (ofIns : every unbroken ins)
    (ofOuts : every unbroken outs) : IsInline (signature withAttributes n params ins outs) := by
  cases none : outs.isEmpty <;> simp [signature, none, inlineName named, inlineTypeParams ofParams,
    inlineFormals ofIns withAttributes, inlineFormals ofOuts withAttributes]

theorem inlineFunction {f : Function} (pass : every unbroken f) : IsInline (function f) := by
  obtain ⟨named, ofParams, ofFormals, ofResult, ofBody, ofAs⟩ := pass
  have formals : IsInline (commaList (f.formals.map functionFormal)) :=
    inlineComma fun x mem => inlineFunctionFormal (ofFormals x mem)
  have result : IsInline (functionResult f.result) := by
    have alone : IsInline (ty f.result.type) := inlineTy _ ofResult.2.1
    rw [functionResult]
    split <;> simp [inlineFunctionFormal ofResult, alone]
  rw [function]
  cases same : f.body with
  | none => simp [inlineAttributeList ofAs, inlineName named, inlineTypeParams ofParams, formals, result]
  | some e => simp [inlineAttributeList ofAs, inlineName named, inlineTypeParams ofParams, formals, result,
      inlineExpr (ofBody e same)]

theorem inlineConstant {c : Constant} (pass : every unbroken c) : IsInline (constant c) := by
  obtain ⟨named, ofType, ofParents, ofAs⟩ := pass
  have alone : IsInline (ty c.type) := inlineTy _ ofType
  rw [constant]
  cases same : c.parents with
  | none => simp [inlineAttributeList ofAs, plainUnique, inlineName named, alone]
  | some parents => simp [inlineAttributeList ofAs, plainUnique, inlineName named, alone,
      inlineExtension (ofParents parents same)]

theorem inlineTypeConstructor {t : TypeConstructor} (pass : every unbroken t) : IsInline (typeConstructor t) := by
  have places : IsInline ((List.range t.arity).map fun i => .text (" _" ++ toString i)) := by
    rw [← List.flatMap_singleton' (List.map _ _), List.flatMap_map]
    exact inlineEach fun i _ => by simp
  simpa [typeConstructor, inlineAttributeList pass.2, inlineName pass.1] using places

theorem inlineTypeSynonym {t : TypeSynonym} (pass : every unbroken t) : IsInline (typeSynonym t) := by
  obtain ⟨named, ofParams, ofBody, ofAs⟩ := pass
  have params : IsInline (t.params.flatMap fun p => .space :: name p.name) :=
    inlineEach fun p mem => by simp [inlineName (ofParams p mem)]
  have alone : IsInline (ty t.body) := inlineTy _ ofBody
  simp [typeSynonym, inlineAttributeList ofAs, inlineName named, params, alone]

theorem inlineAxiom {a : Axiom} (pass : every unbroken a) : IsInline (axiomDecl a) := by
  simp [axiomDecl, inlineAttributeList pass.2, inlineExpr pass.1]

end Boogie.Layout
