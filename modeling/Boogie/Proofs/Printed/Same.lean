import Boogie.Proofs.Printed.Nodes
import Boogie.Proofs.Tree.Induction
import Boogie.Proofs.Tree.Spans

/-! Spans are not printed. Well-formed trees that are the same but for their spans are printed the same. -/
namespace Boogie.Layout

section Lists

variable {α β : Type} [Spanned α] {f : Span → Span} {as : List α} {print : α → β}

theorem sameMap (each : ∀ a ∈ as, print (respan f a) = print a) : (respan f as).map print = as.map print := by
  rw [respanList, List.map_map]
  exact List.map_congr_left each

theorem sameSpaced {print : α → List Piece} (each : ∀ a ∈ as, print (respan f a) = print a) :
    spaced print (respan f as) = spaced print as := by
  induction as with
  | nil => rfl
  | cons a rest ih =>
    obtain ⟨first, others⟩ := List.forall_mem_cons.mp each
    rw [respanCons, spacedCons, spacedCons, first, ih others]

theorem sameFlat {print : α → List β} (each : ∀ a ∈ as, print (respan f a) = print a) :
    (respan f as).flatMap print = as.flatMap print := by
  rw [List.flatMap, List.flatMap, sameMap each]

@[simp] theorem respanIsEmpty : (respan f as).isEmpty = as.isEmpty := by cases as <;> rfl

end Lists

section Types

variable (f : Span → Span)

@[simp] theorem sameNames (ns : List Ident) : names (respan f ns) = names ns := by
  rw [names, sameMap fun _ _ => rfl, names]

@[simp] theorem sameOptionalTypeParams (ps : List Ident) : optionalTypeParams (respan f ps) = optionalTypeParams ps := by
  simp [optionalTypeParams, typeParams]

theorem sameCompound (t : Ty) : isCompound (respan f t) = isCompound t := by
  cases t with
  | named span n args => simp [isCompound]
  | map span ps args result => simp [isCompound]
  | _ => rfl

mutual

theorem sameTy : ∀ t : Ty, ty (respan f t) = ty t
  | .basic _ _ => rfl
  | .bitVector _ _ => rfl
  | .param _ _ => rfl
  | .named _ n args => by
    have ofArgs : (respan f args).flatMap tyArgument = args.flatMap tyArgument :=
      sameFlat fun t mem => by rw [tyArgument, sameTys args t mem, sameCompound, tyArgument]
    rw [Ty.respanNamed, ty, ty, tyArgsFlat, tyArgsFlat, ofArgs]
  | .map _ ps args result => by
    have ofArgs : (respan f args).map ty = args.map ty := sameMap (sameTys args)
    rw [Ty.respanMap, ty, ty, tysMap, tysMap, ofArgs, sameTy result, sameOptionalTypeParams]

theorem sameTys : ∀ ts : List Ty, ∀ t ∈ ts, ty (respan f t) = ty t
  | [] => nofun
  | t :: rest => List.forall_mem_cons.mpr ⟨sameTy t, sameTys rest⟩

end

end Types

def alikePrinted (f : Span → Span) : Facts where
  expr e := expr (respan f e) = expr e
  attr a := braced (respan f a) = braced a
  trigger t := trigger (respan f t) = trigger t
  var v := boundVariable (respan f v) = boundVariable v ∧ variableDecl (respan f v) = variableDecl v
  letVar v := letVar (respan f v) = letVar v
  target t := target (respan f t) = target t
  call x := callAttributes (respan f x) = callAttributes x ∧ callParams (respan f x) = callParams x
  cmd x := cmd (respan f x) = cmd x
  transfer t := transfer (respan f t) = transfer t
  block b := block (respan f b) = block b

section Nodes

variable {f : Span → Span}

theorem samePrecedence (e : Expr) : precedence (respan f e) = precedence e := by
  cases e with
  | apply span op args => rw [Expr.respanApply]; cases op <;> rfl
  | literal | name | old => rfl
  | _ => simp [precedence]

theorem sameOtherLogical (op : BinaryOp) (e : Expr) : isOtherLogical op (respan f e) = isOtherLogical op e := by
  cases e with
  | apply span other args =>
    rw [Expr.respanApply]
    cases other with
    | binary other =>
      rcases args with _ | ⟨left, _ | ⟨right, _ | ⟨more, rest⟩⟩⟩ <;> try rfl
      cases op <;> first | rfl | (cases other <;> rfl)
    | _ => rfl
  | literal | name | old => rfl
  | _ => simp [isOtherLogical, Expr.asBinary]

theorem sameWrapsLeft (op : BinaryOp) (e : Expr) : wrapsLeft op (respan f e) = wrapsLeft op e := by
  rw [wrapsLeft, wrapsLeft, samePrecedence, sameOtherLogical]

theorem sameWrapsRight (op : BinaryOp) (e : Expr) : wrapsRight op (respan f e) = wrapsRight op e := by
  rw [wrapsRight, wrapsRight, samePrecedence]

theorem sameBased {e : Expr} (h : expr (respan f e) = expr e) : based (respan f e) = based e := by
  rw [based, based, samePrecedence, h]

theorem sameApplied {span : Span} {op : Operator} {args : List Expr} (applied : Applied op args)
    (each : ∀ e ∈ args, expr (respan f e) = expr e) :
    expr (.apply (f span) (respan f op) (respan f args)) = expr (.apply span op args) := by
  cases applied with
  | binary op left right =>
    show expr (.apply _ (.binary op) [respan f left, respan f right]) = _
    rw [exprBinary, exprBinary, sameWrapsLeft, sameWrapsRight, each left (by simp), each right (by simp)]
  | unary op operand =>
    show expr (.apply _ (.unary op) [respan f operand]) = _
    rw [exprUnary, exprUnary, samePrecedence, each operand (by simp)]
  | concat left right =>
    show expr (.apply _ .concat [respan f left, respan f right]) = _
    rw [exprConcat, exprConcat, samePrecedence, samePrecedence, each left (by simp), each right (by simp)]
  | call function args =>
    show expr (.apply _ (.call function) (respan f args)) = _
    rw [exprCall, exprCall, sameMap each]
  | select map indexes =>
    obtain ⟨ofMap, ofIndexes⟩ := List.forall_mem_cons.mp each
    show expr (.apply _ (.select _) (respan f map :: respan f indexes)) = _
    rw [exprSelect, exprSelect, sameBased ofMap, sameMap ofIndexes]
  | store map indexes value =>
    obtain ⟨ofMap, others⟩ := List.forall_mem_cons.mp each
    obtain ⟨ofIndexes, ofValue⟩ := List.forall_mem_append.mp others
    have ofLast := List.forall_mem_singleton.mp ofValue
    rw [respanCons, respanAppend]
    show expr (.apply _ (.store _) (respan f map :: (respan f indexes ++ [respan f value]))) = _
    rw [exprStore, exprStore, sameBased ofMap, sameMap ofIndexes, ofLast, respanIsEmpty]
  | ifThenElse condition thenPart elsePart =>
    show expr (.apply _ .ifThenElse [respan f condition, respan f thenPart, respan f elsePart]) = _
    rw [exprIfThenElse, exprIfThenElse, each condition (by simp), each thenPart (by simp), each elsePart (by simp)]
  | convert goal operand =>
    show expr (.apply _ (.convert goal) [respan f operand]) = _
    rw [exprConvert, exprConvert, each operand (by simp)]
  | coerce type operand =>
    show expr (.apply _ (.coerce (respan f type)) [respan f operand]) = _
    rw [exprCoerce, exprCoerce, sameBased (each operand (by simp)), sameTy]
  | extract upper lower operand =>
    show expr (.apply _ (.extract upper lower) [respan f operand]) = _
    rw [exprExtract, exprExtract, sameBased (each operand (by simp))]

theorem sameAttributes {as : List Attribute} (each : ∀ a ∈ as, (alikePrinted f).attr a) :
    attributes (respan f as) = attributes as := by
  rw [attributesSpaced, attributesSpaced, sameSpaced each]

theorem sameExprs {es : List Expr} (each : ∀ e ∈ es, (alikePrinted f).expr e) : exprs (respan f es) = exprs es := by
  rw [exprsMap, exprsMap, sameMap each]

theorem sameParams {params : List AttributeParam} (each : ∀ e, .expr e ∈ params → (alikePrinted f).expr e) :
    attributeParams (respan f params) = attributeParams params := by
  rw [attributeParamsMap, attributeParamsMap]
  refine sameMap fun p mem => ?_
  cases p with
  | string content => rfl
  | expr e => exact each e mem

theorem sameWhere {o : Option Expr} (each : ∀ e ∈ o, (alikePrinted f).expr e) :
    optionalWhere (respan f o) = optionalWhere o := by
  cases o with
  | none => rfl
  | some e => rw [respanSome, optionalWhere, optionalWhere, each e rfl]

end Nodes

theorem sameFollows (f : Span → Span) : (alikePrinted f).Follow wellFormed where
  literal _ := rfl
  name _ _ := rfl
  old ofBody := by
    show expr (respan f (Expr.old _ _)) = _
    rw [Expr.respanOld, expr, ofBody, expr]
  apply here _ ofArgs := by
    show expr (respan f (Expr.apply _ _ _)) = _
    rw [Expr.respanApply]
    exact sameApplied (appliedOfFits here) ofArgs
  bind _ _ ofVars ofAs ofTs ofBody := by
    show expr (respan f (Expr.bind _ _ _ _ _ _ _)) = _
    rw [Expr.respanBind, expr, expr, boundVariablesMap, sameMap fun v mem => (ofVars v mem).1, ← boundVariablesMap,
      sameOptionalTypeParams, respanIsEmpty, respanIsEmpty, sameAttributes ofAs, triggersSpaced, sameSpaced ofTs,
      ← triggersSpaced, ofBody]
  letIn _ ofVars ofValues ofAs ofBody := by
    show expr (respan f (Expr.letIn _ _ _ _ _)) = _
    rw [Expr.respanLetIn, expr, expr, letVarsMap, sameMap ofVars, ← letVarsMap, sameExprs ofValues,
      sameAttributes ofAs, ofBody]
  code _ ofLocals ofBlocks := by
    show expr (respan f (Expr.code _ _ _)) = _
    rw [Expr.respanCode, expr, expr, localDeclsSpaced, sameSpaced fun v mem => (ofLocals v mem).2, ← localDeclsSpaced,
      blocksSpaced, sameSpaced ofBlocks, ← blocksSpaced]
  attr _ _ ofParams := by
    show braced (respan f (Attribute.mk _ _ _)) = _
    rw [Attribute.respanMk, braced, braced, respanIsEmpty, sameParams ofParams]
  trigger _ ofExprs := by
    show trigger (respan f (Trigger.mk _ _ _)) = _
    rw [Trigger.respanMk, trigger, trigger, sameExprs ofExprs]
  var _ _ ofWhere ofAs := by
    constructor
    · rw [Variable.respanMk, boundVariable, boundVariable, sameAttributes ofAs, sameTy]
    · rw [Variable.respanMk, variableDecl, variableDecl, sameAttributes ofAs, sameTy, sameWhere ofWhere]
  letVar _ ofAs := by
    show letVar (respan f (LetVar.mk _ _ _)) = _
    rw [LetVar.respanMk, letVar, letVar, sameAttributes ofAs]
  targetName _ := rfl
  element ofMap ofIndexes := by
    show target (respan f (Target.element _ _ _)) = _
    rw [Target.respanElement, target, target, ofMap, sameExprs ofIndexes]
  call _ ofIns _ ofAs := by
    constructor
    · rw [Call.respanMk, callAttributes, callAttributes, sameAttributes ofAs]
    · rw [Call.respanMk, callParams, callParams, respanIsEmpty, sameNames, sameExprs ofIns, Ident.respanName]
  assign _ ofTargets ofValues := by
    show cmd (respan f (Cmd.assign _ _ _)) = _
    rw [Cmd.respanAssign, cmd, cmd, targetsMap, sameMap ofTargets, ← targetsMap, sameExprs ofValues]
  assert ofAs ofE := by
    show cmd (respan f (Cmd.assert _ _ _)) = _
    rw [Cmd.respanAssert, cmd, cmd, sameAttributes ofAs, ofE]
  assume ofAs ofE := by
    show cmd (respan f (Cmd.assume _ _ _)) = _
    rw [Cmd.respanAssume, cmd, cmd, sameAttributes ofAs, ofE]
  havoc _ _ := by
    show cmd (respan f (Cmd.havoc _ _)) = _
    rw [Cmd.respanHavoc, cmd, cmd, sameNames]
  callCmd ofX := by
    rename_i x
    show cmd (respan f (Cmd.call _ x)) = _
    have words : (respan f x).isAsync = x.isAsync ∧ (respan f x).isFree = x.isFree := by cases x; exact ⟨rfl, rfl⟩
    rw [Cmd.respanCall, cmd, cmd, ofX.1, ofX.2, words.1, words.2]
  parallel _ ofCalls ofAs := by
    show cmd (respan f (Cmd.parallel _ _ _)) = _
    rw [Cmd.respanParallel, cmd, cmd, callListMap, sameMap fun x mem => (ofCalls x mem).2, ← callListMap,
      sameAttributes ofAs]
  yield := rfl
  goto _ := by
    show transfer (respan f (Transfer.goto _ _)) = _
    rw [Transfer.respanGoto, transfer, transfer, transferLabels, sameNames, transferLabels]
  leave := rfl
  leaveWith ofValue := by
    show transfer (respan f (Transfer.leaveWith _ _)) = _
    rw [Transfer.respanLeaveWith, transfer, transfer, ofValue]
  block _ _ ofCmds ofTransfer := by
    show block (respan f (Block.mk _ _ _ _)) = _
    rw [Block.respanMk, block, block, cmdsSpaced, sameSpaced ofCmds, ← cmdsSpaced, ofTransfer]

section Statements

variable {f : Span → Span}

theorem sameExpr {e : Expr} (pass : every wellFormed e) : expr (respan f e) = expr e :=
  (sameFollows f).ofExpr e pass

theorem sameAttributeList {as : List Attribute} (pass : every wellFormed as) :
    attributes (respan f as) = attributes as :=
  sameAttributes fun a mem => (sameFollows f).ofAttribute a (pass a mem)

theorem sameVariable {v : Variable} (pass : every wellFormed v) : variableDecl (respan f v) = variableDecl v :=
  ((sameFollows f).ofVariable v pass).2

theorem sameOptionalWhere {o : Option Expr} (pass : every wellFormed o) :
    optionalWhere (respan f o) = optionalWhere o := sameWhere fun e mem => sameExpr (pass e mem)

theorem sameClauses (depth : Nat) (keyword : String) {cs : List Clause} (pass : every wellFormed cs) :
    clauseLines depth keyword (respan f cs) = clauseLines depth keyword cs := by
  refine sameFlat fun c mem => ?_
  obtain ⟨ofCondition, ofAs⟩ := pass c mem
  obtain ⟨free, condition, as, span⟩ := c
  rw [Clause.respanMk, clause, clause, sameAttributeList ofAs, sameExpr ofCondition]

theorem sameGuard {o : Option Expr} (pass : every wellFormed o) : guard (respan f o) = guard o := by
  cases o with
  | none => rfl
  | some e => rw [respanSome, guard, guard, sameExpr (pass e rfl)]

theorem sameInvariants {invariants : List Clause} (pass : every wellFormed invariants) (depth : Nat) :
    invariantLines depth (respan f invariants) = invariantLines depth invariants := by
  rw [invariantLines, invariantLines, respanIsEmpty, sameClauses _ _ pass]

theorem sameCmds {cs : List Cmd} (pass : every wellFormed cs) (depth : Nat) :
    cmdLines depth (respan f cs) = cmdLines depth cs :=
  sameFlat fun x mem => by rw [(sameFollows f).ofCmd x (pass x mem)]

end Statements

def stmtsAlikePrinted (f : Span → Span) : StmtFacts where
  stmts l := ∀ depth, stmts depth (respan f l) = stmts depth l ∧ nested depth (respan f l) = nested depth l
  block b := ∀ depth, bigBlock depth (respan f b) = bigBlock depth b
  tail t := ∀ depth, tail depth (respan f t) = tail depth t
  branch x := ∀ depth, ifCmd depth (respan f x) = ifCmd depth x
  other b := ∀ depth, elseBranch depth (respan f b) = elseBranch depth b
  loop x := ∀ depth, whileCmd depth (respan f x) = whileCmd depth x

theorem stmtsSameFollow (f : Span → Span) : (stmtsAlikePrinted f).Follow wellFormed where
  stmts _ ofBlocks depth := by
    constructor
    · rw [StmtList.respanMk, stmts, stmts, bigBlocksFlat, sameFlat fun b mem => ofBlocks b mem depth, ← bigBlocksFlat]
    · rw [StmtList.respanMk, nested, nested, bigBlocksFlat, sameFlat fun b mem => ofBlocks b mem (depth + 1),
        ← bigBlocksFlat]
  block named ofCmds ofTail depth := by
    rename_i tail
    have last : optionalTail depth (respan f tail) = optionalTail depth tail := by
      cases tail with
      | none => rfl
      | some t => rw [respanSome, optionalTail, optionalTail, ofTail t rfl depth]
    rw [BigBlock.respanMk, bigBlock, bigBlock, sameCmds ofCmds, last]
  branchTail ofX := ofX
  loopTail ofX := ofX
  leave _ _ := rfl
  transfer _ ofX _ := (sameFollows f).ofTransfer _ ofX
  branch ofGuard ofThen ofElse depth := by
    rename_i elseBranch _
    have last : optionalElse depth (respan f elseBranch) = optionalElse depth elseBranch := by
      cases elseBranch with
      | none => rfl
      | some b => rw [respanSome, optionalElse, optionalElse, ofElse b rfl depth]
    rw [IfCmd.respanMk, ifCmd, ifCmd, sameGuard ofGuard, (ofThen depth).2, last]
  elseIf ofX := ofX
  elseBlock ofBody depth := (ofBody depth).2
  loop ofGuard ofInvariants ofBody depth := by
    rw [WhileCmd.respanMk, whileCmd, whileCmd, sameGuard ofGuard, sameInvariants ofInvariants, (ofBody depth).2]

section Declarations

variable {f : Span → Span}

theorem sameTyped (n : Option String) (type : Ty) : typed n (respan f type) = typed n type := by
  cases n <;> simp only [typed, sameTy]

theorem sameParents (parents : List Parent) (complete : Bool) :
    extension (respan f parents) complete = extension parents complete := by
  rw [extension, extension, respanIsEmpty, sameMap fun _ _ => rfl]

theorem sameFunctionFormal {x : Formal} (pass : every wellFormed x) : functionFormal (respan f x) = functionFormal x := by
  obtain ⟨n, type, whereClause, incoming, as, span⟩ := x
  rw [Formal.respanMk, functionFormal, functionFormal, sameAttributeList pass.2.2.2, sameTyped]

theorem sameFunctionResult {x : Formal} (pass : every wellFormed x) : functionResult (respan f x) = functionResult x := by
  have whole := sameFunctionFormal (f := f) pass
  obtain ⟨n, type, whereClause, incoming, as, span⟩ := x
  rw [Formal.respanMk] at whole ⊢
  rw [functionResult, functionResult, whole, respanIsEmpty, sameTy]

theorem sameFormals {withAttributes : Bool} {fs : List Formal} (pass : every wellFormed fs) :
    (respan f fs).map (formal withAttributes) = fs.map (formal withAttributes) := by
  refine sameMap fun x mem => ?_
  obtain ⟨_, _, ofWhere, ofAs⟩ := pass x mem
  obtain ⟨n, type, whereClause, incoming, as, span⟩ := x
  rw [Formal.respanMk, formal, formal, sameAttributeList ofAs, sameOptionalWhere ofWhere, sameTyped]

theorem sameSignature {n : String} {params : List Ident} {ins outs : List Formal} (withAttributes : Bool)
    (ofIns : every wellFormed ins) (ofOuts : every wellFormed outs) :
    signature withAttributes n (respan f params) (respan f ins) (respan f outs) =
      signature withAttributes n params ins outs := by
  rw [signature, signature, sameOptionalTypeParams, respanIsEmpty, sameFormals ofIns, sameFormals ofOuts]

theorem sameBody {locals : List Variable} {l : StmtList} (ofLocals : every wellFormed locals)
    (pass : every wellFormed l) (depth : Nat) : body depth (respan f locals) (respan f l) = body depth locals l := by
  have declared : ((respan f locals).flatMap fun v => line (depth + 1) (variableDecl v)) =
      locals.flatMap fun v => line (depth + 1) (variableDecl v) :=
    sameFlat fun v mem => by rw [sameVariable (ofLocals v mem)]
  rw [body, body, declared, ((stmtsSameFollow f).ofStmts l pass (depth + 1)).1]

theorem sameDeclBody {d : Decl} (pass : every wellFormed d) (depth : Nat) :
    declBody depth (respan f d) = declBody depth d := by
  have inside := pass.2
  cases d with
  | constant c =>
    obtain ⟨n, type, unique, parents, complete, as, span⟩ := c
    rw [Decl.respanConstant, Constant.respanMk, declBody, declBody, constant, constant, sameAttributeList inside.2.2.2,
      sameTy]
    cases parents with
    | none => rfl
    | some parents => simp only [respanSome, sameParents]
  | typeConstructor t =>
    obtain ⟨n, arity, as, span⟩ := t
    rw [Decl.respanTypeConstructor, TypeConstructor.respanMk, declBody, declBody, typeConstructor, typeConstructor,
      sameAttributeList inside.2]
  | typeSynonym t =>
    obtain ⟨_, _, _, ofAs⟩ := inside
    obtain ⟨n, params, body, as, span⟩ := t
    have ofParams : ((respan f params).flatMap fun p => .space :: name p.name) =
        params.flatMap fun p => .space :: name p.name := sameFlat fun _ _ => rfl
    rw [Decl.respanTypeSynonym, TypeSynonym.respanMk, declBody, declBody, typeSynonym, typeSynonym,
      sameAttributeList ofAs, ofParams, sameTy]
  | function x =>
    obtain ⟨_, _, ofFormals, ofResult, ofBody, ofAs⟩ := inside
    obtain ⟨n, params, formals, result, body, as, span⟩ := x
    have ofAll : (respan f formals).map functionFormal = formals.map functionFormal :=
      sameMap fun x mem => sameFunctionFormal (ofFormals x mem)
    rw [Decl.respanFunction, Function.respanMk, declBody, declBody, function, function, sameAttributeList ofAs,
      sameOptionalTypeParams, ofAll, sameFunctionResult ofResult]
    cases body with
    | none => rfl
    | some e => simp only [respanSome, sameExpr (ofBody e rfl)]
  | axiomatic a =>
    obtain ⟨condition, as, span⟩ := a
    rw [Decl.respanAxiomatic, Axiom.respanMk, declBody, declBody, axiomDecl, axiomDecl, sameAttributeList inside.2,
      sameExpr inside.1]
  | global v => exact sameVariable inside
  | procedure p =>
    obtain ⟨_, _, ofIns, ofOuts, ofRequires, _, ofEnsures, ofAs⟩ := inside
    obtain ⟨n, params, ins, outs, requires, modifies, ensures, as, span⟩ := p
    rw [Decl.respanProcedure, Procedure.respanMk, declBody, declBody, procedure, procedure, sameAttributeList ofAs,
      sameSignature true ofIns ofOuts, sameClauses _ _ ofRequires, sameClauses _ _ ofEnsures, respanIsEmpty, sameNames]
  | implementation i =>
    obtain ⟨_, _, ofIns, ofOuts, ofLocals, ofBody, ofAs⟩ := inside
    obtain ⟨n, params, ins, outs, locals, body, as, span⟩ := i
    rw [Decl.respanImplementation, Implementation.respanMk, declBody, declBody, implementation, implementation,
      sameAttributeList ofAs, sameSignature false ofIns ofOuts, sameBody ofLocals ofBody]

theorem sameStandsApart (d : Decl) : standsApart (respan f d) = standsApart d := by
  cases d with
  | function x => cases body : x.body <;> simp [standsApart, respan, body, Decl.withSpans]
  | _ => rfl

theorem sameDecl {d : Decl} (pass : every wellFormed d) : decl (respan f d) = decl d := by
  rw [decl, decl, sameDeclBody pass]

theorem sameDeclsAfter {ds : List Decl} (pass : every wellFormed ds) (apart : Bool) :
    declsAfter apart (respan f ds) = declsAfter apart ds := by
  induction ds generalizing apart with
  | nil => rfl
  | cons d rest ih =>
    obtain ⟨first, others⟩ := List.forall_mem_cons.mp pass
    rw [respanCons, declsAfter, declsAfter, sameStandsApart, sameDecl first, ih others]

theorem sameProgram {p : Program} (pass : every wellFormed p) : program (respan f p) = program p := by
  obtain ⟨ds⟩ := p
  cases ds with
  | nil => rfl
  | cons d rest =>
    obtain ⟨first, others⟩ := List.forall_mem_cons.mp pass
    rw [Program.respanMk, program, program, respanCons, decls, decls, sameStandsApart, sameDecl first,
      sameDeclsAfter others]

end Declarations

end Boogie.Layout
