import Boogie.Proofs.Parens.Sketch

/-! The sketch of each node. It has the pieces that the node is printed as, and spans make no difference to it. -/
namespace Boogie.Layout.Sketch

theorem exprsMap (es : List Expr) : exprs es = es.map expr := by
  induction es with
  | nil => rfl
  | cons e rest ih => rw [exprs, ih, List.map_cons]

theorem operandsMap (es : List Expr) : operands es = es.map fun e => (e, expr e) := by
  induction es with
  | nil => rfl
  | cons e rest ih => rw [operands, ih, List.map_cons]

theorem operandsSnd (es : List Expr) : (operands es).map Prod.snd = es.map expr := by
  rw [operandsMap, List.map_map]
  rfl

theorem attributeParamsMap (ps : List AttributeParam) : attributeParams ps = ps.map attributeParam := by
  induction ps with
  | nil => rfl
  | cons p rest ih => rw [attributeParams, ih, List.map_cons]

theorem boundVariablesMap (vs : List Variable) : boundVariables vs = vs.map boundVariable := by
  induction vs with
  | nil => rfl
  | cons v rest ih => rw [boundVariables, ih, List.map_cons]

theorem letVarsMap (vs : List LetVar) : letVars vs = vs.map letVar := by
  induction vs with
  | nil => rfl
  | cons v rest ih => rw [letVars, ih, List.map_cons]

theorem targetsMap (ts : List Target) : targets ts = ts.map target := by
  induction ts with
  | nil => rfl
  | cons t rest ih => rw [targets, ih, List.map_cons]

theorem callListMap (xs : List Call) : callList xs = xs.map callParams := by
  induction xs with
  | nil => rfl
  | cons x rest ih => rw [callList, ih, List.map_cons]

def spaced {α : Type} (print : α → Sketch) (as : List α) : Sketch := row (as.map fun a => print a ++ space)

theorem spacedCons {α : Type} (print : α → Sketch) (a : α) (as : List α) :
    spaced print (a :: as) = print a ++ (space ++ spaced print as) := by
  rw [spaced, List.map_cons, rowCons, appendAssoc]
  rfl

theorem gistsSpaced {α : Type} (print : α → Sketch) (as : List α) :
    (spaced print as).gists.length = (as.map fun a => (print a).gists.length).sum := by
  induction as with
  | nil => rfl
  | cons a rest ih =>
    have none : space.gists = [] := rfl
    rw [spacedCons, gistsAppend, gistsAppend, none, List.nil_append, List.length_append, ih, List.map_cons, List.sum_cons]

theorem attributesSpaced (as : List Attribute) : attributes as = spaced braced as := by
  induction as with
  | nil => rfl
  | cons a rest ih => rw [attributes, ih, spacedCons]

theorem triggersSpaced (ts : List Trigger) : triggers ts = spaced trigger ts := by
  induction ts with
  | nil => rfl
  | cons t rest ih => rw [triggers, ih, spacedCons]

theorem localDeclsSpaced (vs : List Variable) : localDecls vs = spaced variableDecl vs := by
  induction vs with
  | nil => rfl
  | cons v rest ih => rw [localDecls, ih, spacedCons]

theorem cmdsSpaced (cs : List Cmd) : cmds cs = spaced cmd cs := by
  induction cs with
  | nil => rfl
  | cons c rest ih => rw [cmds, ih, spacedCons]

theorem blocksSpaced (bs : List Block) : blocks bs = spaced block bs := by
  induction bs with
  | nil => rfl
  | cons b rest ih => rw [blocks, ih, spacedCons]

section Applications

variable {span : Span}

theorem exprBinary (op : BinaryOp) (left right : Expr) :
    expr (.apply span (.binary op) [left, right]) =
      wrappedIf (wrapsLeft op left) (expr left) ++ (infixed op ++ wrappedIf (wrapsRight op right) (expr right)) := rfl

theorem exprUnary (op : UnaryOp) (operand : Expr) : expr (.apply span (.unary op) [operand]) =
    fixed op.symbol ++ wrappedIf (precedence operand < unaryPrecedence) (expr operand) := rfl

theorem exprConcat (left right : Expr) : expr (.apply span .concat [left, right]) =
    wrappedIf (precedence left < concatPrecedence) (expr left) ++
      (fixed " ++ " ++ wrappedIf (precedence right ≤ concatPrecedence) (expr right)) := rfl

theorem exprCall (function : String) (args : List Expr) :
    expr (.apply span (.call function) args) = name function ++ wrapped (commas (exprs args)) := by
  rw [exprsMap, ← operandsSnd]
  rfl

def based (map : Expr) : Sketch := wrappedIf (precedence map < atomPrecedence) (expr map)

theorem exprSelect {n : Nat} (map : Expr) (indexes : List Expr) :
    expr (.apply span (.select n) (map :: indexes)) = based map ++ (fixed "[" ++ (commas (exprs indexes) ++ fixed "]")) := by
  rw [exprsMap, ← operandsSnd]
  rfl

theorem exprStore {n : Nat} (map : Expr) (indexes : List Expr) (value : Expr) :
    expr (.apply span (.store n) (map :: (indexes ++ [value]))) =
      based map ++ (fixed "[" ++ (commas (exprs indexes) ++ (spaceUnless indexes.isEmpty ++
        (fixed ":= " ++ (expr value ++ fixed "]"))))) := by
  rw [expr, operandsMap, List.map_cons, List.map_append, exprsMap]
  cases indexes with
  | nil => rfl
  | cons first rest => simp [application, base, based, List.dropLast_cons_of_ne_nil, Function.comp_def]

theorem exprExtract (upper lower : Nat) (operand : Expr) :
    expr (.apply span (.extract upper lower) [operand]) = based operand ++ bounds upper lower := rfl

theorem exprIfThenElse (condition thenPart elsePart : Expr) :
    expr (.apply span .ifThenElse [condition, thenPart, elsePart]) = fixed "(if " ++ (expr condition ++
      (fixed " then " ++ (expr thenPart ++ (fixed " else " ++ (expr elsePart ++ fixed ")"))))) := rfl

theorem exprConvert (goal : Conversion) (operand : Expr) :
    expr (.apply span (.convert goal) [operand]) = fixed goal.keyword ++ wrapped (expr operand) := rfl

theorem exprCoerce (type : Ty) (operand : Expr) :
    expr (.apply span (.coerce type) [operand]) = wrapped (based operand ++ (fixed " : " ++ ty type)) := rfl

end Applications

@[simp] theorem piecesPlain (marks : List Mark) : (plain marks).pieces = marks.map Mark.piece := rfl

@[simp] theorem piecesFixed (s : String) [Terminals s] : (fixed s).pieces = [.text s] := rfl

@[simp] theorem piecesSpace : space.pieces = [.space] := rfl

@[simp] theorem piecesSpaceUnless (none : Bool) : (spaceUnless none).pieces = if none then [] else [.space] := by
  cases none <;> rfl

@[simp] theorem piecesName (n : String) : (name n).pieces = Layout.name n := rfl

@[simp] theorem piecesWrapped (S : Sketch) : (wrapped S).pieces = Layout.wrapped S.pieces := by simp [wrapped, Layout.wrapped]

@[simp] theorem piecesWrappedIf (b : Bool) (S : Sketch) : (wrappedIf b S).pieces = Layout.wrappedIf b S.pieces := by
  cases b with
  | true => exact piecesWrapped S
  | false => rfl

theorem piecesRow (parts : List Sketch) : (row parts).pieces = parts.flatMap pieces := by
  induction parts with
  | nil => rfl
  | cons S rest ih => rw [rowCons, piecesAppend, ih, List.flatMap_cons]

@[simp] theorem piecesJoined (mark : Sketch) (parts : List Sketch) :
    (joined mark parts).pieces = List.intercalate mark.pieces (parts.map pieces) := by
  cases parts with
  | nil => rfl
  | cons S rest =>
    rw [joined, piecesAppend, piecesRow, List.map_cons]
    induction rest generalizing S with
    | nil => simp
    | cons T rest ih => simp [← ih T]

theorem piecesCommas (parts : List Sketch) : (commas parts).pieces = commaList (parts.map pieces) := piecesJoined ..

theorem piecesSpaced {α : Type} {print : α → Sketch} {print' : α → List Piece} {as : List α}
    (each : ∀ a ∈ as, (print a).pieces = print' a) : (spaced print as).pieces = Layout.spaced print' as := by
  induction as with
  | nil => rfl
  | cons a rest ih =>
    obtain ⟨first, others⟩ := List.forall_mem_cons.mp each
    rw [spacedCons, Layout.spacedCons, piecesAppend, piecesAppend, first, ih others]
    rfl

theorem piecesMap {α : Type} {print : α → Sketch} {print' : α → List Piece} {as : List α}
    (each : ∀ a ∈ as, (print a).pieces = print' a) : (as.map print).map pieces = as.map print' := by
  rw [List.map_map]
  exact List.map_congr_left each

@[simp] theorem piecesNames (ns : List Ident) : (names ns).pieces = Layout.names ns := by
  rw [names, piecesCommas, piecesMap fun id _ => piecesName id.name, Layout.names]

@[simp] theorem piecesTypeParams (ps : List Ident) : (typeParams ps).pieces = optionalTypeParams ps := by
  cases ps with
  | nil => rfl
  | cons p rest => simp [typeParams, optionalTypeParams, Layout.typeParams]

mutual

@[simp] theorem piecesTy : ∀ t : Ty, (ty t).pieces = Layout.ty t
  | .basic _ _ | .bitVector _ _ | .param _ _ => rfl
  | .named _ n args => by simp [ty, Layout.ty, piecesTyArgs args]
  | .map _ ps args result => by simp [ty, Layout.ty, piecesCommas, piecesTys args, piecesTy result]

theorem piecesTys : ∀ ts : List Ty, (tys ts).map pieces = Layout.tys ts
  | [] => rfl
  | t :: rest => by simp [tys, Layout.tys, piecesTy t, piecesTys rest]

theorem piecesTyArgs : ∀ ts : List Ty, (tyArgs ts).pieces = Layout.tyArgs ts
  | [] => rfl
  | t :: rest => by cases compound : isCompound t <;> simp [tyArgs, Layout.tyArgs, Layout.wrappedIf, compound, piecesTy t, piecesTyArgs rest]

end

def printed : Facts where
  expr e := (expr e).pieces = Layout.expr e
  attr a := (braced a).pieces = Layout.braced a
  trigger t := (trigger t).pieces = Layout.trigger t
  var v := (boundVariable v).pieces = Layout.boundVariable v ∧ (variableDecl v).pieces = Layout.variableDecl v
  letVar v := (letVar v).pieces = Layout.letVar v
  target t := (target t).pieces = Layout.target t
  call x := (callAttributes x).pieces = Layout.callAttributes x ∧ (callParams x).pieces = Layout.callParams x
  cmd x := (cmd x).pieces = Layout.cmd x
  transfer t := (transfer t).pieces = Layout.transfer t
  block b := (block b).pieces = Layout.block b

section Printed

variable {span : Span}

theorem printedExprs {es : List Expr} (each : ∀ e ∈ es, printed.expr e) :
    (commas (exprs es)).pieces = commaList (Layout.exprs es) := by
  rw [piecesCommas, exprsMap, piecesMap each, Layout.exprsMap]

theorem printedAttributes {as : List Attribute} (each : ∀ a ∈ as, printed.attr a) :
    (attributes as).pieces = Layout.attributes as := by
  rw [attributesSpaced, piecesSpaced each, Layout.attributesSpaced]

theorem printedBased {map : Expr} (h : printed.expr map) : (based map).pieces = Layout.based map := by
  rw [based, piecesWrappedIf, h, Layout.based]

theorem printedApplied {op : Operator} {args : List Expr} (applied : Applied op args)
    (each : ∀ e ∈ args, printed.expr e) : printed.expr (.apply span op args) := by
  show (expr (.apply span op args)).pieces = Layout.expr (.apply span op args)
  cases applied with
  | binary op left right =>
    have ofLeft : (expr left).pieces = _ := each left (by simp)
    have ofRight : (expr right).pieces = _ := each right (by simp)
    simp [exprBinary, Layout.exprBinary, infixed, ofLeft, ofRight]
  | unary op operand =>
    have inner : (expr operand).pieces = _ := each operand (by simp)
    simp [exprUnary, Layout.exprUnary, inner]
  | concat left right =>
    have ofLeft : (expr left).pieces = _ := each left (by simp)
    have ofRight : (expr right).pieces = _ := each right (by simp)
    simp [exprConcat, Layout.exprConcat, ofLeft, ofRight]
  | call function args =>
    rw [exprCall, Layout.exprCall, piecesAppend, piecesWrapped, printedExprs each, Layout.exprsMap, piecesName]
  | select map indexes =>
    obtain ⟨ofMap, ofIndexes⟩ := List.forall_mem_cons.mp each
    simp [exprSelect, Layout.exprSelect, printedBased ofMap, printedExprs ofIndexes, Layout.exprsMap]
  | store map indexes value =>
    obtain ⟨ofMap, others⟩ := List.forall_mem_cons.mp each
    obtain ⟨ofIndexes, ofValue⟩ := List.forall_mem_append.mp others
    have ofLast : (expr value).pieces = Layout.expr value := ofValue value (by simp)
    simp [exprStore, Layout.exprStore, printedBased ofMap, printedExprs ofIndexes, Layout.exprsMap, ofLast]
  | ifThenElse condition thenPart elsePart =>
    have ofCondition : (expr condition).pieces = _ := each condition (by simp)
    have ofThen : (expr thenPart).pieces = _ := each thenPart (by simp)
    have ofElse : (expr elsePart).pieces = _ := each elsePart (by simp)
    simp [exprIfThenElse, Layout.exprIfThenElse, ofCondition, ofThen, ofElse]
  | convert goal operand =>
    have inner : (expr operand).pieces = _ := each operand (by simp)
    simp [exprConvert, Layout.exprConvert, inner]
  | coerce type operand => simp [exprCoerce, Layout.exprCoerce, printedBased (each operand (by simp))]
  | extract upper lower operand => simp [exprExtract, Layout.exprExtract, printedBased (each operand (by simp)), bounds]

theorem printedFollows : printed.Follow wellFormed where
  literal _ := rfl
  name _ _ := rfl
  old ofBody := by
    have inner : (expr _).pieces = _ := ofBody
    simp [printed, expr, Layout.expr, inner]
  apply here _ ofArgs := printedApplied (appliedOfFits here) ofArgs
  bind _ _ ofVars ofAs ofTs ofBody := by
    have inner : (expr _).pieces = _ := ofBody
    have vars := piecesMap fun v mem => (ofVars v mem).1
    have groups := piecesSpaced ofTs
    rw [← boundVariablesMap, ← Layout.boundVariablesMap] at vars
    rw [← triggersSpaced, ← Layout.triggersSpaced] at groups
    simp [printed, expr, Layout.expr, piecesCommas, vars, printedAttributes ofAs, groups, inner]
  letIn _ ofVars ofValues ofAs ofBody := by
    have inner : (expr _).pieces = _ := ofBody
    have vars := piecesMap ofVars
    rw [← letVarsMap, ← Layout.letVarsMap] at vars
    simp [printed, expr, Layout.expr, printedExprs ofValues, printedAttributes ofAs, inner, piecesCommas, vars]
  code _ ofLocals ofBlocks := by
    have locals := piecesSpaced fun v mem => (ofLocals v mem).2
    have bs := piecesSpaced ofBlocks
    rw [← localDeclsSpaced, ← Layout.localDeclsSpaced] at locals
    rw [← blocksSpaced, ← Layout.blocksSpaced] at bs
    simp [printed, expr, Layout.expr, locals, bs]
  attr {_ params _} _ _ ofParams := by
    have each : ∀ p ∈ params, (attributeParam p).pieces = Layout.attributeParam p := by
      rintro (content | e) mem
      · rfl
      · exact ofParams e mem
    have inside := piecesMap each
    rw [← attributeParamsMap, ← Layout.attributeParamsMap] at inside
    simp [printed, braced, Layout.braced, piecesCommas, inside]
  trigger {positive _ _} _ ofExprs := by
    cases positive <;> simp [printed, trigger, Layout.trigger, printedExprs ofExprs]
  var {_ _ whereClause _ _} _ _ ofWhere ofAs := by
    constructor
    · simp [boundVariable, Layout.boundVariable, printedAttributes ofAs]
    · cases whereClause with
      | none => simp [variableDecl, Layout.variableDecl, printedAttributes ofAs, optionalWhere, Layout.optionalWhere]
      | some e =>
        have condition : (expr e).pieces = _ := ofWhere e rfl
        simp [variableDecl, Layout.variableDecl, printedAttributes ofAs, optionalWhere, Layout.optionalWhere, condition]
  letVar _ ofAs := by simp [printed, letVar, Layout.letVar, printedAttributes ofAs]
  targetName _ := rfl
  element ofMap ofIndexes := by
    have inner : (target _).pieces = _ := ofMap
    simp [printed, target, Layout.target, inner, printedExprs ofIndexes]
  call {_ _ _ _ outs _ _} _ ofIns _ ofAs := by
    refine ⟨printedAttributes ofAs, ?_⟩
    cases outs <;> simp [callParams, Layout.callParams, printedExprs ofIns]
  assign _ ofTargets ofValues := by
    have left := piecesMap ofTargets
    rw [← targetsMap, ← Layout.targetsMap] at left
    simp [printed, cmd, Layout.cmd, piecesCommas _, left, ← printedExprs ofValues]
  assert ofAs ofE := by
    have condition : (expr _).pieces = _ := ofE
    simp [printed, cmd, Layout.cmd, printedAttributes ofAs, condition]
  assume ofAs ofE := by
    have condition : (expr _).pieces = _ := ofE
    simp [printed, cmd, Layout.cmd, printedAttributes ofAs, condition]
  havoc _ _ := by simp [printed, cmd, Layout.cmd]
  callCmd ofX := by
    have both := ofX
    simp [printed, cmd, Layout.cmd, callWords, both.1, both.2]
  parallel _ ofCalls ofAs := by
    have members := piecesMap fun x mem => (ofCalls x mem).2
    rw [← callListMap, ← Layout.callListMap] at members
    simp [printed, cmd, Layout.cmd, printedAttributes ofAs, members]
  yield := rfl
  goto _ := by simp [printed, transfer, Layout.transfer, transferLabels]
  leave := rfl
  leaveWith ofValue := by
    have value : (expr _).pieces = _ := ofValue
    simp [printed, transfer, Layout.transfer, value]
  block _ _ ofCmds ofTransfer := by
    have commands := piecesSpaced ofCmds
    have last : (transfer _).pieces = _ := ofTransfer
    rw [← cmdsSpaced, ← Layout.cmdsSpaced] at commands
    simp [printed, block, Layout.block, commands, last]

theorem piecesExpr {e : Expr} (pass : every wellFormed e) : (expr e).pieces = Layout.expr e :=
  printedFollows.ofExpr e pass

end Printed

def unplaced (f : Span → Span) : Facts where
  expr e := expr (respan f e) = expr e
  attr a := braced (respan f a) = braced a
  trigger t := trigger (respan f t) = trigger t
  var v := boundVariable (respan f v) = boundVariable v ∧ variableDecl (respan f v) = variableDecl v
  letVar v := letVar (respan f v) = letVar v
  target t := target (respan f t) = target t
  call x := callAttributes (respan f x) = callAttributes x ∧ callParams (respan f x) = callParams x
  cmd x := cmd (respan f x) = cmd x
  transfer t := transfer (respan f t) = transfer t
  block b := block (respan f b) = block b

section Unplaced

variable {f : Span → Span} {span : Span}

theorem unplacedSpaced {α : Type} [Spanned α] {print : α → Sketch} {as : List α}
    (each : ∀ a ∈ as, print (respan f a) = print a) : spaced print (respan f as) = spaced print as :=
  congrArg row (sameMap fun a mem => by rw [each a mem])

theorem unplacedExprs {es : List Expr} (each : ∀ e ∈ es, (unplaced f).expr e) : exprs (respan f es) = exprs es := by
  rw [exprsMap, exprsMap, sameMap each]

theorem unplacedAttributes {as : List Attribute} (each : ∀ a ∈ as, (unplaced f).attr a) :
    attributes (respan f as) = attributes as := by
  rw [attributesSpaced, attributesSpaced, unplacedSpaced each]

theorem unplacedNames (ns : List Ident) : names (respan f ns) = names ns := congrArg commas (sameMap fun _ _ => rfl)

theorem unplacedTypeParams (ps : List Ident) : typeParams (respan f ps) = typeParams ps := by
  rw [typeParams, typeParams, respanIsEmpty, unplacedNames]

mutual

theorem unplacedTy : ∀ t : Ty, ty (respan f t) = ty t
  | .basic _ _ | .bitVector _ _ | .param _ _ => rfl
  | .named _ n args => by rw [Ty.respanNamed, ty, ty, unplacedTyArgs args]
  | .map _ ps args result => by
    rw [Ty.respanMap, ty, ty, unplacedTypeParams, unplacedTys args, unplacedTy result]

theorem unplacedTys : ∀ ts : List Ty, tys (respan f ts) = tys ts
  | [] => rfl
  | t :: rest => by rw [respanCons, tys, tys, unplacedTy t, unplacedTys rest]

theorem unplacedTyArgs : ∀ ts : List Ty, tyArgs (respan f ts) = tyArgs ts
  | [] => rfl
  | t :: rest => by rw [respanCons, tyArgs, tyArgs, sameCompound, unplacedTy t, unplacedTyArgs rest]

end

theorem unplacedBased {map : Expr} (h : (unplaced f).expr map) : based (respan f map) = based map := by
  rw [based, based, samePrecedence, show expr (respan f map) = expr map from h]

theorem unplacedApplied {op : Operator} {args : List Expr} (applied : Applied op args)
    (each : ∀ e ∈ args, expr (respan f e) = expr e) :
    expr (.apply (f span) (respan f op) (respan f args)) = expr (.apply span op args) := by
  cases applied with
  | binary op left right =>
    show expr (.apply _ (.binary op) [respan f left, respan f right]) = _
    rw [exprBinary, exprBinary, sameWrapsLeft, sameWrapsRight, each left (by simp), each right (by simp)]
  | unary op operand =>
    show expr (.apply _ (.unary op) [respan f operand]) = _
    rw [exprUnary, exprUnary, samePrecedence, each operand (by simp)]
  | concat left right =>
    show expr (.apply _ .concat [respan f left, respan f right]) = _
    rw [exprConcat, exprConcat, samePrecedence, samePrecedence, each left (by simp), each right (by simp)]
  | call function args =>
    show expr (.apply _ (.call function) (respan f args)) = _
    rw [exprCall, exprCall, unplacedExprs each]
  | select map indexes =>
    obtain ⟨ofMap, ofIndexes⟩ := List.forall_mem_cons.mp each
    show expr (.apply _ (.select _) (respan f map :: respan f indexes)) = _
    rw [exprSelect, exprSelect, unplacedBased ofMap, unplacedExprs ofIndexes]
  | store map indexes value =>
    obtain ⟨ofMap, others⟩ := List.forall_mem_cons.mp each
    obtain ⟨ofIndexes, ofValue⟩ := List.forall_mem_append.mp others
    rw [respanCons, respanAppend]
    show expr (.apply _ (.store _) (respan f map :: (respan f indexes ++ [respan f value]))) = _
    rw [exprStore, exprStore, unplacedBased ofMap, unplacedExprs ofIndexes, ofValue value (by simp), respanIsEmpty]
  | ifThenElse condition thenPart elsePart =>
    show expr (.apply _ .ifThenElse [respan f condition, respan f thenPart, respan f elsePart]) = _
    rw [exprIfThenElse, exprIfThenElse, each condition (by simp), each thenPart (by simp), each elsePart (by simp)]
  | convert goal operand =>
    show expr (.apply _ (.convert goal) [respan f operand]) = _
    rw [exprConvert, exprConvert, each operand (by simp)]
  | coerce type operand =>
    show expr (.apply _ (.coerce (respan f type)) [respan f operand]) = _
    rw [exprCoerce, exprCoerce, unplacedBased (each operand (by simp)), unplacedTy]
  | extract upper lower operand =>
    show expr (.apply _ (.extract upper lower) [respan f operand]) = _
    rw [exprExtract, exprExtract, unplacedBased (each operand (by simp))]

theorem unplacedFollows (f : Span → Span) : (unplaced f).Follow wellFormed where
  literal _ := rfl
  name _ _ := rfl
  old ofBody := by
    show expr (respan f (Expr.old _ _)) = _
    rw [Expr.respanOld, expr, ofBody, expr]
  apply here _ ofArgs := by
    show expr (respan f (Expr.apply _ _ _)) = _
    rw [Expr.respanApply]
    exact unplacedApplied (appliedOfFits here) ofArgs
  bind _ _ ofVars ofAs ofTs ofBody := by
    show expr (respan f (Expr.bind _ _ _ _ _ _ _)) = _
    rw [Expr.respanBind, expr, expr, boundVariablesMap, sameMap fun v mem => (ofVars v mem).1, ← boundVariablesMap,
      unplacedTypeParams, respanIsEmpty, respanIsEmpty, unplacedAttributes ofAs, triggersSpaced, unplacedSpaced ofTs,
      ← triggersSpaced, ofBody]
  letIn _ ofVars ofValues ofAs ofBody := by
    show expr (respan f (Expr.letIn _ _ _ _ _)) = _
    rw [Expr.respanLetIn, expr, expr, letVarsMap, sameMap ofVars, ← letVarsMap, unplacedExprs ofValues,
      unplacedAttributes ofAs, ofBody]
  code _ ofLocals ofBlocks := by
    show expr (respan f (Expr.code _ _ _)) = _
    rw [Expr.respanCode, expr, expr, localDeclsSpaced, unplacedSpaced fun v mem => (ofLocals v mem).2,
      ← localDeclsSpaced, blocksSpaced, unplacedSpaced ofBlocks, ← blocksSpaced]
  attr {_ params _} _ _ ofParams := by
    have inside : attributeParams (respan f params) = attributeParams params := by
      rw [attributeParamsMap, attributeParamsMap]
      refine sameMap fun p mem => ?_
      cases p with
      | string content => rfl
      | expr e => exact ofParams e mem
    show braced (respan f (Attribute.mk _ _ _)) = _
    rw [Attribute.respanMk, braced, braced, respanIsEmpty, inside]
  trigger _ ofExprs := by
    show trigger (respan f (Trigger.mk _ _ _)) = _
    rw [Trigger.respanMk, trigger, trigger, unplacedExprs ofExprs]
  var {_ _ whereClause _ _} _ _ ofWhere ofAs := by
    have condition : optionalWhere (respan f whereClause) = optionalWhere whereClause := by
      cases whereClause with
      | none => rfl
      | some e => rw [respanSome, optionalWhere, optionalWhere, ofWhere e rfl]
    constructor
    · rw [Variable.respanMk, boundVariable, boundVariable, unplacedAttributes ofAs, unplacedTy]
    · rw [Variable.respanMk, variableDecl, variableDecl, unplacedAttributes ofAs, unplacedTy, condition]
  letVar _ ofAs := by
    show letVar (respan f (LetVar.mk _ _ _)) = _
    rw [LetVar.respanMk, letVar, letVar, unplacedAttributes ofAs]
  targetName _ := rfl
  element ofMap ofIndexes := by
    show target (respan f (Target.element _ _ _)) = _
    rw [Target.respanElement, target, target, ofMap, unplacedExprs ofIndexes]
  call _ ofIns _ ofAs := by
    constructor
    · rw [Call.respanMk, callAttributes, callAttributes, unplacedAttributes ofAs]
    · rw [Call.respanMk, callParams, callParams, respanIsEmpty, unplacedNames, unplacedExprs ofIns, Ident.respanName]
  assign _ ofTargets ofValues := by
    show cmd (respan f (Cmd.assign _ _ _)) = _
    rw [Cmd.respanAssign, cmd, cmd, targetsMap, sameMap ofTargets, ← targetsMap, unplacedExprs ofValues]
  assert ofAs ofE := by
    show cmd (respan f (Cmd.assert _ _ _)) = _
    rw [Cmd.respanAssert, cmd, cmd, unplacedAttributes ofAs, ofE]
  assume ofAs ofE := by
    show cmd (respan f (Cmd.assume _ _ _)) = _
    rw [Cmd.respanAssume, cmd, cmd, unplacedAttributes ofAs, ofE]
  havoc _ _ := by
    show cmd (respan f (Cmd.havoc _ _)) = _
    rw [Cmd.respanHavoc, cmd, cmd, unplacedNames]
  callCmd {_ x} ofX := by
    show cmd (respan f (Cmd.call _ x)) = _
    have words : (respan f x).isAsync = x.isAsync ∧ (respan f x).isFree = x.isFree := by cases x; exact ⟨rfl, rfl⟩
    rw [Cmd.respanCall, cmd, cmd, ofX.1, ofX.2, words.1, words.2]
  parallel _ ofCalls ofAs := by
    show cmd (respan f (Cmd.parallel _ _ _)) = _
    rw [Cmd.respanParallel, cmd, cmd, callListMap, sameMap fun x mem => (ofCalls x mem).2, ← callListMap,
      unplacedAttributes ofAs]
  yield := rfl
  goto _ := by
    show transfer (respan f (Transfer.goto _ _)) = _
    rw [Transfer.respanGoto, transfer, transfer, unplacedNames]
  leave := rfl
  leaveWith ofValue := by
    show transfer (respan f (Transfer.leaveWith _ _)) = _
    rw [Transfer.respanLeaveWith, transfer, transfer, ofValue]
  block _ _ ofCmds ofTransfer := by
    show block (respan f (Block.mk _ _ _ _)) = _
    rw [Block.respanMk, block, block, cmdsSpaced, unplacedSpaced ofCmds, ← cmdsSpaced, ofTransfer]

theorem sketchOfAlike {e e' : Expr} (pass : every wellFormed e) (pass' : every wellFormed e') (alike : bare e = bare e') :
    expr e = expr e' := by
  have ofE : expr (bare e) = expr e := (unplacedFollows _).ofExpr e pass
  have ofE' : expr (bare e') = expr e' := (unplacedFollows _).ofExpr e' pass'
  rw [← ofE, alike, ofE']

end Unplaced

end Boogie.Layout.Sketch
