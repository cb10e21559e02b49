import Boogie.Proofs.Printed.Nodes
import Boogie.Proofs.Printed.Printable
import Boogie.Proofs.Printed.Texts
import Boogie.Proofs.Tree.Induction

/-! No word of a printed tree runs on into the next one. Whatever is printed of a node begins as anything may
that stands behind a mark, and what follows on it ends its last word. -/
namespace Boogie.Layout

open Token (Kind Word startsWith)

section Lists

variable {α : Type} {e : Edge} {as : List α} {print : α → List Piece}

theorem flowsNothing {e : Edge} : Flows .free [] e := .enter .nil

theorem flowsSeparated {mark : String} (between : Flows .word [.text mark] e) (filled : as ≠ [])
    (each : ∀ a ∈ as, Flows e (print a) .word) :
    Flows e (List.intercalate [.text mark] (as.map print)) .word := by
  induction as with
  | nil => exact absurd rfl filled
  | cons a rest ih =>
    obtain ⟨first, others⟩ := List.forall_mem_cons.mp each
    cases rest with
    | nil => simpa using first
    | cons b rest =>
      simp only [List.map_cons, List.intercalate_cons_cons]
      exact (first.append between).append (ih (List.cons_ne_nil b rest) others)

theorem flowsJoined {mark : String} (between : Flows .word [.text mark] .free)
    (each : ∀ a ∈ as, Flows .free (print a) .word) :
    Flows .free (List.intercalate [.text mark] (as.map print)) .word := by
  by_cases none : as = []
  · subst none
    exact flowsNothing
  · exact flowsSeparated between none each

theorem flowsComma (each : ∀ a ∈ as, Flows .free (print a) .word) : Flows .free (commaList (as.map print)) .word :=
  flowsJoined (.text ", ") each

theorem flowsSpaced (each : ∀ a ∈ as, Flows .free (print a) e) : Flows .free (spaced print as) .free := by
  induction as with
  | nil => exact .nil
  | cons a rest ih =>
    obtain ⟨first, others⟩ := List.forall_mem_cons.mp each
    rw [spacedCons]
    exact first.append (.cons flowsSpace (ih others))

theorem flowsEach (each : ∀ a ∈ as, Flows e (print a) e) : Flows e (as.flatMap print) e := by
  induction as with
  | nil => exact .nil
  | cons a rest ih =>
    obtain ⟨first, others⟩ := List.forall_mem_cons.mp each
    exact first.append (ih others)

theorem flowsWrapped {ps : List Piece} {e e' : Edge} [Meets e '('] (h : Flows .free ps .word) :
    Flows e (wrapped ps) e' := Flows.append (.cons (.text "(") h) (.text ")")

theorem flowsWrappedIf {ps : List Piece} (h : Flows .mark ps .word) (condition : Bool) :
    Flows .mark (wrappedIf condition ps) .word := by
  cases condition with
  | true => exact flowsWrapped h.enter
  | false => exact h

end Lists

theorem flowsNames {ns : List Ident} (written : every printable ns) : Flows .free (names ns) .word :=
  flowsComma fun id mem => (flowsName (written id mem)).enter

theorem flowsTypeParams {ps : List Ident} {e e' : Edge} [Meets e '<'] [Leaves (some .greater) e'] (filled : ps ≠ [])
    (written : every printable ps) : Flows e (typeParams ps) e' := by
  have within : Flows .mark (names ps) .word :=
    flowsSeparated (.text ", ") filled fun id mem => flowsName (written id mem)
  exact .append (.cons (.text "<") within) (.text ">")

theorem flowsOptionalTypeParams {ps : List Ident} {e : Edge} [Meets e '<'] [Leaves (some .greater) e]
    (written : every printable ps) : Flows e (optionalTypeParams ps) e := by
  rw [optionalTypeParams]
  split
  · exact .nil
  · rename_i filled
    exact flowsTypeParams (by simpa using filled) written

theorem flowsTyArgument {t : Ty} (h : Flows .mark (ty t) .word) : Flows .word (tyArgument t) .word :=
  .cons flowsSpace (flowsWrappedIf h (isCompound t)).enter

mutual

theorem flowsTy : ∀ t, Ty.passes printable t → Flows .mark (ty t) .word
  | .basic _ b, _ => .row b.keyword (by cases b <;> decide) (by cases b <;> decide)
  | .bitVector _ width, _ => flowsPlain (writtenWidth width) (plainWidth width)
  | .param _ _, ⟨_, named⟩ => flowsName named
  | .named _ _ args, ⟨_, named, pass⟩ => by
    rw [ty, tyArgsFlat]
    exact .append (flowsName named) (flowsEach fun t mem => flowsTyArgument (flowsTys args pass t mem))
  | .map _ ps args result, ⟨_, params, ofArgs, ofResult⟩ => by
    rw [ty, tysMap]
    have inside := flowsComma fun t mem => (flowsTys args ofArgs t mem).enter
    have front : Flows .mark (optionalTypeParams ps) .mark := flowsOptionalTypeParams params
    exact (front.append (.cons (.text "[") inside)).append (.cons (.text "]") (flowsTy result ofResult))

theorem flowsTys : ∀ ts, Ty.allPass printable ts → ∀ t ∈ ts, Flows .mark (ty t) .word
  | [], _ => nofun
  | t :: rest, ⟨first, more⟩ => List.forall_mem_cons.mpr ⟨flowsTy t first, flowsTys rest more⟩

end

def digitsWord (n : Nat) : Word := ⟨.digits, Nat.toDigits 10 n⟩

theorem digitsChars (n : Nat) : (toString (n : Int)).toList = (toString n).toList := by
  rw [naturalDigits, Text.toStringDigits]

theorem flowsDigits (n : Nat) : Flows .mark [.text (toString n)] .word := by
  have h := (legibleInt n).flows
  rwa [Literal.text, String.toList_inj.mp (digitsChars n)] at h

theorem digitsWords (n : Nat) : (Piece.text (toString n)).words = [digitsWord n] := by
  have nothing : startsWith Token.endsNumber [] := trivial
  have whole := Token.wordsDigits (Text.isDigitsToDigits n) nothing
  rw [List.append_nil, Token.wordsNil, ← Text.toStringDigits] at whole
  rw [digitsWord, ← Text.toStringDigits]
  exact whole

def flowing : Facts where
  expr e := Flows .mark (expr e) .word
  attr a := Flows .free (braced a) .word
  trigger t := Flows .free (trigger t) .word
  var v := Flows .free (boundVariable v) .word ∧ Flows .free (variableDecl v) .free
  letVar v := Flows .free (letVar v) .word
  target t := Flows .free (target t) .word
  call x := Flows .free (callAttributes x) .free ∧ Flows .free (callParams x) .word
  cmd x := Flows .free (cmd x) .free
  transfer t := Flows .free (transfer t) .free
  block b := Flows .free (block b) .free

section Nodes

variable {span : Span}

theorem flowsExprs {es : List Expr} (each : ∀ e ∈ es, flowing.expr e) :
    Flows .free (commaList (es.map expr)) .word := flowsComma fun e mem => (each e mem).enter

theorem flowsAttributes {as : List Attribute} (each : ∀ a ∈ as, flowing.attr a) :
    Flows .free (attributes as) .free := by
  rw [attributesSpaced]
  exact flowsSpaced each

theorem flowsOperator (op : BinaryOp) : Flows .word [.space, .text op.symbol, .space] .free :=
  .cons flowsSpace (.cons (.row op.symbol (by cases op <;> decide) (by cases op <;> decide) : Flows .free _ .blank) flowsSpace)

theorem flowsBased {map : Expr} (h : flowing.expr map) : Flows .mark (based map) .word :=
  flowsWrappedIf h _

def bounds (upper lower : Nat) : Piece := .text ("[" ++ toString upper ++ ":" ++ toString lower ++ "]")

def boundsPieces (upper lower : Nat) : List Piece :=
  [.text "[", .text (toString upper), .text ":", .text (toString lower), .text "]"]

theorem boundsChars (upper lower : Nat) : (bounds upper lower).chars = chars (boundsPieces upper lower) := by
  simp [bounds, boundsPieces, Piece.chars, Piece.string]

theorem flowsBounds (upper lower : Nat) : Flows .word (boundsPieces upper lower) .word :=
  .cons (.text "[") (.cons (flowsDigits upper) (.cons (.text ":") (.cons (flowsDigits lower) (.text "]"))))

theorem flowsApplied {op : Operator} {args : List Expr} (applied : Applied op args) (ofOp : every printable op)
    (each : ∀ e ∈ args, flowing.expr e) : Flows .mark (expr (.apply span op args)) .word := by
  cases applied with
  | binary op left right =>
    have ofLeft := flowsWrappedIf (each left (by simp)) (wrapsLeft op left)
    have ofRight := flowsWrappedIf (each right (by simp)) (wrapsRight op right)
    exact ofLeft.append ((flowsOperator op).append ofRight.enter)
  | unary op operand =>
    have inner := flowsWrappedIf (each operand (by simp)) (precedence operand < unaryPrecedence)
    exact .cons (.row op.symbol (by cases op <;> decide) (by cases op <;> decide)) inner
  | concat left right =>
    have ofLeft := flowsWrappedIf (each left (by simp)) (precedence left < concatPrecedence)
    have ofRight := flowsWrappedIf (each right (by simp)) (precedence right ≤ concatPrecedence)
    exact ofLeft.append (.cons (.text " ++ ") ofRight)
  | call function args =>
    rw [exprCall]
    exact (flowsName ofOp).append (flowsWrapped (flowsExprs each))
  | select map indexes =>
    obtain ⟨ofMap, ofIndexes⟩ := List.forall_mem_cons.mp each
    rw [exprSelect]
    exact (((flowsBased ofMap).append (.cons (.text "[") (flowsExprs ofIndexes))).append (.text "]"))
  | store map indexes value =>
    obtain ⟨ofMap, others⟩ := List.forall_mem_cons.mp each
    obtain ⟨ofIndexes, ofValue⟩ := List.forall_mem_append.mp others
    have ofLast := List.forall_mem_singleton.mp ofValue
    rw [exprStore]
    have assigned : Flows .free (.text ":= " :: expr value) .word := .cons (.text ":= ") ofLast
    cases indexes with
    | nil =>
      have opened : Flows .mark (based map ++ [Piece.text "["]) .free := (flowsBased ofMap).append (.text "[")
      exact ((opened.append .nil).append assigned).append (.text "]")
    | cons first rest =>
      have opened := (flowsBased ofMap).append (.cons (.text "[") (flowsExprs ofIndexes))
      exact ((opened.append flowsSpace).append assigned).append (.text "]")
  | ifThenElse condition thenPart elsePart =>
    have ofCondition := each condition (by simp)
    have ofThen := each thenPart (by simp)
    have ofElse := each elsePart (by simp)
    exact (((Flows.cons (.text "(if ") ofCondition).append (.cons (.text " then ") ofThen)).append
      (.cons (.text " else ") ofElse)).append (.text ")")
  | convert goal operand =>
    have inner := (each operand (by simp)).enter
    rw [exprConvert]
    have word : Flows .mark [.text goal.keyword] .word :=
      .row goal.keyword (by cases goal <;> decide) (by cases goal <;> decide)
    exact word.cons (flowsWrapped inner)
  | coerce type operand =>
    have ofBase := flowsBased (each operand (by simp))
    exact flowsWrapped (ofBase.enter.append (.cons (.text " : ") (flowsTy type ofOp)))
  | extract upper lower operand =>
    exact (flowsBased (each operand (by simp))).append (.joined (boundsChars upper lower) (flowsBounds upper lower))

theorem flowsParam {p : AttributeParam} (ofString : ∀ content, p = .string content → isQuotable content)
    (ofExpr : ∀ e, p = .expr e → flowing.expr e) : Flows .free (attributeParam p) .word := by
  cases p with
  | string content => exact (legibleString (ofString content rfl)).flows.enter
  | expr e => exact (ofExpr e rfl).enter

theorem flowsParams {params : List AttributeParam} (ofStrings : ∀ content, .string content ∈ params → isQuotable content)
    (ofExprs : ∀ e, .expr e ∈ params → flowing.expr e) : Flows .free (commaList (attributeParams params)) .word := by
  rw [attributeParamsMap]
  exact flowsComma fun p mem =>
    flowsParam (fun content same => ofStrings content (same ▸ mem)) fun e same => ofExprs e (same ▸ mem)

theorem flowsBraced {key : String} {params : List AttributeParam} (named : isWritten key)
    (inside : Flows .free (commaList (attributeParams params)) .word) : Flows .free (braced ⟨key, params, span⟩) .word := by
  have front : Flows .free (.text "\x7b:" :: name key) .word := .cons (.text "\x7b:") (flowsName named)
  cases params with
  | nil => exact ((front.append .nil).append .nil).append (.text "\x7d")
  | cons p rest => exact ((front.append flowsSpace).append inside).append (.text "\x7d")

def negativeFront : List Piece := [.text "\x7b:", .text "nopats", .space]

theorem negativeChars : (Piece.text "\x7b:nopats ").chars = chars negativeFront := rfl

theorem flowsNegativeFront : Flows .free negativeFront .free :=
  .cons (.text "\x7b:") (.cons (flowsName (n := "nopats") (by rw [isWritten]; rfl)) flowsSpace)

theorem flowsTrigger {positive : Bool} {es : List Expr} (each : ∀ e ∈ es, flowing.expr e) :
    Flows .free (trigger ⟨positive, es, span⟩) .word := by
  rw [trigger, exprsMap]
  refine .append (.cons ?_ (flowsExprs each)) (.text "\x7d")
  cases positive with
  | true => exact .text "\x7b"
  | false => exact .joined negativeChars flowsNegativeFront

theorem flowsWhere {o : Option Expr} (each : ∀ e ∈ o, flowing.expr e) : Flows .word (optionalWhere o) .word := by
  cases o with
  | none => exact .nil
  | some e => exact .cons (.text " where ") (each e rfl)

theorem flowsBoundVariable {n : String} {type : Ty} {whereClause : Option Expr} {as : List Attribute}
    (named : isWritten n) (ofType : every printable type) (ofAs : ∀ a ∈ as, flowing.attr a) :
    Flows .free (boundVariable ⟨n, type, whereClause, as, span⟩) .word :=
  ((flowsAttributes ofAs).append (flowsName named).enter).append (.cons (.text ": ") (flowsTy type ofType))

theorem flowsVariableDecl {n : String} {type : Ty} {whereClause : Option Expr} {as : List Attribute}
    (named : isWritten n) (ofType : every printable type) (ofWhere : ∀ e ∈ whereClause, flowing.expr e)
    (ofAs : ∀ a ∈ as, flowing.attr a) : Flows .free (variableDecl ⟨n, type, whereClause, as, span⟩) .free :=
  ((((Flows.cons (.text "var ") (flowsAttributes ofAs)).append (flowsName named).enter).append
    (.cons (.text ": ") (flowsTy type ofType))).append (flowsWhere ofWhere)).append (.text ";")

theorem flowsBinder (binder : Binder) : Flows .mark [.text ("(" ++ binder.keyword ++ " ")] .free :=
  .row _ (by cases binder <;> decide) (by cases binder <;> decide)

theorem flowsCallWords (isAsync isFree : Bool) :
    Flows .free [.text ((if isAsync then "async " else "") ++ (if isFree then "free " else "") ++ "call ")] .free :=
  .row _ (by cases isAsync <;> cases isFree <;> decide) (by cases isAsync <;> cases isFree <;> decide)

theorem flowsBound {ps : List Ident} {vars : List Variable} (ofPs : every printable ps)
    (ofVars : ∀ v ∈ vars, flowing.var v) :
    Flows .free (optionalTypeParams ps ++ (if ps.isEmpty || vars.isEmpty then [] else [Piece.space]) ++
      commaList (boundVariables vars)) .word := by
  have declared : Flows .free (commaList (boundVariables vars)) .word := by
    rw [boundVariablesMap]
    exact flowsComma fun v mem => (ofVars v mem).1
  cases ps with
  | nil => exact declared
  | cons p rest =>
    have params : Flows .free (typeParams (p :: rest)) .word :=
      flowsTypeParams (List.cons_ne_nil p rest) ofPs
    cases vars with
    | nil => exact (params.append .nil).append .nil
    | cons v vars => exact (params.append flowsSpace).append declared

theorem flowsCallParams {isAsync isFree : Bool} {callee : Ident} {ins : List Expr} {outs : List Ident}
    {as : List Attribute} (ofCallee : every printable callee) (ofIns : ∀ e ∈ ins, flowing.expr e)
    (ofOuts : every printable outs) : Flows .free (callParams ⟨isAsync, isFree, callee, ins, outs, as, span⟩) .word := by
  have called : Flows .free (name callee.name ++ wrapped (commaList (exprs ins))) .word := by
    rw [exprsMap]
    exact (flowsName ofCallee).enter.append (flowsWrapped (flowsExprs ofIns))
  rw [callParams, List.append_assoc]
  split
  · exact called
  · exact ((flowsNames ofOuts).append (.text " := ")).append called

end Nodes

theorem flowingFollows : flowing.Follow printable where
  literal here := by
    obtain ⟨_, _, legible⟩ := here
    exact legible.flows
  name _ named := flowsName named
  old ofBody :=
    have word : Flows .mark [.text "old"] .word := .text "old"
    word.cons (flowsWrapped (Flows.enter ofBody))
  apply here ofOp ofArgs := flowsApplied (appliedOfFits here.1) ofOp ofArgs
  bind _ ofPs ofVars ofAs ofTs ofBody := by
    have ofTriggers := flowsSpaced ofTs
    rw [← triggersSpaced] at ofTriggers
    exact (((((flowsBinder _).cons (flowsBound ofPs ofVars)).append (.cons (.text " :: ") (flowsAttributes ofAs))).append
      ofTriggers).append (Flows.enter ofBody)).append (.text ")")
  letIn _ ofVars ofValues ofAs ofBody := by
    have ofLetVars := flowsComma ofVars
    have ofExprs := flowsExprs ofValues
    rw [← letVarsMap] at ofLetVars
    rw [← exprsMap] at ofExprs
    exact ((((Flows.cons (.text "(var ") ofLetVars).append (.cons (.text " := ") ofExprs)).append
      (.cons (.text "; ") (flowsAttributes ofAs))).append (Flows.enter ofBody)).append (.text ")")
  code _ ofLocals ofBlocks := by
    have declared := flowsSpaced fun v mem => (ofLocals v mem).2
    have ofBs := flowsSpaced ofBlocks
    rw [← localDeclsSpaced] at declared
    rw [← blocksSpaced] at ofBs
    exact ((Flows.cons (.text "|\x7b ") declared).append ofBs).append (.text "\x7d|")
  attr here named ofParams := flowsBraced named (flowsParams here.2.1 ofParams)
  trigger _ ofExprs := flowsTrigger ofExprs
  var named ofType ofWhere ofAs :=
    ⟨flowsBoundVariable named ofType ofAs, flowsVariableDecl named ofType ofWhere ofAs⟩
  letVar named ofAs := (flowsAttributes ofAs).append (flowsName named).enter
  targetName named := (flowsName named).enter
  element ofMap ofIndexes := by
    have inside := flowsExprs ofIndexes
    rw [← exprsMap] at inside
    exact (Flows.append ofMap (.cons (.text "[") inside)).append (.text "]")
  call ofCallee ofIns ofOuts ofAs := ⟨flowsAttributes ofAs, flowsCallParams ofCallee ofIns ofOuts⟩
  assign _ ofTargets ofValues := by
    have left := flowsComma ofTargets
    have right := flowsExprs ofValues
    rw [← targetsMap] at left
    rw [← exprsMap] at right
    exact (left.append (.cons (.text " := ") right)).append (.text ";")
  assert ofAs ofE := ((Flows.cons (.text "assert ") (flowsAttributes ofAs)).append (Flows.enter ofE)).append (.text ";")
  assume ofAs ofE := ((Flows.cons (.text "assume ") (flowsAttributes ofAs)).append (Flows.enter ofE)).append (.text ";")
  havoc _ ofVars := (Flows.cons (.text "havoc ") (flowsNames ofVars)).append (.text ";")
  callCmd ofX := (((flowsCallWords _ _).cons ofX.1).append ofX.2).append (.text ";")
  parallel _ ofCalls ofAs := by
    have members := flowsJoined (.text " | ") fun x mem => (ofCalls x mem).2
    rw [← callListMap] at members
    exact ((Flows.cons (.text "par ") (flowsAttributes ofAs)).append members).append (.text ";")
  yield := .text "yield;"
  goto ofLabels := (Flows.cons (.text "goto ") (flowsNames ofLabels)).append (.text ";")
  leave := .text "return;"
  leaveWith ofValue := (Flows.cons (.text "return ") ofValue).append (.text ";")
  block _ named ofCmds ofTransfer := by
    have commands := flowsSpaced ofCmds
    rw [← cmdsSpaced] at commands
    exact ((flowsName named).enter.append (.cons (.text ": ") commands)).append ofTransfer

end Boogie.Layout
