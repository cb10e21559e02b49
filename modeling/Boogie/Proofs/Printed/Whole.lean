import Boogie.Proofs.Printed.Flows

/-! No word of a printed program runs on into the next one. -/
namespace Boogie.Layout

theorem flowsExpr {e : Expr} (pass : every printable e) : Flows .mark (expr e) .word :=
  flowingFollows.ofExpr e pass

theorem flowsAttributeList {as : List Attribute} (pass : every printable as) : Flows .free (attributes as) .free :=
  flowsAttributes fun a mem => flowingFollows.ofAttribute a (pass a mem)

theorem flowsVariable {v : Variable} (pass : every printable v) : Flows .free (variableDecl v) .free :=
  (flowingFollows.ofVariable v pass).2

theorem flowsOptionalWhere {o : Option Expr} (pass : every printable o) : Flows .word (optionalWhere o) .word :=
  flowsWhere fun e mem => flowsExpr (pass e mem)

theorem flowsLine {depth : Nat} {ps : List Piece} {e : Edge} [meets : Meets e '\n'] (h : Flows .free ps e) :
    Flows .free (line depth ps) .free := .append (.cons flowsIndent h) (flowsNewline meets.allowed)

theorem flowsOpenedLine {depth : Nat} {ps : List Piece} (h : Flows .free ps .free) :
    Flows .free (openedLine depth ps) .free := .cons (flowsNewline rfl) (.cons flowsIndent h)

theorem flowsClause {keyword : String} (opens : ∀ free : Bool,
    Flows .free [.text ((if free then "free " else "") ++ keyword ++ " ")] .free) {c : Clause}
    (pass : every printable c) : Flows .free (clause keyword c) .free :=
  (((opens c.free).cons (flowsAttributeList pass.2)).append (flowsExpr pass.1).enter).append (.text ";")

theorem flowsClauses {keyword : String} (opens : ∀ free : Bool,
    Flows .free [.text ((if free then "free " else "") ++ keyword ++ " ")] .free) (depth : Nat) {cs : List Clause}
    (pass : every printable cs) : Flows .free (clauseLines depth keyword cs) .free :=
  flowsEach fun c mem => flowsOpenedLine (flowsClause opens (pass c mem))

theorem flowsInvariantWord (free : Bool) :
    Flows .free [.text ((if free then "free " else "") ++ "invariant" ++ " ")] .free :=
  .row _ (by cases free <;> decide) (by cases free <;> decide)

theorem flowsRequiresWord (free : Bool) :
    Flows .free [.text ((if free then "free " else "") ++ "requires" ++ " ")] .free :=
  .row _ (by cases free <;> decide) (by cases free <;> decide)

theorem flowsEnsuresWord (free : Bool) :
    Flows .free [.text ((if free then "free " else "") ++ "ensures" ++ " ")] .free :=
  .row _ (by cases free <;> decide) (by cases free <;> decide)

theorem flowsGuard {o : Option Expr} (pass : every printable o) : Flows .free (guard o) .free := by
  cases o with
  | none => exact .text "(*)"
  | some e => exact flowsWrapped (flowsExpr (pass e rfl)).enter

theorem flowsLabelLine {label : Option String} (pass : every printable label) (depth : Nat) :
    Flows .free (labelLine depth label) .free := by
  cases label with
  | none => exact .nil
  | some n =>
    have labelled : Flows .free (name n ++ [Piece.text ":"]) .mark := (flowsName (pass n rfl)).enter.append (.text ":")
    exact flowsLine labelled

theorem flowsBreakLabel {label : Option String} (pass : every printable label) :
    Flows .word (breakLabel label) .word := by
  cases label with
  | none => exact .nil
  | some n => exact .cons flowsSpace (flowsName (pass n rfl)).enter

theorem flowsInvariants {invariants : List Clause} (pass : every printable invariants) (depth : Nat) :
    Flows .free (invariantLines depth invariants) .free := by
  rw [invariantLines]
  split
  · exact flowsSpace
  · exact (flowsClauses flowsInvariantWord (depth + 1) pass).append (.cons (flowsNewline rfl) flowsIndent)

def stmtFlowing : StmtFacts where
  stmts l := ∀ depth, Flows .free (stmts depth l) .free
  block b := ∀ depth, Flows .free (bigBlock depth b) .free
  tail t := ∀ depth, Flows .free (tail depth t) .word
  branch x := ∀ depth, Flows .free (ifCmd depth x) .word
  other b := ∀ depth, Flows .free (elseBranch depth b) .word
  loop x := ∀ depth, Flows .free (whileCmd depth x) .word

theorem flowsOpening : Flows .free [.text "\x7b", .newline] .free :=
  have brace : Flows .free [.text "\x7b"] .free := .text "\x7b"
  brace.cons (flowsNewline rfl)

theorem flowsClosing {depth : Nat} : Flows .free [lineStart depth, .text "\x7d"] .word := .cons flowsIndent (.text "\x7d")

theorem flowsNested {l : StmtList} (h : stmtFlowing.stmts l) (depth : Nat) : Flows .free (nested depth l) .word := by
  obtain ⟨blocks, closing⟩ := l
  exact (flowsOpening.append (h (depth + 1))).append flowsClosing

theorem stmtFlowingFollows : stmtFlowing.Follow printable where
  stmts _ ofBlocks depth := by
    rw [stmts, bigBlocksFlat]
    exact flowsEach fun b mem => ofBlocks b mem depth
  block named ofCmds ofTail depth := by
    rename_i tail
    have last : Flows .free (optionalTail depth tail) .free := by
      cases tail with
      | none => exact .nil
      | some t => exact flowsLine (ofTail t rfl depth)
    exact ((flowsLabelLine named depth).append
      (flowsEach fun x mem => flowsLine (flowingFollows.ofCmd x (ofCmds x mem)))).append last
  branchTail ofX := ofX
  loopTail ofX := ofX
  leave named _ := ((Flows.cons (.text "break") (flowsBreakLabel named)).append (.text ";"))
  transfer _ ofX _ := (flowingFollows.ofTransfer _ ofX).loosen
  branch ofGuard ofThen ofElse depth := by
    rename_i elseBranch _
    have last : Flows .word (optionalElse depth elseBranch) .word := by
      cases elseBranch with
      | none => exact .nil
      | some b => exact .cons (.text " else ") (ofElse b rfl depth)
    exact ((Flows.cons (.text "if ") (flowsGuard ofGuard)).append (.cons flowsSpace (flowsNested ofThen depth))).append last
  elseIf ofX := ofX
  elseBlock ofBody := flowsNested ofBody
  loop ofGuard ofInvariants ofBody depth :=
    ((Flows.cons (.text "while ") (flowsGuard ofGuard)).append (flowsInvariants ofInvariants depth)).append
      (flowsNested ofBody depth)

theorem flowsBody {locals : List Variable} {l : StmtList} (ofLocals : every printable locals)
    (pass : every printable l) (depth : Nat) : Flows .free (body depth locals l) .word := by
  have declared : Flows .free (locals.flatMap fun v => line (depth + 1) (variableDecl v)) .free :=
    flowsEach fun v mem => flowsLine (flowsVariable (ofLocals v mem))
  exact ((flowsOpening.append declared).append (stmtFlowingFollows.ofStmts l pass (depth + 1))).append flowsClosing

theorem flowsUnique (unique : Bool) : Flows .free [.text (if unique then "unique " else "")] .free := by
  cases unique with
  | true => exact .row (if true then "unique " else "") (by decide) (by decide)
  | false =>
    have none : (Piece.text "").words = [] := Token.wordsNil
    refine .piece (fun _ _ => allowedByFree) (fun rest _ => ?_) ?_
    · show Token.words rest = (Piece.text "").words ++ Token.words rest
      rw [none, List.nil_append]
    · show ∀ w ∈ (Piece.text "").words, _
      rw [none]
      exact nofun

theorem flowsParent {p : Parent} (pass : every printable p) : Flows .free (parent p) .word :=
  (flowsUnique p.unique).cons (flowsName pass).enter

theorem flowsExtension {parents : List Parent} (pass : every printable parents) (complete : Bool) :
    Flows .word (extension parents complete) .word := by
  have listed : Flows .word (Piece.text " extends" :: (if parents.isEmpty then [] else [Piece.space]) ++
      commaList (parents.map parent)) .word := by
    have ofParents := flowsComma fun p mem => flowsParent (pass p mem)
    have word : Flows .word [.text " extends"] .word := .text " extends"
    cases parents with
    | nil => exact (word.append .nil).append .nil
    | cons p rest => exact (word.cons flowsSpace).append ofParents
  cases complete with
  | true => exact listed.append (.text " complete")
  | false => exact listed.append .nil

theorem flowsFormalPlace (i : Nat) : Flows .word [.text (" _" ++ toString i)] .word := by
  have same : (Piece.text (" _" ++ toString i)).chars = chars [.space, .text ("_" ++ toString i)] := by
    simp [Piece.chars, Piece.string]
  exact .joined same (.cons flowsSpace (flowsPlain (writtenPlace i) (plainPlace i)).enter)

theorem flowsOptionalLeading {n : Option String} {type : Ty} (ofName : every printable n)
    (ofType : every printable type) : Flows .free (typed n type) .word := by
  cases n with
  | none => exact (flowsTy type ofType).enter
  | some n => exact ((flowsName (ofName n rfl)).enter.append (.text ": ")).append (flowsTy type ofType).enter

theorem flowsFunctionFormal {f : Formal} (pass : every printable f) : Flows .free (functionFormal f) .word :=
  (flowsAttributeList pass.2.2.2).append (flowsOptionalLeading pass.1 pass.2.1)

theorem flowsFunctionResult {f : Formal} (pass : every printable f) : Flows .word (functionResult f) .word := by
  rw [functionResult]
  split
  · exact .cons (.text " returns ") (flowsWrapped (e := .free) (flowsFunctionFormal pass))
  · exact .cons (.text ": ") (flowsTy f.type pass.2.1)

theorem flowsFormal {f : Formal} (pass : every printable f) (withAttributes : Bool) :
    Flows .free (formal withAttributes f) .word := by
  have front : Flows .free (if withAttributes then attributes f.attributes else []) .free := by
    cases withAttributes with
    | true => exact flowsAttributeList pass.2.2.2
    | false => exact .nil
  exact (front.append (flowsOptionalLeading pass.1 pass.2.1)).append (flowsOptionalWhere pass.2.2.1)

theorem flowsSignature {n : String} {params : List Ident} {ins outs : List Formal} (withAttributes : Bool)
    (named : isWritten n) (ofParams : every printable params) (ofIns : every printable ins)
    (ofOuts : every printable outs) : Flows .free (signature withAttributes n params ins outs) .word := by
  have formals {fs : List Formal} (pass : every printable fs) :
      Flows .free (commaList (fs.map (formal withAttributes))) .word :=
    flowsComma fun f mem => flowsFormal (pass f mem) withAttributes
  have front : Flows .free (name n ++ optionalTypeParams params ++
      wrapped (commaList (ins.map (formal withAttributes)))) .word :=
    ((flowsName named).enter.append (flowsOptionalTypeParams ofParams)).append
      (flowsWrapped (formals ofIns))
  rw [signature]
  split
  · exact front.append .nil
  · exact front.append (.cons (.text " returns ") (flowsWrapped (e := .free) (formals ofOuts)))

theorem flowsConstant {c : Constant} (pass : every printable c) : Flows .free (constant c) .free := by
  obtain ⟨named, ofType, ofParents, ofAs⟩ := pass
  have opened : Flows .free (.text "const " :: attributes c.attributes) .free :=
    .cons (.text "const ") (flowsAttributeList ofAs)
  have front := (opened.append ((flowsUnique c.unique).cons (flowsName named).enter)).append
    (.cons (.text ": ") (flowsTy c.type ofType))
  rw [constant]
  cases same : c.parents with
  | none => exact (front.append .nil).append (.text ";")
  | some parents => exact (front.append (flowsExtension (ofParents parents same) c.complete)).append (.text ";")

theorem flowsFunction {f : Function} (pass : every printable f) : Flows .free (function f) .word := by
  obtain ⟨named, ofParams, ofFormals, ofResult, ofBody, ofAs⟩ := pass
  have formals : Flows .free (commaList (f.formals.map functionFormal)) .word :=
    flowsComma fun x mem => flowsFunctionFormal (ofFormals x mem)
  have opened : Flows .free (.text "function " :: attributes f.attributes) .free :=
    .cons (.text "function ") (flowsAttributeList ofAs)
  have front := (((opened.append (flowsName named).enter).append
    (flowsOptionalTypeParams ofParams)).append (flowsWrapped formals)).append
      (flowsFunctionResult ofResult)
  rw [function]
  cases same : f.body with
  | none => exact front.append (.text ";")
  | some e =>
    exact front.append ((Flows.cons (.text " \x7b ") (flowsExpr (ofBody e same))).append (.text " \x7d"))

theorem flowsProcedure {p : Procedure} (pass : every printable p) (depth : Nat) :
    Flows .free (procedure depth p) .free := by
  obtain ⟨named, ofParams, ofIns, ofOuts, ofRequires, ofModifies, ofEnsures, ofAs⟩ := pass
  have opened : Flows .free (.text "procedure " :: attributes p.attributes) .free :=
    .cons (.text "procedure ") (flowsAttributeList ofAs)
  have front := (opened.append (flowsSignature true named ofParams ofIns ofOuts)).append
    (.cons (.text ";") (flowsClauses flowsRequiresWord (depth + 1) ofRequires))
  have modified : Flows .free (if p.modifies.isEmpty then []
      else openedLine (depth + 1) (.text "modifies " :: names p.modifies ++ [Piece.text ";"])) .free := by
    split
    · exact .nil
    · exact flowsOpenedLine ((Flows.cons (.text "modifies ") (flowsNames ofModifies)).append (.text ";"))
  exact (front.append modified).append (flowsClauses flowsEnsuresWord (depth + 1) ofEnsures)

theorem flowsImplementation {i : Implementation} (pass : every printable i) (depth : Nat) :
    Flows .free (implementation depth i) .word := by
  obtain ⟨named, ofParams, ofIns, ofOuts, ofLocals, ofBody, ofAs⟩ := pass
  exact ((Flows.cons (.text "implementation ") (flowsAttributeList ofAs)).append
    (flowsSignature false named ofParams ofIns ofOuts)).append (.cons flowsSpace (flowsBody ofLocals ofBody depth))

theorem flowsDeclBody {d : Decl} (pass : every printable d) (depth : Nat) : Flows .free (declBody depth d) .word := by
  have inside := pass.2
  cases d with
  | constant c => exact (flowsConstant inside).loosen
  | typeConstructor t =>
    have places : Flows .word ((List.range t.arity).map fun i => .text (" _" ++ toString i)) .word := by
      rw [← List.flatMap_singleton' (List.map _ _), List.flatMap_map]
      exact flowsEach fun i _ => flowsFormalPlace i
    exact (((Flows.cons (.text "type ") (flowsAttributeList inside.2)).append (flowsName inside.1).enter).append
      places).append (.text ";")
  | typeSynonym t =>
    obtain ⟨named, ofParams, ofBody, ofAs⟩ := inside
    have params : Flows .word (t.params.flatMap fun p => .space :: name p.name) .word :=
      flowsEach fun p mem => .cons flowsSpace (flowsName (ofParams p mem)).enter
    exact ((((Flows.cons (.text "type ") (flowsAttributeList ofAs)).append (flowsName named).enter).append
      params).append (.cons (.text " = ") (flowsTy t.body ofBody))).append (.text ";")
  | function f => exact flowsFunction inside
  | axiomatic a =>
    exact ((Flows.cons (.text "axiom ") (flowsAttributeList inside.2)).append (flowsExpr inside.1).enter).append
      (.text ";")
  | global v => exact (flowsVariable inside).loosen
  | procedure p => exact (flowsProcedure inside depth).loosen
  | implementation i => exact flowsImplementation inside depth

theorem flowsDecl {d : Decl} (pass : every printable d) : Flows .free (decl d) .free :=
  flowsLine (flowsDeclBody pass 0)

theorem flowsDeclsAfter {ds : List Decl} (pass : every printable ds) (apart : Bool) :
    Flows .free (declsAfter apart ds) .free := by
  induction ds generalizing apart with
  | nil => exact .nil
  | cons d rest ih =>
    obtain ⟨first, others⟩ := List.forall_mem_cons.mp pass
    have blank : Flows .free (if apart || standsApart d then [.newline] else []) .free := by
      split
      · exact flowsNewline rfl
      · exact .nil
    exact (blank.append (flowsDecl first)).append (ih others (standsApart d))

theorem flowsProgram {p : Program} (pass : every printable p) : Flows .free (program p) .free := by
  obtain ⟨decls⟩ := p
  cases decls with
  | nil => exact .nil
  | cons d rest =>
    obtain ⟨first, others⟩ := List.forall_mem_cons.mp pass
    exact (flowsDecl first).append (flowsDeclsAfter others (standsApart d))

end Boogie.Layout
