import Boogie.Proofs.Parens.Expr
import Boogie.Proofs.Parens.Sound

/-! Every expression that can be written in a source has a sketch that is read word by word, also without a pair of
parentheses around an operand. -/
namespace Boogie.Layout.Sketch

open Token (Kind Spelling Word)

theorem wordsBounds (upper lower : Nat) : (Layout.bounds upper lower).words =
    [Word.of .leftBracket, digitsWord upper, Word.of .colon, digitsWord lower, Word.of .rightBracket] := by
  rw [Flows.wordsJoined (boundsChars upper lower) (flowsBounds upper lower)]
  simp only [boundsPieces, wordsOfCons, wordsOfNil, digitsWords, textWords]
  rfl

theorem soundBounds (upper lower : Nat) : Sound .word (bounds upper lower) .word := by
  have words := wordsBounds upper lower
  refine .piece (.joined (boundsChars upper lower) (flowsBounds upper lower)) ?_ ?_
  · exact (congrArg gistsOf words).trans rfl
  · have solid : ∀ w ∈ (Layout.bounds upper lower).words, isSolid w.kind = true := by
      rw [words]
      simp [digitsWord, Word.of, isSolid]
    exact .solid solid

theorem soundLiteral {v : Literal} {w : Word} (worded : IsWorded v w) :
    Sound .mark (plain [⟨.text v.text, [.other]⟩]) .word := by
  obtain ⟨_, solid, plain⟩ := solidLiteral worded.sort
  exact .word worded.flows worded.alone solid (plain w.text)

def sounding : Facts where
  expr e := Sound .mark (expr e) .word ∧ (precedence e < atomPrecedence → Joins (expr e).words)
  attr a := Sound .free (braced a) .word
  trigger t := Sound .free (trigger t) .word
  var v := Sound .free (boundVariable v) .word ∧ Sound .free (variableDecl v) .free
  letVar v := Sound .free (letVar v) .word
  target t := Sound .free (target t) .word
  call x := Sound .free (callAttributes x) .free ∧ Sound .free (callParams x) .word
  cmd x := Sound .free (cmd x) .free
  transfer t := Sound .free (transfer t) .free
  block b := Sound .free (block b) .free

section Nodes

variable {span : Span}

theorem soundExprs {es : List Expr} (each : ∀ e ∈ es, sounding.expr e) : Sound .free (commas (exprs es)) .word := by
  rw [exprsMap]
  exact .commas fun e mem => (each e mem).1.enter

theorem soundAttributes {as : List Attribute} (each : ∀ a ∈ as, sounding.attr a) : Sound .free (attributes as) .free := by
  rw [attributesSpaced]
  exact .spacedEach each

theorem soundInfixed (op : BinaryOp) : Sound .word (infixed op) .free := by
  have symbol : Sound .free (fixed op.symbol) .blank :=
    .row op.symbol (by cases op <;> decide) (by cases op <;> decide) (by cases op <;> rfl)
  exact Sound.spaced.append (symbol.append Sound.spaced)

theorem wordsFixed (s : String) [l : Terminals s] : (fixed s).words = (Spelling.kinds l.row).map Word.of :=
  (List.append_nil _).trans (textWords s)

theorem wordsInfixed (op : BinaryOp) : ∃ w, (infixed op).words = [w] ∧ isSolid w.kind = true := by
  refine ⟨.of (kindOfBinary op), ?_, by cases op <;> rfl⟩
  have none : space.words = [] := (List.append_nil _).trans spaceWords
  rw [infixed, wordsAppend, wordsAppend, none, wordsFixed]
  rfl

theorem operatorsBelow (op : BinaryOp) : op.precedence < atomPrecedence := by cases op <;> decide

theorem belowOfLeft {op : BinaryOp} {e : Expr} (wraps : wrapsLeft op e = true) : precedence e < atomPrecedence := by
  have below := operatorsBelow op
  have other (mixed : isOtherLogical op e = true) : precedence e < atomPrecedence := by
    unfold isOtherLogical at mixed
    split at mixed
    · rw [Grammar.precedenceOfBinary ‹_›]
      exact operatorsBelow _
    · rw [Grammar.precedenceOfBinary ‹_›]
      exact operatorsBelow _
    · exact absurd mixed Bool.false_ne_true
  unfold wrapsLeft at wraps
  split at wraps
  · rcases (Bool.or_eq_true _ _).mp wraps with less | mixed
    · exact Nat.lt_trans (of_decide_eq_true less) below
    · exact other mixed
  all_goals exact Nat.lt_of_le_of_lt (of_decide_eq_true wraps) below

theorem belowOfRight {op : BinaryOp} {e : Expr} (wraps : wrapsRight op e = true) : precedence e < atomPrecedence := by
  have below := operatorsBelow op
  unfold wrapsRight at wraps
  split at wraps
  · exact Nat.lt_of_le_of_lt (of_decide_eq_true wraps) below
  · exact Nat.lt_of_le_of_lt (of_decide_eq_true wraps) below
  · exact Nat.lt_trans (of_decide_eq_true wraps) below

theorem soundBetween {left right : Expr} (wrapsLeft wrapsRight : Bool) {middle : Sketch} (ofLeft : sounding.expr left)
    (ofRight : sounding.expr right) (joinsLeft : wrapsLeft = true → precedence left < atomPrecedence)
    (joinsRight : wrapsRight = true → precedence right < atomPrecedence) (ofMiddle : Sound .word middle .free)
    (alone : ∃ w, middle.words = [w] ∧ isSolid w.kind = true) :
    let S := wrappedIf wrapsLeft (expr left) ++ (middle ++ wrappedIf wrapsRight (expr right))
    Sound .mark S .word ∧ Joins S.words := by
  obtain ⟨w, words, solid⟩ := alone
  have behind : Sound .word (middle ++ wrappedIf wrapsRight (expr right)) .word :=
    .operandBehind (fun wraps => ofRight.2 (joinsRight wraps)) ofMiddle ⟨[], w, words, solid⟩ ofRight.1.enter
  refine ⟨.operandBefore (fun wraps => ofLeft.2 (joinsLeft wraps)) ofLeft.1 behind ?_, ?_⟩
  · rw [wordsAppend, words]
    exact ⟨w, _, rfl, solid⟩
  · refine ⟨(wrappedIf wrapsLeft (expr left)).words, w, (wrappedIf wrapsRight (expr right)).words, ?_, solid, ?_⟩
    · rw [wordsAppend, wordsAppend, words]
      rfl
    · exact (Sound.balancedWrappedIf ofLeft.1 _).settled

theorem soundBased {map : Expr} {T : Sketch} {e : Edge} (h : sounding.expr map) (t : Sound .word T e)
    (begins : BeginsSolid T.words) : Sound .mark (based map ++ T) e :=
  .operandBefore (fun wraps => h.2 (of_decide_eq_true wraps)) h.1 t begins

theorem beginsFixed (s : String) [l : Terminals s] {k : Kind} {rest : List Kind} (row : Spelling.kinds l.row = k :: rest)
    (solid : isSolid k = true) (T : Sketch) : BeginsSolid (fixed s ++ T).words := by
  rw [wordsAppend, wordsFixed, row]
  exact ⟨.of k, _, rfl, solid⟩

theorem soundApplied {op : Operator} {args : List Expr} (applied : Applied op args) (ofOp : every spelled op)
    (each : ∀ e ∈ args, sounding.expr e) : sounding.expr (.apply span op args) := by
  have atom {S : Sketch} (h : Sound .mark S .word) :
      Sound .mark S .word ∧ (atomPrecedence < atomPrecedence → Joins S.words) :=
    ⟨h, fun less => absurd less (Nat.lt_irrefl _)⟩
  cases applied with
  | binary op left right =>
    have both := soundBetween (wrapsLeft op left) (wrapsRight op right) (each left (by simp)) (each right (by simp))
      belowOfLeft belowOfRight (soundInfixed op) (wordsInfixed op)
    exact ⟨both.1, fun _ => both.2⟩
  | unary op operand =>
    have symbol : Sound .mark (fixed op.symbol) .mark :=
      .row op.symbol (by cases op <;> decide) (by cases op <;> decide) (by cases op <;> rfl)
    have inner := each operand (by simp)
    have words : (fixed op.symbol).words = [Word.of (kindOfUnary op)] := wordsFixed op.symbol
    have solid : isSolid (Word.of (kindOfUnary op)).kind = true := by cases op <;> rfl
    refine ⟨.operandBehind (fun wraps => inner.2 ?_) symbol ⟨[], _, words, solid⟩ inner.1, fun _ => ?_⟩
    · exact Nat.lt_trans (of_decide_eq_true wraps) (by decide)
    · refine ⟨[], Word.of (kindOfUnary op), (wrappedIf (precedence operand < unaryPrecedence) (expr operand)).words, ?_,
        solid, rfl⟩
      rw [exprUnary, wordsAppend, words]
      rfl
  | concat left right =>
    have both := soundBetween (precedence left < concatPrecedence) (precedence right ≤ concatPrecedence)
      (each left (by simp)) (each right (by simp))
      (fun wraps => Nat.lt_trans (of_decide_eq_true wraps) (by decide))
      (fun wraps => Nat.lt_of_le_of_lt (of_decide_eq_true wraps) (by decide)) (.text " ++ " rfl)
      ⟨_, wordsFixed " ++ ", rfl⟩
    exact ⟨both.1, fun _ => both.2⟩
  | call function args =>
    refine atom ?_
    rw [exprCall]
    exact (Sound.name ofOp).append (.wrapped (soundExprs each))
  | select map indexes =>
    obtain ⟨ofMap, ofIndexes⟩ := List.forall_mem_cons.mp each
    refine atom ?_
    rw [exprSelect]
    exact soundBased ofMap ((Sound.text "[" rfl).append ((soundExprs ofIndexes).append (.text "]" rfl)))
      (beginsFixed "[" rfl rfl _)
  | store map indexes value =>
    obtain ⟨ofMap, others⟩ := List.forall_mem_cons.mp each
    obtain ⟨ofIndexes, ofValue⟩ := List.forall_mem_append.mp others
    have ofLast := List.forall_mem_singleton.mp ofValue
    have assigned : Sound .free (fixed ":= " ++ (expr value ++ fixed "]")) .word :=
      (Sound.text ":= " rfl).append (ofLast.1.append (.text "]" rfl))
    have behind : Sound .free (commas (exprs indexes) ++ (spaceUnless indexes.isEmpty ++
        (fixed ":= " ++ (expr value ++ fixed "]")))) .word := by
      cases indexes with
      | nil => exact (Sound.nil : Sound .free nothing .free).append (Sound.nil.append assigned)
      | cons first rest => exact (soundExprs ofIndexes).append (Sound.spaced.append assigned)
    refine atom ?_
    rw [exprStore]
    exact soundBased ofMap ((Sound.text "[" rfl).append behind) (beginsFixed "[" rfl rfl _)
  | ifThenElse condition thenPart elsePart =>
    have ofCondition := each condition (by simp)
    have ofThen := each thenPart (by simp)
    have ofElse := each elsePart (by simp)
    have inside : Sound .free (expr condition ++ (fixed " then " ++ (expr thenPart ++ (fixed " else " ++ expr elsePart))))
        .word := ofCondition.1.enter.append ((Sound.text " then " rfl).append (ofThen.1.append
      ((Sound.text " else " rfl).append ofElse.1)))
    have whole : Sound .mark _ .word := .parens (s := "(if ") rfl rfl (.text "(if ") inside
    simp only [appendAssoc] at whole
    exact atom whole
  | convert goal operand =>
    have word : Sound .mark (fixed goal.keyword) .word :=
      .row goal.keyword (by cases goal <;> decide) (by cases goal <;> decide) (by cases goal <;> rfl)
    exact atom (word.append (.wrapped (each operand (by simp)).1.enter))
  | coerce type operand =>
    have ofBase := soundBased (each operand (by simp)) ((Sound.text " : " rfl).append (soundTy type ofOp))
      (beginsFixed " : " rfl rfl _)
    exact atom (.wrapped ofBase.enter)
  | extract upper lower operand =>
    have words : (bounds upper lower).words = _ := (List.append_nil _).trans (wordsBounds upper lower)
    exact atom (soundBased (each operand (by simp)) (soundBounds upper lower) ⟨_, _, words, rfl⟩)

theorem soundBraced {key : String} {params : List AttributeParam} (named : isWritten key)
    (ofStrings : ∀ content, .string content ∈ params → isQuotable content)
    (ofExprs : ∀ e, .expr e ∈ params → sounding.expr e) : Sound .free (braced ⟨key, params, span⟩) .word := by
  have inside : Sound .free (commas (attributeParams params)) .word := by
    rw [attributeParamsMap]
    refine .commas fun p mem => ?_
    cases p with
    | string content =>
      obtain ⟨flows, w, alone, sort, _⟩ := legibleString (ofStrings content mem)
      exact (soundLiteral ⟨flows, alone, sort⟩).enter
    | expr e => exact (ofExprs e mem).1.enter
  have closing : Sound .word (fixed "\x7d") .word := .text "\x7d" rfl
  have opening : Sound .free (fixed "\x7b:") .mark := .text "\x7b:" rfl
  cases params with
  | nil => exact opening.append ((Sound.name named).append (Sound.nil.append (Sound.nil.append closing)))
  | cons p rest => exact opening.append ((Sound.name named).append (Sound.spaced.append (inside.append closing)))

theorem soundTrigger {positive : Bool} {es : List Expr} (each : ∀ e ∈ es, sounding.expr e) :
    Sound .free (trigger ⟨positive, es, span⟩) .word := by
  have behind : Sound .free (commas (exprs es) ++ fixed "\x7d") .word := (soundExprs each).append (.text "\x7d" rfl)
  cases positive with
  | true => exact (Sound.text "\x7b" rfl).append behind
  | false =>
    refine Sound.append ?_ behind
    have words : (Piece.text "\x7b:nopats ").words = [Word.of .leftBrace, Word.of .colon, nameWord "nopats"] := by
      have key : wordsOf (Layout.name "nopats") = [nameWord "nopats"] := nameWords (by rw [isWritten]; rfl)
      have front : wordsOf negativeFront = (Piece.text "\x7b:").words ++ wordsOf (Layout.name "nopats" ++ [.space]) := rfl
      rw [Flows.wordsJoined negativeChars flowsNegativeFront, front, wordsOfAppend, key, textWords, wordsOfCons, spaceWords]
      rfl
    refine .piece (.joined negativeChars flowsNegativeFront) ?_ ?_
    · rw [words]
      decide
    · rw [words]
      exact .solid (by decide)

theorem soundWhere {o : Option Expr} (each : ∀ e ∈ o, sounding.expr e) : Sound .word (optionalWhere o) .word := by
  cases o with
  | none => exact .nil
  | some e => exact (Sound.text " where " rfl).append (each e rfl).1.enter

theorem soundBound {ps : List Ident} {vars : List Variable} (ofPs : every spelled ps)
    (ofVars : ∀ v ∈ vars, sounding.var v) : Sound .free (typeParams ps ++ (spaceUnless (ps.isEmpty || vars.isEmpty) ++
      commas (boundVariables vars))) .word := by
  have declared : Sound .free (commas (boundVariables vars)) .word := by
    rw [boundVariablesMap]
    exact .commas fun v mem => (ofVars v mem).1
  cases ps with
  | nil => exact (Sound.nil : Sound .free nothing .free).append (Sound.nil.append declared)
  | cons p rest =>
    have params : Sound .word (typeParams (p :: rest)) .word := soundTypeParams ofPs
    cases vars with
    | nil => exact params.enter.append (Sound.nil.append .nil)
    | cons v vars => exact params.enter.append (Sound.spaced.append declared)

end Nodes

theorem soundingFollows : sounding.Follow spelled where
  literal here := by
    obtain ⟨_, w, worded⟩ := here
    exact ⟨soundLiteral worded, fun less => absurd less (Nat.lt_irrefl _)⟩
  name _ named := ⟨.name named, fun less => absurd less (Nat.lt_irrefl _)⟩
  old ofBody := by
    have word : Sound .mark (fixed "old") .word := .text "old" rfl
    exact ⟨word.append (.wrapped ofBody.1.enter), fun less => absurd less (Nat.lt_irrefl _)⟩
  apply here ofOp ofArgs := soundApplied (appliedOfFits here.1) ofOp ofArgs
  bind {_ binder _ _ _ _ _} _ ofPs ofVars ofAs ofTs ofBody := by
    have solid : [kindOfBinder binder].all isSolid = true := by cases binder <;> rfl
    have ofTriggers := Sound.spacedEach ofTs
    rw [← triggersSpaced] at ofTriggers
    have inside := (soundBound ofPs ofVars).append ((Sound.text " :: " rfl).append ((soundAttributes ofAs).append
      (ofTriggers.append ofBody.1.enter)))
    have whole : Sound .mark _ .word := .parens rfl solid (flowsBinder binder) inside
    simp only [appendAssoc] at whole
    exact ⟨whole, fun less => absurd less (Nat.lt_irrefl _)⟩
  letIn _ ofVars ofValues ofAs ofBody := by
    have ofLetVars := Sound.commas ofVars
    rw [← letVarsMap] at ofLetVars
    have inside := ofLetVars.append ((Sound.text " := " rfl).append ((soundExprs ofValues).append
      ((Sound.text "; " rfl).append ((soundAttributes ofAs).append ofBody.1.enter))))
    have whole : Sound .mark _ .word := .parens rfl rfl (.text "(var ") inside
    simp only [appendAssoc] at whole
    exact ⟨whole, fun less => absurd less (Nat.lt_irrefl _)⟩
  code _ ofLocals ofBlocks := by
    have declared := Sound.spacedEach fun v mem => (ofLocals v mem).2
    have ofBs := Sound.spacedEach ofBlocks
    rw [← localDeclsSpaced] at declared
    rw [← blocksSpaced] at ofBs
    have whole : Sound .mark _ .word := (Sound.text "|\x7b " rfl).append (declared.append (ofBs.append (.text "\x7d|" rfl)))
    exact ⟨whole, fun less => absurd less (Nat.lt_irrefl _)⟩
  attr here named ofParams := soundBraced named here ofParams
  trigger _ ofExprs := soundTrigger ofExprs
  var named ofType ofWhere ofAs := by
    have ofAttributes := soundAttributes ofAs
    have front : Sound .free (name _) .word := (Sound.name named).enter
    constructor
    · exact ofAttributes.append (front.append ((Sound.text ": " rfl).append (soundTy _ ofType)))
    · exact (Sound.text "var " rfl).append (ofAttributes.append (front.append ((Sound.text ": " rfl).append
        ((soundTy _ ofType).append ((soundWhere ofWhere).append (.text ";" rfl))))))
  letVar named ofAs := (soundAttributes ofAs).append (Sound.name named).enter
  targetName named := (Sound.name named).enter
  element ofMap ofIndexes := Sound.append ofMap ((Sound.text "[" rfl).append ((soundExprs ofIndexes).append (.text "]" rfl)))
  call {_ _ _ _ outs _ _} ofCallee ofIns ofOuts ofAs := by
    have called := (Sound.name ofCallee).enter.append (.wrapped (soundExprs ofIns) : Sound .word _ .word)
    refine ⟨soundAttributes ofAs, ?_⟩
    cases outs with
    | nil => exact (Sound.nil : Sound .free nothing .free).append called
    | cons out rest => exact ((soundNames ofOuts).append (.text " := " rfl)).append called
  assign _ ofTargets ofValues := by
    have left := Sound.commas ofTargets
    rw [← targetsMap] at left
    exact left.append ((Sound.text " := " rfl).append ((soundExprs ofValues).append (.text ";" rfl)))
  assert ofAs ofE := (Sound.text "assert " rfl).append ((soundAttributes ofAs).append (ofE.1.enter.append (.text ";" rfl)))
  assume ofAs ofE := (Sound.text "assume " rfl).append ((soundAttributes ofAs).append (ofE.1.enter.append (.text ";" rfl)))
  havoc _ ofVars := (Sound.text "havoc " rfl).append ((soundNames ofVars).append (.text ";" rfl))
  callCmd ofX := by
    have words (isAsync isFree : Bool) : Sound .free (callWords isAsync isFree) .free :=
      .row _ (by cases isAsync <;> cases isFree <;> decide) (by cases isAsync <;> cases isFree <;> decide)
        (by cases isAsync <;> cases isFree <;> rfl)
    exact (words _ _).append (ofX.1.append (ofX.2.append (.text ";" rfl)))
  parallel _ ofCalls ofAs := by
    have members := Sound.joined (.text " | " rfl) (List.forall_mem_map.mpr fun x mem => (ofCalls x mem).2)
    rw [← callListMap] at members
    exact (Sound.text "par " rfl).append ((soundAttributes ofAs).append (members.append (.text ";" rfl)))
  yield := .text "yield;" rfl
  goto ofLabels := (Sound.text "goto " rfl).append ((soundNames ofLabels).append (.text ";" rfl))
  leave := .text "return;" rfl
  leaveWith ofValue := (Sound.text "return " rfl).append (ofValue.1.append (.text ";" rfl))
  block _ named ofCmds ofTransfer := by
    have commands := Sound.spacedEach ofCmds
    rw [← cmdsSpaced] at commands
    exact (Sound.name named).enter.append ((Sound.text ": " rfl).append (commands.append ofTransfer))

theorem soundExpr {e : Expr} (pass : every spelled e) : Sound .mark (expr e) .word := (soundingFollows.ofExpr e pass).1

end Boogie.Layout.Sketch
