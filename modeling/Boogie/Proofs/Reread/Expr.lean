import Boogie.Proofs.Reread.Cmd

/-! Printed expressions are read back: what is printable of the tree alone makes its words those of the grammar. -/
namespace Boogie.Grammar

open Token (Kind Word Spelling)
open Layout (Piece wordsOf commaList textWords Terminals printable isWritten nameWord nameWords precedence wrappedIf
  opensWithString firstOpensWithString leadsWith kindOfUnary kindOfBinary kindOfConversion kindOfBinder based)

section Nodes

variable {span : Span} {e : Expr} {w : Word} {more : List Word}

theorem rereadAtom (words : wordsOf (Layout.expr e) = w :: more) (other : w.kind ≠ .string)
    (plain : opensWithString e = false) (derives : Derives readable (.expr .atom) (w :: more) (bare e)) : IsReread e where
  derived rank _ := words ▸ .ofAtom derives rank
  opening := by
    rw [words, plain]
    exact iff_of_false other Bool.false_ne_true

theorem rereadOther (words : wordsOf (Layout.expr e) = w :: more) (starts : exprStart.contains w.kind = true)
    (unsigned : unaryOp w.kind = none) (other : w.kind ≠ .string) (plain : opensWithString e = false)
    (reads : ∀ rest, Reads (w :: more) rest (Alike e) (atom operand)) : IsReread e :=
  rereadAtom words other plain (.otherAtom ⟨⟨w, more, rfl, starts, fun _ => unsigned⟩, fun rest _ =>
    (reads rest).weaken fun _ same => same.symm⟩)

theorem stringWord {v : Literal} (read : literalOfWord w = some v) : w.kind = .string ↔ Layout.isString v = true := by
  rw [literalOfWord, literalOf] at read
  split at read <;> simp only [Option.map_eq_some_iff, Option.some.injEq] at read
  case h_1 | h_2 | h_8 => simp_all [Layout.isString, ← read]
  all_goals
    obtain ⟨_, _, rfl⟩ := read
    simp_all [Layout.isString]

theorem rereadLiteral {v : Literal} (legible : Layout.IsLegible v) : IsReread (.literal span v) := by
  obtain ⟨w, word, sort, read⟩ := legible.word
  have words : wordsOf (Layout.expr (.literal span v)) = [w] := by
    rw [Layout.expr, Layout.wordsOfCons, word, Layout.wordsOfNil, List.append_nil]
  refine ⟨fun rank _ => ?_, ?_⟩
  · rw [words]
    exact .ofAtom (.literal sort read) rank
  · rw [words]
    exact stringWord read

theorem rereadNamed {n : String} (written : isWritten n) : IsReread (.name span n) := by
  have derives : Derives readable (.expr .atom) [nameWord n] (bare (.name span n)) := by
    have word : Derives readable (.expr .atom) [nameWord n] _ := .name
    rwa [show Reads.nameOf (Name.escape n).toList = n from Layout.nameOfWord written] at word
  exact rereadAtom (nameWords written) (ne_of_beq_false rfl) rfl derives

theorem readsParenthesized (h : IsReread e) (rest : List Word) :
    Reads (Word.of .leftParen :: (wordsOf (Layout.expr e) ++ [Word.of .rightParen])) rest (Alike e)
      (parenthesized expression) :=
  .expect rfl (.bind (readsExpr h (by decide : endsExpr .rightParen)) fun a same => .expectLast rfl (.pure same))

theorem rereadOld (ofBody : IsReread e) : IsReread (.old span e) := by
  have words : wordsOf (Layout.expr (.old span e)) =
      Word.of .kwOld :: (Word.of .leftParen :: (wordsOf (Layout.expr e) ++ [Word.of .rightParen])) := by
    simp [Layout.expr, wordsWrapped, textWords, Terminals.row, Spelling.kinds]
  refine rereadOther words (by decide) rfl (ne_of_beq_false rfl) rfl fun rest => .byKind rfl (.advance fun t _ => ?_)
  refine .last (readsParenthesized ofBody rest) fun a same => .spanFrom fun span' => .pure ?_
  simpa [Alike, bare] using same

theorem rereadConvert {goal : Conversion} (ofE : IsReread e) : IsReread (.apply span (.convert goal) [e]) := by
  have words : wordsOf (Layout.expr (.apply span (.convert goal) [e])) =
      Word.of (kindOfConversion goal) :: (Word.of .leftParen :: (wordsOf (Layout.expr e) ++ [Word.of .rightParen])) := by
    simp [Layout.exprConvert, wordsWrapped, textWords, Terminals.row, Spelling.kinds]
  have converted (rest : List Word) (w : Word) :
      Reads (w :: Word.of .leftParen :: (wordsOf (Layout.expr e) ++ [Word.of .rightParen])) rest
        (Alike (.apply span (.convert goal) [e])) (converted goal expression) := by
    refine .advance fun t _ => .last (readsParenthesized ofE rest) fun a same => .spanFrom fun span' => .pure ?_
    simpa [Alike, bare] using same
  cases goal with
  | toInt => exact rereadOther words (by decide) rfl (ne_of_beq_false rfl) rfl fun rest => .byKind rfl (converted rest _)
  | toReal => exact rereadOther words (by decide) rfl (ne_of_beq_false rfl) rfl fun rest => .byKind rfl (converted rest _)

theorem rereadCallExpr {function : String} {args : List Expr} (written : isWritten function)
    (ofArgs : ∀ e ∈ args, IsReread e) : IsReread (.apply span (.call function) args) := by
  have words : wordsOf (Layout.expr (.apply span (.call function) args)) = nameWord function :: (Word.of .leftParen ::
      (wordsOf (commaList (args.map Layout.expr)) ++ [Word.of .rightParen])) := by
    rw [Layout.exprCall, Layout.wordsOfAppend, nameWords written, wordsWrapped]
    rfl
  have tree : bare (.apply span (.call function) args) = callTree (Reads.nameOf (nameWord function).text) (bare args) := by
    rw [Layout.nameOfWord written]
    simp [bare, callTree]
  refine rereadAtom words (ne_of_beq_false rfl) ?_ ?_
  · cases args <;> rfl
  · rw [tree]
    cases args with
    | nil => exact .callNone
    | cons e es => exact .call (derivedExprs (List.cons_ne_nil e es) fun e mem => (ofArgs e mem).derived)

theorem wrappedOpens (h : IsReread e) (wraps : Bool) (rest : List Word) :
    headKind (wordsOf (wrappedIf wraps (Layout.expr e)) ++ rest) = .string ↔ (!wraps && opensWithString e) = true := by
  cases wraps with
  | true =>
    rw [wrappedIf, if_pos rfl, wordsWrapped]
    exact iff_of_false (ne_of_beq_false rfl) Bool.false_ne_true
  | false =>
    obtain ⟨w, more, words, _⟩ := exprOpens h
    have opening := h.opening
    rw [words] at opening
    rw [wrappedIf, if_neg Bool.false_ne_true, words]
    simpa using opening

theorem rereadBinary {op : BinaryOp} {left right : Expr} (ofLeft : IsReread left) (ofRight : IsReread right) :
    IsReread (.apply span (.binary op) [left, right]) := by
  have words : wordsOf (Layout.expr (.apply span (.binary op) [left, right])) =
      wordsOf (wrappedIf (Layout.wrapsLeft op left) (Layout.expr left)) ++ Word.of (kindOfBinary op) ::
        wordsOf (wrappedIf (Layout.wrapsRight op right) (Layout.expr right)) := by
    simp [Layout.exprBinary, textWords, Terminals.row, Spelling.kinds]
  have tree : bare (.apply span (.binary op) [left, right]) = binaryTree op (bare left) (bare right) := by
    simp [bare, binaryTree]
  refine ⟨fun rank stands => ?_, ?_⟩
  · rw [words, tree]
    exact .binary (ofLeft.derived.left op) (ofRight.derived.right op) rank stands
  · rw [words, wrappedOpens ofLeft]
    rfl

theorem rereadUnary {op : UnaryOp} (ofE : IsReread e) : IsReread (.apply span (.unary op) [e]) := by
  have words : wordsOf (Layout.expr (.apply span (.unary op) [e])) = Word.of (kindOfUnary op) ::
      wordsOf (wrappedIf (precedence e < Layout.unaryPrecedence) (Layout.expr e)) := by
    simp [Layout.exprUnary, textWords, Terminals.row, Spelling.kinds]
  have tree : bare (.apply span (.unary op) [e]) = unaryTree op (bare e) := by
    simp [bare, unaryTree]
  refine ⟨fun rank stands => ?_, ?_⟩
  · rw [words, tree]
    refine .sign (ofE.derived.operand fun unwrapped => ?_) rank stands.1
    exact standsTight (Nat.le_of_not_lt (of_decide_eq_false unwrapped)) (by decide) (by decide)
  · rw [words]
    cases op <;> exact iff_of_false (ne_of_beq_false rfl) Bool.false_ne_true

theorem rereadConcat {left right : Expr} (ofLeft : IsReread left) (ofRight : IsReread right) :
    IsReread (.apply span .concat [left, right]) := by
  have words : wordsOf (Layout.expr (.apply span .concat [left, right])) =
      wordsOf (wrappedIf (precedence left < Layout.concatPrecedence) (Layout.expr left)) ++ Word.of .concat ::
        wordsOf (wrappedIf (precedence right ≤ Layout.concatPrecedence) (Layout.expr right)) := by
    simp [Layout.exprConcat, textWords, Terminals.row, Spelling.kinds]
  have tree : bare (.apply span .concat [left, right]) = concatTree (bare left) (bare right) := by
    simp [bare, concatTree]
  refine ⟨fun rank stands => ?_, ?_⟩
  · rw [words, tree]
    refine .concat (ofLeft.derived.operand fun unwrapped => ?_) (ofRight.derived.operand fun unwrapped => ?_) rank stands.1
    · exact standsTight (Nat.le_of_not_lt (of_decide_eq_false unwrapped)) (by decide) (by decide)
    · exact standsTight (Nat.lt_of_not_le (of_decide_eq_false unwrapped)) (by decide) (by decide)
  · rw [words, wrappedOpens ofLeft]
    simp [opensWithString, firstOpensWithString, leadsWith]

theorem rereadIndexed {op : Operator} {args : List Expr} {inner : List Word} {f : Expr → Expr} (ofE : IsReread e)
    (words : wordsOf (Layout.expr (.apply span op (e :: args))) =
      wordsOf (based e) ++ Word.of .leftBracket :: (inner ++ [Word.of .rightBracket]))
    (tree : bare (.apply span op (e :: args)) = f (bare e)) (inside : Derives readable .inside inner f)
    (loose : precedence (.apply span op (e :: args)) = Layout.atomPrecedence)
    (leads : leadsWith op e = decide (Layout.atomPrecedence ≤ precedence e)) :
    IsReread (.apply span op (e :: args)) := by
  refine ⟨fun rank stands => ?_, ?_⟩
  · rw [words, tree]
    exact .ofBrackets (ofE.derived.based.grows rfl inside) rank (stands.1.trans (Nat.le_of_eq loose))
  · rw [words, based, wrappedOpens ofE]
    simp [opensWithString, firstOpensWithString, leads]

theorem rereadSelect {n : Nat} {indexes : List Expr} (count : indexes.length = n) (ofE : IsReread e)
    (ofIndexes : ∀ e ∈ indexes, IsReread e) : IsReread (.apply span (.select n) (e :: indexes)) := by
  have words : wordsOf (Layout.expr (.apply span (.select n) (e :: indexes))) = wordsOf (based e) ++
      Word.of .leftBracket :: (wordsOf (commaList (indexes.map Layout.expr)) ++ [Word.of .rightBracket]) := by
    simp [Layout.exprSelect, textWords, Terminals.row, Spelling.kinds]
  have tree : bare (.apply span (.select n) (e :: indexes)) = selectTree (bare indexes) (bare e) := by
    simp [bare, selectTree, count]
  refine rereadIndexed ofE words tree ?_ rfl rfl
  cases indexes with
  | nil => exact .empty
  | cons e es => exact .select (derivedExprs (List.cons_ne_nil e es) fun e mem => (ofIndexes e mem).derived)

theorem rereadStore {n : Nat} {indexes : List Expr} {value : Expr} (count : indexes.length = n) (ofE : IsReread e)
    (ofIndexes : ∀ e ∈ indexes, IsReread e) (ofValue : IsReread value) :
    IsReread (.apply span (.store n) (e :: (indexes ++ [value]))) := by
  have words : wordsOf (Layout.expr (.apply span (.store n) (e :: (indexes ++ [value])))) = wordsOf (based e) ++
      Word.of .leftBracket :: (wordsOf (commaList (indexes.map Layout.expr)) ++ Word.of .assign ::
        wordsOf (Layout.expr value) ++ [Word.of .rightBracket]) := by
    rw [Layout.exprStore]
    cases indexes <;> simp [textWords, Terminals.row, Spelling.kinds]
  have tree : bare (.apply span (.store n) (e :: (indexes ++ [value]))) =
      storeTree (bare indexes) (bare value) (bare e) := by
    simp [bare, storeTree, count]
  refine rereadIndexed ofE words tree ?_ rfl rfl
  cases indexes with
  | nil => exact .storeAll ofValue.derived.whole
  | cons e es =>
    exact .store (derivedExprs (List.cons_ne_nil e es) fun e mem => (ofIndexes e mem).derived) ofValue.derived.whole

theorem rereadExtract {upper lower : Nat} (fits : upper < Text.wordCount 32) (fits' : lower < Text.wordCount 32)
    (ofE : IsReread e) : IsReread (.apply span (.extract upper lower) [e]) := by
  have bounds : (Layout.bounds upper lower).words = [Word.of .leftBracket, Layout.digitsWord upper, Word.of .colon,
      Layout.digitsWord lower, Word.of .rightBracket] := by
    rw [Layout.Flows.wordsJoined (Layout.boundsChars upper lower) (Layout.flowsBounds upper lower)]
    rw [Layout.boundsPieces]
    simp only [Layout.wordsOfCons, Layout.wordsOfNil, Layout.digitsWords, textWords]
    rfl
  have words : wordsOf (Layout.expr (.apply span (.extract upper lower) [e])) = wordsOf (based e) ++ Word.of .leftBracket ::
      ([Layout.digitsWord upper, Word.of .colon, Layout.digitsWord lower] ++ [Word.of .rightBracket]) := by
    rw [Layout.exprExtract, Layout.wordsOfAppend, Layout.wordsOfCons, show (Piece.text _).words = _ from bounds]
    rfl
  have tree : bare (.apply span (.extract upper lower) [e]) = extractTree upper lower (bare e) := by
    simp [bare, extractTree]
  have number : IsNumber [Layout.digitsWord upper] upper := .digits (Text.readNatToDigits upper)
  have range : IsRange [Layout.digitsWord upper, Word.of .colon, Layout.digitsWord lower] upper lower :=
    .bounds number fits (Text.readNatToDigits lower) fits'
  have inside : readable.inside _ (extractTree upper lower) := fun text rest =>
    (readsBounds range text rest).weaken fun _ => IsBounds.isInside
  exact rereadIndexed ofE words tree (.otherInside inside) rfl rfl

theorem rereadParen {inner : List Word}
    (words : wordsOf (Layout.expr e) = Word.of .leftParen :: (inner ++ [Word.of .rightParen]))
    (plain : opensWithString e = false)
    (reads : ∀ rest, Reads (Word.of .leftParen :: (inner ++ [Word.of .rightParen])) rest (Alike e) (atom operand)) :
    IsReread e := rereadOther words (by decide) rfl (ne_of_beq_false rfl) plain reads

theorem rereadIfThenElse {condition thenPart elsePart : Expr} (ofCondition : IsReread condition)
    (ofThen : IsReread thenPart) (ofElse : IsReread elsePart) :
    IsReread (.apply span .ifThenElse [condition, thenPart, elsePart]) := by
  have words : wordsOf (Layout.expr (.apply span .ifThenElse [condition, thenPart, elsePart])) = Word.of .leftParen ::
      ((Word.of .kwIf :: (wordsOf (Layout.expr condition) ++ Word.of .kwThen :: (wordsOf (Layout.expr thenPart) ++
        Word.of .kwElse :: wordsOf (Layout.expr elsePart)))) ++ [Word.of .rightParen]) := by
    simp [Layout.exprIfThenElse, textWords, Terminals.row, Spelling.kinds]
  have inner (rest : List Word) (ends : endsExpr (headKind rest)) : Reads (Word.of .kwIf ::
      (wordsOf (Layout.expr condition) ++ Word.of .kwThen :: (wordsOf (Layout.expr thenPart) ++
        Word.of .kwElse :: wordsOf (Layout.expr elsePart)))) rest
      (fun a => bare a = bare (.apply span .ifThenElse [condition, thenPart, elsePart])) (atom operand) := by
    refine .byKind rfl (.advance fun t _ => ?_)
    refine .bind (readsExpr ofCondition (by decide : endsExpr .kwThen)) fun c sameC => .expect rfl ?_
    refine .bind (readsExpr ofThen (by decide : endsExpr .kwElse)) fun a sameA => .expect rfl ?_
    refine .last (readsExpr ofElse ends) fun b sameB => .pure ?_
    simp_all [Alike, bare]
  refine rereadParen words rfl fun rest => ?_
  have starts : Starts true (Word.of .kwIf :: (wordsOf (Layout.expr condition) ++ Word.of .kwThen ::
      (wordsOf (Layout.expr thenPart) ++ Word.of .kwElse :: wordsOf (Layout.expr elsePart)))) :=
    ⟨_, _, rfl, by decide, fun _ => rfl⟩
  have weak : endsExpr .rightParen := by decide
  exact (readsParen starts.loose (readsTightAtom starts weak (inner _ weak))).weaken fun _ same => same.symm

theorem rereadCoerce {type : Ty} (ofType : every printable type) (ofE : IsReread e) :
    IsReread (.apply span (.coerce type) [e]) := by
  have words : wordsOf (Layout.expr (.apply span (.coerce type) [e])) = Word.of .leftParen ::
      ((wordsOf (based e) ++ Word.of .colon :: wordsOf (Layout.ty type)) ++ [Word.of .rightParen]) := by
    simp [Layout.exprCoerce, wordsWrapped, textWords, Terminals.row, Spelling.kinds]
  have base (rest : List Word) : Reads (wordsOf (based e)) (Word.of .colon :: rest) (Alike e) (brackets operand) := by
    have weak : strength .colon < 10 := by decide
    have accepted := ofE.derived.based.accepted readableAccepted (Word.of .colon :: rest) weak
    exact (readsInside accepted).weaken fun _ same => same.symm
  have typed (rest : List Word) {a : Expr} (ofA : Alike e a) :
      Reads (wordsOf (Layout.ty type)) (Word.of .rightParen :: rest) (IsTree (bare (.apply span (.coerce type) [e]))) (coerced (.expr a)) := by
    obtain ⟨w, more, opens, starts⟩ := tyStarts ofType
    refine .ifYes ?_ (.last (readsTy type ofType _ (by decide : endsType .rightParen)) fun type' same => ?_)
    · rw [opens]
      exact starts
    · refine .stay (V := Alike e) (.pure ofA) fun b ofB => .pure (isTree ?_)
      simp_all [Alike, bare]
  have inner (rest : List Word) : Reads (wordsOf (based e) ++ Word.of .colon :: wordsOf (Layout.ty type))
      (Word.of .rightParen :: rest) (IsTree (bare (.apply span (.coerce type) [e]))) (coercion operand) := by
    refine .bind (base _) fun a ofA => ?_
    rw [← List.append_nil (wordsOf (Layout.ty type))]
    exact .whileEatsRound (by decide) rfl (typed rest ofA) fun o ofO =>
      .whileEatsDone (by decide : Kind.rightParen ≠ .colon) ofO
  have starts : Starts true (wordsOf (based e) ++ Word.of .colon :: wordsOf (Layout.ty type)) :=
    (ofE.derived.based.begins readableAccepted.starting).append _
  refine rereadParen words rfl fun rest => ?_
  exact (readsParen starts.loose (readsTight starts (by decide : endsExpr .rightParen) (inner rest))).weaken
    fun _ same => same.symm

end Nodes

section Binders

variable {span : Span} {ps : List Ident} {vars : List Variable} {as : List Attribute} {ts : List Trigger} {body : Expr}
  {rest : List Word}

theorem readsSomeVariables (rest : List Word) (filled : vars ≠ []) (each : ∀ v ∈ vars, IsVariableReread v)
    (plain : ∀ v ∈ vars, v.whereClause = none) :
    groupStart.contains (headKind (wordsOf (commaList (vars.map Layout.boundVariable)) ++ Word.of .separator :: rest)) =
        true ∧
      Reads (wordsOf (commaList (vars.map Layout.boundVariable))) (Word.of .separator :: rest) (Alike vars)
        (attributedGroups expression .boundVariables) := by
  refine ⟨?_, readsBoundVariables filled each plain (by decide : endsGroup .separator) (by decide : Kind.separator ≠ .comma)⟩
  obtain ⟨v, vs, rfl⟩ := List.exists_cons_of_ne_nil filled
  exact commaStarts (each v List.mem_cons_self).opens vs _

theorem readsBound (ofPs : every printable ps) (ofVars : ∀ v ∈ vars, IsVariableReread v)
    (plain : ∀ v ∈ vars, v.whereClause = none) (filled : ps ≠ [] ∨ vars ≠ []) :
    Reads (wordsOf (Layout.optionalTypeParams ps) ++ wordsOf (commaList (vars.map Layout.boundVariable)))
      (Word.of .separator :: rest) (Alike (ps, vars)) (bound expression) := by
  cases ps with
  | nil =>
    obtain ⟨opens, reads⟩ := readsSomeVariables rest (filled.resolve_left (absurd rfl)) ofVars plain
    have noLess : headKind (wordsOf (commaList (vars.map Layout.boundVariable)) ++ Word.of .separator :: rest) ≠ .less := by
      intro less
      rw [less] at opens
      exact absurd opens (by decide)
    refine .ifNo (beq_eq_false_iff_ne.mpr noLess) (.ifYes opens (.last reads fun vars' same => .pure ?_))
    exact Prod.ext rfl same
  | cons p ps =>
    refine .ifYes ?_ (.bind (readsTypeParams (List.cons_ne_nil p ps) ofPs _) fun ps' samePs => ?_)
    · rw [Layout.optionalTypeParams, List.isEmpty_cons, if_neg Bool.false_ne_true, wordsTypeParams]
      rfl
    · cases vars with
      | nil =>
        have none : groupStart.contains .separator = false := by decide
        exact .stay (V := Alike []) (.ifNo none (.pure .nil)) fun vars' same => .pure (Prod.ext samePs same)
      | cons v vs =>
        obtain ⟨opens, reads⟩ := readsSomeVariables rest (List.cons_ne_nil v vs) ofVars plain
        exact .last (.ifYes opens reads) fun vars' same => .pure (Prod.ext samePs same)

theorem bindingOfFilled {start : Span} {binder : Binder} (filled : ps ≠ [] ∨ vars ≠ []) (lambda : binder = .lambda → ts = []) :
    binding start binder ps vars as ts body = .bind (start.merge body.span) binder ps vars as ts body := by
  have some : (ps.isEmpty && vars.isEmpty) = false := by
    rcases filled with ne | ne <;> simp [ne]
  rw [binding, some, if_neg Bool.false_ne_true]
  cases binder with
  | lambda => rw [lambda rfl]; rfl
  | _ => rfl

theorem readsBindBody {start : Span} {binder : Binder} (ofPs : every printable ps) (ofVars : ∀ v ∈ vars, IsVariableReread v)
    (plain : ∀ v ∈ vars, v.whereClause = none) (filled : ps ≠ [] ∨ vars ≠ []) (lambda : binder = .lambda → ts = [])
    (ofAs : ∀ a ∈ as, IsAttributeReread a) (ofTs : ∀ t ∈ ts, IsTriggerReread t) (ofBody : IsReread body)
    (ends : endsExpr (headKind rest)) :
    Reads ((wordsOf (Layout.optionalTypeParams ps) ++ wordsOf (commaList (vars.map Layout.boundVariable))) ++
      Word.of .separator :: (wordsOf (Layout.attributes as ++ Layout.triggers ts) ++ wordsOf (Layout.expr body))) rest
      (Alike (.bind span binder ps vars as ts body)) (bindBody expression binder start) := by
  refine .bind (readsBound ofPs ofVars plain filled) ?_
  rintro ⟨ps', vars'⟩ same
  obtain ⟨samePs, sameVars⟩ := same.pair
  refine .expect rfl (.bind (readsGroups ofAs ofTs (exprNotHead ofBody (by decide) rest)) ?_)
  rintro ⟨as', ts'⟩ same
  obtain ⟨sameAs, sameTs⟩ := same.pair
  refine .last (readsExpr ofBody ends) fun body' sameBody => ?_
  have fine : (binder == .lambda && !ts'.isEmpty) = false := by
    cases binder with
    | lambda => simp [← sameTs.isEmptyEq, lambda rfl]
    | _ => rfl
  rw [fine]
  refine .unreported (.pure ?_)
  have whole : Alike (binding start binder ps vars as ts body) (binding start binder ps' vars' as' ts' body') :=
    alikeBinding (c := none) samePs sameVars sameAs sameTs sameBody
  rw [bindingOfFilled filled lambda] at whole
  exact Eq.trans (by simp [bare]) whole

theorem rereadBind {binder : Binder} (ofPs : every printable ps) (ofVars : ∀ v ∈ vars, IsVariableReread v)
    (plain : ∀ v ∈ vars, v.whereClause = none) (filled : ps ≠ [] ∨ vars ≠ []) (lambda : binder = .lambda → ts = [])
    (ofAs : ∀ a ∈ as, IsAttributeReread a) (ofTs : ∀ t ∈ ts, IsTriggerReread t) (ofBody : IsReread body) :
    IsReread (.bind span binder ps vars as ts body) := by
  have words : wordsOf (Layout.expr (.bind span binder ps vars as ts body)) = Word.of .leftParen ::
      ((Word.of (kindOfBinder binder) :: ((wordsOf (Layout.optionalTypeParams ps) ++
        wordsOf (commaList (vars.map Layout.boundVariable))) ++ Word.of .separator ::
          (wordsOf (Layout.attributes as ++ Layout.triggers ts) ++ wordsOf (Layout.expr body)))) ++
            [Word.of .rightParen]) := by
    rw [Layout.expr, Layout.boundVariablesMap]
    split <;> simp [textWords, Terminals.row, Spelling.kinds]
  have noExpr : exprStart.contains (kindOfBinder binder) = false := by cases binder <;> decide
  have noVar : (kindOfBinder binder == .kwVar) = false := by cases binder <;> rfl
  have found : binderOf (kindOfBinder binder) = some binder := by cases binder <;> rfl
  refine rereadParen words rfl fun rest => .byKind rfl (.advance fun t _ => ?_)
  refine .bind (V := Alike (.bind span binder ps vars as ts body)) (.ifNo noExpr (.ifNo noVar (.byKind rfl ?_)))
    fun a same => .expectLast rfl (.pure same)
  simp only [List.cons_append, headKindCons, Word.of, found]
  exact .advance fun _ _ => readsBindBody ofPs ofVars plain filled lambda ofAs ofTs ofBody
    (by decide : endsExpr .rightParen)

end Binders

def IsLetVarReread (v : LetVar) : Prop :=
  ReadsBack (fun v => wordsOf (Layout.letVar v)) (fun _ => True) Alike (letVar expression) v

section Lets

variable {span : Span} {as : List Attribute}

theorem rereadLetVar {n : String} (named : isWritten n) (ofAs : ∀ a ∈ as, IsAttributeReread a) :
    IsLetVarReread ⟨n, as, span⟩ := by
  have words : wordsOf (Layout.letVar ⟨n, as, span⟩) = wordsOf (Layout.attributes as) ++ [nameWord n] := by
    simp [Layout.letVar, nameWords named]
  intro rest _
  dsimp only
  rw [words]
  refine .bind (readsAttributes ofAs (by decide : Kind.identifier ≠ .leftBrace)) fun as' same => ?_
  refine readsNamed named fun place => .pure ?_
  simpa [Alike, bare] using same

theorem rereadLetIn {vars : List LetVar} {values : List Expr} {body : Expr} (filled : vars ≠ []) (valued : values ≠ [])
    (ofVars : ∀ v ∈ vars, IsLetVarReread v) (ofValues : ∀ e ∈ values, IsReread e)
    (ofAs : ∀ a ∈ as, IsAttributeReread a) (ofBody : IsReread body) : IsReread (.letIn span vars values as body) := by
  have words : wordsOf (Layout.expr (.letIn span vars values as body)) = Word.of .leftParen ::
      ((Word.of .kwVar :: (wordsOf (commaList (vars.map Layout.letVar)) ++ Word.of .assign ::
        (wordsOf (commaList (values.map Layout.expr)) ++ Word.of .semicolon ::
          (wordsOf (Layout.attributes as) ++ wordsOf (Layout.expr body))))) ++ [Word.of .rightParen]) := by
    simp [Layout.expr, Layout.letVarsMap, Layout.exprsMap, textWords, Terminals.row, Spelling.kinds]
  refine rereadParen words rfl fun rest => .byKind rfl (.advance fun t _ => ?_)
  refine .bind (V := Alike (.letIn span vars values as body)) (.ifNo (by decide : exprStart.contains .kwVar = false)
    (.ifYes rfl (.advance fun t' _ => ?_))) fun a same => .expectLast rfl (.pure same)
  refine .bind (readsComma filled ofVars trivial (by decide : Kind.assign ≠ .comma) trivial) fun vars' sameVars => ?_
  refine .expect rfl (.bind (readsExprs valued ofValues (by decide : endsExpr .semicolon)
    (by decide : Kind.semicolon ≠ .comma)) fun values' sameValues => .expect rfl ?_)
  refine .bind (readsAttributes ofAs (exprNotHead ofBody (by decide) _)) fun as' sameAs => ?_
  refine .last (readsExpr ofBody (by decide : endsExpr .rightParen)) fun body' sameBody => .pure ?_
  have sameVars := alikeOfForall sameVars
  simp_all [Alike, bare]

end Lets

theorem rereadCode {span : Span} {locals : List Variable} {blocks : List Block} (filled : blocks ≠ [])
    (ofLocals : ∀ v ∈ locals, IsVariableReread v) (ofBlocks : ∀ b ∈ blocks, IsBlockReread b) :
    IsReread (.code span locals blocks) := by
  obtain ⟨b, bs, rfl⟩ := List.exists_cons_of_ne_nil filled
  obtain ⟨ofB, others⟩ := List.forall_mem_cons.mp ofBlocks
  have words : wordsOf (Layout.expr (.code span locals (b :: bs))) = Word.of .leftCode ::
      ((locals.flatMap fun v => wordsOf (Layout.variableDecl v)) ++ (wordsOf (Layout.block b) ++
        ((bs.flatMap fun b => wordsOf (Layout.block b)) ++ [Word.of .rightCode]))) := by
    simp [Layout.expr, Layout.localDeclsSpaced, Layout.blocksSpaced, wordsSpaced, textWords, Terminals.row, Spelling.kinds]
  have noVar (rest : List Word) : headKind (wordsOf (Layout.block b) ++ rest) ≠ .kwVar := by
    obtain ⟨w, more, opens, name⟩ := ofB.opens
    rw [opens]
    exact fun var => absurd (beq_iff_eq.mp name) (by rw [show w.kind = .kwVar from var]; decide)
  have each (b : Block) (mem : b ∈ bs) :
      ReadsBack (fun b => wordsOf (Layout.block b)) (fun _ => True) Alike (block expression) b :=
    fun rest _ => (others b mem).reads rest
  have opens (b : Block) (mem : b ∈ bs) :
      ∃ w more, wordsOf (Layout.block b) = w :: more ∧ (w.kind == .identifier) = true ∧ True := by
    obtain ⟨w, more, same, name⟩ := (others b mem).opens
    exact ⟨w, more, same, name, trivial⟩
  refine rereadOther words (by decide) rfl (ne_of_beq_false rfl) rfl fun rest => .byKind rfl (.advance fun t _ => ?_)
  refine .bind (readsLocals ofLocals ?_) fun locals' sameLocals => ?_
  · rw [List.append_assoc]
    exact noVar _
  refine .bind (ofB.reads _) fun b' sameB => ?_
  refine .bind (readsMany .block each opens (by decide : (Kind.rightCode == .identifier) = false) trivial)
    fun bs' sames => .expectLast rfl (.spanFrom fun span' => .pure ?_)
  have sameBlocks := Alike.cons sameB (alikeOfForall sames)
  simp_all [Alike, bare]

theorem rereadApplied {span : Span} {op : Operator} {args : List Expr} (applied : Layout.Applied op args)
    (fixed : exprFixed (.apply span op args)) (ofOp : every printable op) (each : ∀ e ∈ args, IsReread e) :
    IsReread (.apply span op args) := by
  cases applied with
  | binary op left right => exact rereadBinary (each left (by simp)) (each right (by simp))
  | unary op operand => exact rereadUnary (each operand (by simp))
  | concat left right => exact rereadConcat (each left (by simp)) (each right (by simp))
  | call function args => exact rereadCallExpr ofOp each
  | select map indexes =>
    obtain ⟨ofMap, ofIndexes⟩ := List.forall_mem_cons.mp each
    exact rereadSelect rfl ofMap ofIndexes
  | store map indexes value =>
    obtain ⟨ofMap, others⟩ := List.forall_mem_cons.mp each
    obtain ⟨ofIndexes, ofValue⟩ := List.forall_mem_append.mp others
    exact rereadStore rfl ofMap ofIndexes (ofValue value (by simp))
  | ifThenElse condition thenPart elsePart =>
    exact rereadIfThenElse (each condition (by simp)) (each thenPart (by simp)) (each elsePart (by simp))
  | convert goal operand => exact rereadConvert (each operand (by simp))
  | coerce type operand => exact rereadCoerce ofOp (each operand (by simp))
  | extract upper lower operand => exact rereadExtract fixed.1 fixed.2 (each operand (by simp))

def rereading : Facts where
  expr := IsReread
  attr := IsAttributeReread
  trigger := IsTriggerReread
  var := IsVariableReread
  letVar := IsLetVarReread
  target := IsTargetReread
  call := IsCallReread
  cmd := IsCmdReread
  transfer := IsTransferReread
  block := IsBlockReread

theorem rereadingFollows : rereading.Follow printable where
  literal here := rereadLiteral here.2.2
  name _ named := rereadNamed named
  old ofBody := rereadOld ofBody
  apply here ofOp ofArgs := rereadApplied (Layout.appliedOfFits here.1) here.2.1 ofOp ofArgs
  bind here ofPs ofVars ofAs ofTs ofBody := rereadBind ofPs ofVars here.2.1 here.1.1 here.1.2 ofAs ofTs ofBody
  letIn here ofVars ofValues ofAs ofBody := rereadLetIn here.1.1 here.1.2 ofVars ofValues ofAs ofBody
  code here ofLocals ofBlocks := rereadCode here.1 ofLocals ofBlocks
  attr here named ofParams := rereadAttribute here named ofParams
  trigger here ofExprs := rereadTrigger here.1 here.2 ofExprs
  var named ofType ofWhere ofAs := rereadVariable named ofType ofWhere ofAs
  letVar named ofAs := rereadLetVar named ofAs
  targetName named := rereadName named
  element ofMap ofIndexes := rereadElement ofMap ofIndexes
  call ofCallee ofIns ofOuts ofAs := rereadCall ofCallee ofIns ofOuts ofAs
  assign here ofTargets ofValues := rereadAssign here.1.1 here.1.2 ofTargets ofValues
  assert ofAs ofE := rereadAssert ofAs ofE
  assume ofAs ofE := rereadAssume ofAs ofE
  havoc here ofVars := rereadHavoc here.1 ofVars
  callCmd ofX := rereadCallCmd ofX
  parallel here ofCalls ofAs := rereadParallel here.2 ofCalls here.1 ofAs
  yield := rereadYield
  goto ofLabels := rereadGoto ofLabels
  leave _ left := absurd rfl (left _)
  leaveWith ofValue := rereadLeaveWith ofValue
  block here named ofCmds ofTransfer := rereadBlock named ofCmds here.1 (notLeft here.2) ofTransfer

theorem rereadExpr {e : Expr} (pass : every printable e) : IsReread e := rereadingFollows.ofExpr e pass

theorem rereadAttributes {as : List Attribute} (pass : every printable as) : ∀ a ∈ as, IsAttributeReread a :=
  fun a mem => rereadingFollows.ofAttribute a (pass a mem)

end Boogie.Grammar
