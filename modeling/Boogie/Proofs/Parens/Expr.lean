import Boogie.Proofs.Parens.Cmd

/-! Words that are read as expressions cover their sketches. On each level the parentheses are found that an operand
of the level is printed in. -/
namespace Boogie.Grammar

open Token (Kind Word)
open Layout (isSolid gist gistsOf Balanced Sketch precedence wrapsLeft wrapsRight)
open Layout.Sketch (Covers nothing fixed space spaceUnless name commas wrapped wrappedIf infixed based)

def WritesAt (l : Nat) (ws : List Word) (e : Expr) : Prop :=
  Covers ws (wrappedIf (precedence e < l) (Sketch.expr e)) ∧ Fronted ws

def WritesOperand (l : Nat) (ws : List Word) : Operand → Prop
  | .expr e => WritesAt l ws e
  | .bits _ => Balanced ws ∧ (gistsOf ws).length ≤ 3

section Writes

variable {l l' : Nat} {ws ws' : List Word} {e a b : Expr}

theorem WritesAt.writes (h : WritesAt l ws e) : Writes ws e := ⟨h.1.bare, h.2⟩

theorem WritesAt.lower (h : WritesAt l ws e) (less : l' ≤ l) : WritesAt l' ws e :=
  ⟨h.1.loosen fun wraps => decide_eq_true (Nat.lt_of_lt_of_le (of_decide_eq_true wraps) less), h.2⟩

theorem WritesOperand.lower {o : Operand} (h : WritesOperand l ws o) (less : l' ≤ l) : WritesOperand l' ws o := by
  cases o with
  | expr e => exact WritesAt.lower h less
  | bits range => exact h

theorem Writes.at (h : Writes ws e) (binds : l ≤ precedence e) : WritesAt l ws e := by
  refine ⟨?_, h.2⟩
  rw [decide_eq_false (Nat.not_lt.mpr binds)]
  exact h.1

theorem Fronted.paren {opened closed : List Char} (h : Fronted ws) :
    Fronted (⟨.leftParen, opened⟩ :: (ws ++ [⟨.rightParen, closed⟩])) := by
  rw [Fronted, Covers.gistsOfBetween]
  exact h

theorem Writes.enclosed {opened closed : List Char} (h : Writes ws e) :
    WritesAt l (⟨.leftParen, opened⟩ :: (ws ++ [⟨.rightParen, closed⟩])) e := ⟨h.1.enclosed _, h.2.paren⟩

theorem symbolMark (op : BinaryOp) : (fixed op.symbol).gists = [.other] := by cases op <;> rfl

theorem writesBinary {op : BinaryOp} {k : Kind} {t : List Char} (solid : isSolid k = true)
    (left : Covers ws (wrappedIf (wrapsLeft op a) (Sketch.expr a))) (leads : Fronted ws)
    (right : Covers ws' (wrappedIf (wrapsRight op b) (Sketch.expr b))) :
    Writes (ws ++ ⟨k, t⟩ :: ws') (.binary op a b) := by
  have mark : Covers [⟨k, t⟩] (infixed op) :=
    (Covers.mark (s := op.symbol) (S := space) solid (symbolMark op) .nil).quiet
  exact ⟨left.append (mark.append right), leads.append _⟩

theorem writesConcat {k : Kind} {text : List Char} {span : Span} (solid : isSolid k = true) (left : WritesAt 5 ws a)
    (right : WritesAt 6 ws' b) : Writes (ws ++ ⟨k, text⟩ :: ws') (.apply span .concat [a, b]) := by
  have inner : Covers ws' (wrappedIf (precedence b ≤ 5) (Sketch.expr b)) :=
    right.1.loosen fun wraps => decide_eq_true (Nat.lt_succ_of_le (of_decide_eq_true wraps))
  exact ⟨left.1.append (.mark (s := " ++ ") solid rfl inner), left.2.append _⟩

theorem grownFromLeft {op : BinaryOp} (groups : Layout.grouping op = .left) (single : Layout.isOtherLogical op a = false)
    (h : WritesAt op.precedence ws a) : Covers ws (wrappedIf (wrapsLeft op a) (Sketch.expr a)) := by
  refine h.1.loosen fun wraps => ?_
  simpa [wrapsLeft, groups, single] using wraps

theorem fromLeft {op : BinaryOp} (groups : Layout.grouping op ≠ .left) (h : WritesAt (op.precedence + 1) ws a) :
    Covers ws (wrappedIf (wrapsLeft op a) (Sketch.expr a)) := by
  refine h.1.loosen fun wraps => decide_eq_true (Nat.lt_succ_of_le ?_)
  cases same : Layout.grouping op with
  | left => exact absurd same groups
  | right | none => simpa [wrapsLeft, same] using wraps

theorem fromRight {op : BinaryOp} (h : WritesAt (op.precedence + 1) ws b) :
    Covers ws (wrappedIf (wrapsRight op b) (Sketch.expr b)) := by
  refine h.1.loosen fun wraps => decide_eq_true (Nat.lt_succ_of_le ?_)
  cases same : Layout.grouping op with
  | left | none => simpa [wrapsRight, same] using wraps
  | right => exact Nat.le_of_lt (by simpa [wrapsRight, same] using wraps)

theorem grownFromRight {op : BinaryOp} (groups : Layout.grouping op = .right) (h : WritesAt op.precedence ws b) :
    Covers ws (wrappedIf (wrapsRight op b) (Sketch.expr b)) := by
  refine h.1.loosen fun wraps => ?_
  simpa [wrapsRight, groups] using wraps

theorem writesExplies {text : List Char} (left : Writes ws a) (right : Writes ws' b) :
    Writes (ws ++ ⟨.explies, text⟩ :: ws') (.binary .implies b a) := by
  have fewer := left.1.fewer
  have fewer' := right.1.fewer
  refine ⟨.short (left.1.balanced.append (.word rfl right.1.balanced)) ?_, left.2.append _⟩
  have mark : (infixed .implies).gists.length = 1 := rfl
  rw [show Sketch.expr (.binary .implies b a) = _ from Sketch.exprBinary .implies b a, Layout.gistsOfAppend,
    Layout.gistsOfLight rfl, Sketch.gistsAppend, Sketch.gistsAppend, Sketch.gistsWrappedIf, Sketch.gistsWrappedIf]
  simp only [List.length_append]
  omega

end Writes

section Operands

variable {n l : Nat} {sort : Kind → Prop} {α : Type} {T : List Word → α → Prop} {ws : List Word}
  {m : Production Operand} {f : Expr → Production α}

theorem writesToExpr {o : Operand} (known : WritesOperand l ws o)
    (rest : ∀ e, WritesAt l ws e → Finds anywhere n sort T (f e)) : Finds anywhere n sort T (o.toExpr >>= f) := by
  cases o with
  | expr e => exact rest e known
  | bits range =>
    show Finds anywhere n sort T (brokenAt range.span .misplacedBounds >>= fun _ => f (.placeholder range.span))
    exact .fault (.brokenAt _ _)

theorem writesExprOf (step : Finds anywhere n sort (WritesOperand l) m)
    (rest : ∀ ws e, WritesAt l ws e → Finds anywhere n anywhere (fun ws' => T (ws ++ ws')) (f e)) :
    Finds anywhere n sort T (m >>= fun o => o.toExpr >>= f) :=
  .bind step fun ws _ known => writesToExpr known (rest ws)

theorem writesJoined {l' : Nat} {k : Kind} {text : List Char} {join : Expr → Expr}
    (step : Finds anywhere n sort (WritesOperand l') m)
    (held : ∀ ws' b, WritesAt l' ws' b → WritesAt l (ws ++ ⟨k, text⟩ :: ws') (join b)) :
    Finds anywhere n sort (fun ws' => WritesOperand l (ws ++ ⟨k, text⟩ :: ws'))
      (do return .expr (join (← (← m).toExpr))) := by
  refine writesExprOf step fun ws' b right => .pure ?_
  rw [List.append_nil]
  exact held ws' b right

section Chains

variable {β : Type} {operator : Kind → Option β} {join : β → Expr → Expr → Expr}
  (real : ∀ k op, operator k = some op → k ≠ .endOfText)
  (held : ∀ k op text ws ws' a b, operator k = some op → WritesAt l ws a → WritesAt (l + 1) ws' b →
    WritesAt l (ws ++ ⟨k, text⟩ :: ws') (join op a b))
  (step : Finds anywhere n anywhere (WritesOperand (l + 1)) m)
include real held step

theorem writesChainStep {o : Operand} (known : WritesOperand l ws o) :
    Finds anywhere n (fun k => (operator k).isSome = true) (fun ws' => WritesOperand l (ws ++ ws'))
      (chainStep operator join m o) := by
  refine .byKind fun k some => ?_
  split
  · rename_i op found
    refine .token (k := n) (real k op found) (fun t _ => writesToExpr known fun a left => ?_) (Nat.le_succ n)
    exact writesJoined step fun ws' b right => held k op _ ws ws' a b found left right
  · rename_i none
    exact absurd some (by simp [none])

theorem writesChain (first : Finds anywhere n sort (WritesOperand (l + 1)) m) :
    Finds anywhere n sort (WritesOperand l) (chain operator join m) := by
  refine .bind first fun ws o known => .soFarNext (known.lower (Nat.le_succ l)) fun before o' known' => ?_
  exact writesChainStep real held step known'

end Chains

end Operands

def lowest : Level → Nat
  | .whole => 1
  | .implication => 2
  | .power => 8
  | .unary => 9

section Levels

variable {n : Nat} {sort : Kind → Prop} {nested : Nested}
  (same : ∀ l, Finds anywhere n anywhere (WritesOperand (lowest l)) (nested l))
include same

theorem writesNested : Finds anywhere n sort Writes nested.expression :=
  (writesExprOf (f := Pure.pure) (same .whole) fun _ _ found => .ends found.writes).always

theorem writesNameOrCall : Finds anywhere (n + 1) (· = .identifier) (WritesAt 10) (nameOrCall nested.expression) := by
  refine .ident fun text span => ?_
  have called : Covers [⟨.identifier, text⟩] (name (Reads.nameOf text)) := .word rfl rfl
  have leads (ws : List Word) : Fronted (⟨.identifier, text⟩ :: ws) := by
    refine .word rfl ?_ ws
    show Layout.nameGist _ ≠ _
    unfold Layout.nameGist
    split <;> nofun
  refine .eat (k := n) (by decide) (fun opened => ?_) (.pure ?_) (Nat.le_succ n)
  · refine .bind (coversArguments (writesNested same)) ?_
    rintro _ args ⟨inner, closed, rfl, inside⟩
    refine .spanFrom fun span => .pure (Writes.at ⟨?_, leads _⟩ (le_refl 10))
    rw [List.append_nil, Sketch.exprCall]
    exact called.append inside.between
  · exact Writes.at ⟨called, leads _⟩ (le_refl 10)

theorem coversLetVar : Finds anywhere n sort (fun ws v => Covers ws (Sketch.letVar v)) (letVar nested.expression) := by
  refine .bind (coversAttributes (writesNested same)) fun ws as ofAs => ?_
  refine Finds.mono (.ident fun text span => .pure ?_) (fun _ h => h) (Nat.le_succ n)
  have named : Covers [⟨.identifier, text⟩] (name (Reads.nameOf text)) := .word rfl rfl
  exact ofAs.append named

theorem writesLetBody : Finds anywhere n (· = .kwVar) Writes (letBody nested.expression) := by
  have one {sort : Kind → Prop} : Finds anywhere n sort Writes nested.expression := writesNested same
  refine .token (k := n) (by decide) (fun t _ => ?_) (Nat.le_succ n)
  refine .bind (findsSeparated (coversLetVar same)) fun ws vars ofVars => .expect (by decide) fun assign => ?_
  refine .bind (coversExprs one) fun ws' values ⟨ofValues, _⟩ => .expect (by decide) fun closed => ?_
  refine .bind (coversAttributes one) fun ws'' as ofAs => .bind one fun ws''' e ⟨ofE, _⟩ => .pure ?_
  have declared := coversSeparated ofVars
  rw [← Sketch.letVarsMap] at declared
  refine ⟨?_, .other rfl rfl _⟩
  rw [List.append_nil]
  exact .mark rfl rfl (declared.append (.mark rfl rfl (ofValues.append (.mark rfl rfl (ofAs.append ofE.silent)))))

theorem coversBound : Finds anywhere n sort (fun ws found => Covers ws (Sketch.typeParams found.1 ++
      (spaceUnless (found.1.isEmpty || found.2.isEmpty) ++ commas (Sketch.boundVariables found.2))) ∧
        (found.1 ≠ [] ∨ found.2 ≠ [])) (bound nested.expression) := by
  have one : Finds anywhere n anywhere Writes nested.expression := writesNested same
  refine .ifNext ?_ (.ifNext ?_ (.fault (.syntaxError _)))
  · have groups : Finds anywhere n anywhere (fun ws vs => Covers ws (commas (Sketch.boundVariables vs)))
        (ifNext (checkAny groupStart) (attributedGroups nested.expression .boundVariables) (Pure.pure [])) :=
      .ifNext ((coversBoundGroups one).weaken fun _ _ found => found.1) (.pure .nil)
    refine .bind coversTypeParams fun ws ids ⟨ofParams, filled⟩ => .bind groups fun ws' vs ofGroups => .pure ⟨?_, .inl filled⟩
    rw [List.append_nil]
    exact ofParams.append ofGroups.spaceUnless
  · refine .commute (coversBoundGroups one) fun ws vs ⟨ofGroups, filled⟩ => ⟨?_, .inr filled⟩
    exact ofGroups.spaceUnless.quiet

omit same in
theorem bindingKept {start : Span} {binder : Binder} {params : List Ident} {vars : List Variable}
    {attributes : List Attribute} {triggers : List Trigger} {body : Expr} (some : params ≠ [] ∨ vars ≠ [])
    (noTriggers : (binder == .lambda && !triggers.isEmpty) = false) :
    binding start binder params vars attributes triggers body =
      .bind (start.merge body.span) binder params vars attributes triggers body := by
  have filled : (params.isEmpty && vars.isEmpty) = false := by
    simpa [List.isEmpty_iff, imp_iff_not_or] using some
  rw [binding, filled]
  cases is : binder == .lambda with
  | false => rfl
  | true =>
    rw [is, Bool.true_and, Bool.not_eq_false', List.isEmpty_iff] at noTriggers
    rw [noTriggers]
    rfl

omit same in
theorem binderMark (binder : Binder) : (fixed ("(" ++ binder.keyword ++ " ")).gists = [.other] := by
  cases binder <;> rfl

theorem writesBinder {k : Kind} {binder : Binder} {start : Span} (found : binderOf k = some binder) :
    Finds anywhere n (· = k) Writes (advance >>= fun _ => bindBody nested.expression binder start) := by
  have one {sort : Kind → Prop} : Finds anywhere n sort Writes nested.expression := writesNested same
  have word : k ≠ .endOfText ∧ isSolid k = true ∧ ∀ text, gist ⟨k, text⟩ = .other := by
    unfold binderOf at found
    split at found <;> first | exact ⟨nofun, rfl, fun _ => rfl⟩ | exact absurd found nofun
  obtain ⟨real, solid, plain⟩ := word
  refine .token (k := n) real (fun t _ => .bind (coversBound same) fun ws (params, vars) ⟨ofBound, filled⟩ => ?_) (Nat.le_succ n)
  refine .expect (by decide) fun separator => .bind (coversBracedGroups one) fun ws' (as, ts) ofGroups => ?_
  refine .bind one fun ws'' e ⟨ofE, _⟩ => .given (.broken _) fun noTriggers => .pure ?_
  rw [bindingKept filled noTriggers, List.append_nil]
  refine ⟨?_, .other solid (plain _) _⟩
  have last : Covers ws'' (Sketch.expr e ++ fixed ")") := ofE.silent
  have body := ofGroups.append last
  have inside := ofBound.append (.mark (w := ⟨.separator, separator⟩) (s := " :: ") rfl rfl body)
  have whole := Covers.mark (w := ⟨k, t.text.toList⟩) solid (binderMark binder) inside
  rw [Sketch.appendAssoc, Sketch.appendAssoc, Sketch.appendAssoc] at whole
  exact whole

theorem writesParenBody {start : Span} : Finds anywhere n sort Writes (parenBody nested start) := by
  refine .ifNext ?_ (.ifNext ?_ (.byKind fun k _ => ?_))
  · refine .bind (same .whole).always fun ws o known => ?_
    cases o with
    | expr e => exact .ends (WritesAt.writes known)
    | bits range => exact .fault (.broken _)
  · exact (writesLetBody same).mono (fun k is => by simpa using is.2) (Nat.le_refl n)
  · split
    · exact writesBinder same ‹_›
    · exact .fault (.syntaxError _)

theorem writesParen : Finds anywhere (n + 1) (· = .leftParen) (WritesAt 10) (paren nested) := by
  refine .token (k := n) (by decide) (fun t _ => ?_) (Nat.le_refl _)
  refine .bind (writesParenBody same) fun ws e found => .expect (by decide) fun closed => .pure ?_
  exact found.enclosed

theorem writesIfThenElse : Finds anywhere (n + 1) (· = .kwIf) (WritesAt 10) (ifThenElse nested.expression) := by
  have one {sort : Kind → Prop} : Finds anywhere n sort Writes nested.expression := writesNested same
  refine .token (k := n) (by decide) (fun t _ => .bind one fun ws condition ⟨ofCondition, _⟩ => ?_) (Nat.le_refl _)
  refine .expect (by decide) fun then' => .bind one fun ws' thenPart ⟨ofThen, _⟩ => ?_
  refine .expect (by decide) fun else' => .bind one fun ws'' elsePart ⟨ofElse, _⟩ => .pure ?_
  rw [List.append_nil]
  refine Writes.at ⟨?_, .other rfl rfl _⟩ (le_refl 10)
  exact .mark (s := "(if ") rfl rfl (ofCondition.append (.mark (s := " then ") rfl rfl (ofThen.append
    (.mark (s := " else ") rfl rfl ofElse.silent))))

theorem coversParenthesized : Finds anywhere n sort (fun ws e => Covers ws (wrapped (Sketch.expr e)))
    (parenthesized nested.expression) := by
  refine .expect (by decide) fun opened => .bind (writesNested same) fun ws e ⟨ofE, _⟩ => ?_
  exact .expect (by decide) fun closed => .pure ofE.between

theorem writesOld : Finds anywhere (n + 1) (· = .kwOld) (WritesAt 10) (oldExpr nested.expression) := by
  refine .token (k := n) (by decide) (fun t _ => .bind (coversParenthesized same) fun ws e ofE => ?_) (Nat.le_refl _)
  refine .spanFrom fun span => .pure (Writes.at ⟨?_, .other rfl rfl _⟩ (le_refl 10))
  rw [List.append_nil]
  exact .mark rfl rfl ofE

theorem writesConverted {k : Kind} (word : k ≠ .endOfText ∧ isSolid k = true ∧ ∀ text, gist ⟨k, text⟩ = .other)
    {goal : Conversion} : Finds anywhere (n + 1) (· = k) (WritesAt 10) (converted goal nested.expression) := by
  obtain ⟨real, solid, plain⟩ := word
  refine .token (k := n) real (fun t _ => .bind (coversParenthesized same) fun ws e ofE => ?_) (Nat.le_refl _)
  refine .spanFrom fun span => .pure (Writes.at ⟨?_, .other solid (plain _) _⟩ (le_refl 10))
  have keyword : (fixed goal.keyword).gists = [.other] := by cases goal <;> rfl
  rw [List.append_nil]
  exact .mark solid keyword ofE

theorem coversBlockCmds : Finds anywhere n sort (fun ws cs => Covers ws (Sketch.cmds (cs.filterMap id)))
    (many (checkAny commandStart) (blockCmd nested.expression)) := by
  have item {sort : Kind → Prop} : Finds anywhere n sort (fun ws o => ∃ c, o = some c ∧ Covers ws (Sketch.cmd c))
      (blockCmd nested.expression) := by
    refine .bind (coversLabelOrCmd (writesNested same)) fun ws found ofFound => ?_
    cases found with
    | cmd c => exact .ends (T := fun ws o => ∃ c, o = some c ∧ Covers ws (Sketch.cmd c)) ⟨c, rfl, ofFound⟩
    | label id => exact .fault (.broken _)
    | mistake => exact ofFound.elim
  refine Finds.weaken (.manyNext item) fun ws found rows => ?_
  induction rows with
  | nil => exact .nil
  | cons first _ ih =>
    obtain ⟨c, rfl, inside⟩ := first
    exact inside.append ih.quiet

theorem coversBlockTransfer : Finds anywhere n sort
    (fun ws t => ∀ closed, Covers (ws ++ [⟨.semicolon, closed⟩]) (Sketch.transfer t)) (blockTransfer nested.expression) := by
  refine .look fun start => .eat (by decide) (fun text => ?_) (.eat (by decide) (fun text => ?_) ?_ (Nat.le_succ n))
    (Nat.le_succ n)
  · refine .bind coversNames fun ws ids ⟨ofNames, _⟩ => .spanFrom fun span => .pure fun closed => ?_
    rw [List.append_nil]
    exact .mark rfl rfl (ofNames.append (.word rfl rfl))
  · refine .bind (writesNested same) fun ws e ⟨ofE, _⟩ => .spanFrom fun span => .pure fun closed => ?_
    rw [List.append_nil]
    exact .mark rfl rfl (ofE.append (.word rfl rfl))
  · exact .fault (.syntaxError _)

theorem coversBlock : Finds anywhere n sort (fun ws b => Covers ws (Sketch.block b)) (block nested.expression) := by
  refine Finds.mono (.ident fun text span => ?_) (fun _ h => h) (Nat.le_succ n)
  refine .expect (by decide) fun colon => .bind (coversBlockCmds same) fun ws cs ofCmds => ?_
  refine .bind (coversBlockTransfer same) fun ws' t ofTransfer => .expect (by decide) fun closed => .spanFrom fun at_ => ?_
  refine .pure ?_
  have label : Covers [⟨.identifier, text⟩] (name (Reads.nameOf text)) := .word rfl rfl
  exact label.append (.mark (w := ⟨.colon, colon⟩) (s := ": ") rfl rfl (ofCmds.append (ofTransfer closed)))

theorem writesCode : Finds anywhere (n + 1) (· = .leftCode) (WritesAt 10) (codeExpr nested.expression) := by
  refine .token (k := n) (by decide) (fun t _ => ?_) (Nat.le_refl _)
  refine .bind (coversLocalVariables (writesNested same)) fun ws locals ofLocals => ?_
  refine .bind (coversBlock same) fun ws' b ofB => .bind (.manyNext (coversBlock same)) fun ws'' bs rows => ?_
  refine .expect (by decide) fun closed => .spanFrom fun span => .pure (Writes.at ⟨?_, .other rfl rfl _⟩ (le_refl 10))
  have blocks : Covers (ws' ++ ws'') (Sketch.blocks (b :: bs)) := by
    rw [Sketch.blocksSpaced, Sketch.spacedCons]
    exact ofB.append (Covers.rows rows).quiet
  have inside := ofLocals.append (blocks.append (.last "\x7d|" (w := ⟨.rightCode, closed⟩) rfl rfl))
  rw [List.append_assoc] at inside
  exact .mark (s := "|\x7b ") rfl rfl inside

omit same in
theorem writesLiteral {k : Kind} (first : literalStart.contains k = true) :
    Finds anywhere n (· = k) (WritesAt 10) literal := by
  obtain ⟨real, solid, plain⟩ := Layout.solidLiteral first
  refine .token (k := n) real (fun t _ => ?_) (Nat.le_succ n)
  have found (value : Literal) : WritesAt 10 [⟨k, t.text.toList⟩] (.literal t.span value) :=
    Writes.at ⟨.word solid rfl, .other solid (plain _) _⟩ (le_refl 10)
  cases value : literalOf t with
  | some v =>
    rw [literalValue, value]
    show Finds _ _ _ _ (pure (Expr.literal t.span v))
    exact .pure (found v)
  | none =>
    rw [literalValue, value]
    exact .bind (T := fun _ _ => False) (.fault (.broken _)) fun _ _ => False.elim

theorem writesAtom : Finds anywhere (n + 1) sort (WritesAt 10) (atom nested) := by
  refine .byKind fun k _ => ?_
  split
  · exact writesNameOrCall same
  · exact writesParen same
  · exact writesIfThenElse same
  · exact writesCode same
  · exact writesOld same
  · exact writesConverted same ⟨by decide, rfl, fun _ => rfl⟩
  · exact writesConverted same ⟨by decide, rfl, fun _ => rfl⟩
  · split
    · exact writesLiteral ‹_›
    · exact .fault (.syntaxError _)

omit same in
def storedSketch (none : Bool) : Option Expr → Sketch
  | .none => nothing
  | some value => spaceUnless none ++ (fixed ":= " ++ Sketch.expr value)

omit same in
def WritesIndexes (ws : List Word) : List Expr × Option BitRange × Option Expr → Prop
  | (indexes, none, value) => Covers ws (commas (Sketch.exprs indexes) ++ storedSketch indexes.isEmpty value)
  | (indexes, some _, value) => indexes = [] ∧ value = none ∧ Balanced ws ∧ (gistsOf ws).length ≤ 3

theorem writesFurther {e : Expr} {rule : Rule} : Finds anywhere n sort Writes (further nested (.expr e) rule) := by
  refine .bind (same .whole).always fun ws o known => ?_
  cases o with
  | expr e => exact .given (.broken _) fun _ => .ends (WritesAt.writes known)
  | bits range => exact .given (.broken _) fun none => absurd none (by simp [Operand.isBits])

omit same in
theorem writesNoFurther {range : BitRange} {rule : Rule} :
    Finds anywhere n sort (fun _ _ => False) (further nested (.bits range) rule) :=
  .skip fun o => .given (.broken _) fun none => absurd none (by simp [Operand.isBits])

theorem coversStored {e : Expr} (none : Bool) :
    Finds anywhere n sort (fun ws value => Covers ws (storedSketch none value)) (stored nested (.expr e)) := by
  refine .eat (k := n) (by decide) (fun text => ?_) (.pure .nil) (Nat.le_succ n)
  refine .commute (writesFurther same) fun ws value ⟨ofValue, _⟩ => ?_
  exact (Covers.mark (w := ⟨.assign, text⟩) (s := ":= ") rfl rfl ofValue).spaceUnless

omit same in
theorem nothingStored {range : BitRange} :
    Finds anywhere n sort (fun ws value => ws = [] ∧ value = none) (stored nested (.bits range)) :=
  .eat (by decide) (fun text => .bind writesNoFurther fun _ _ => False.elim) (.pure ⟨rfl, rfl⟩) (Nat.le_succ n)

theorem writesIndexes : Finds anywhere n sort WritesIndexes (indexes nested) := by
  refine .ifNext (.bind (same .whole).always fun ws first known => ?_) ?_
  · cases first with
    | expr e =>
      have item {rule : Rule} : Finds anywhere n anywhere (fun ws e => Covers ws (Sketch.expr e))
          (further nested (.expr e) rule) := (writesFurther same).weaken fun _ _ found => found.1
      refine .bind (.manyEats (by decide) item) fun ws' rest more => ?_
      refine .bind (coversStored same false) fun ws'' value ofValue => .pure ?_
      have indexes := coversSeparated (.mk (WritesAt.writes known).1 more)
      rw [← Sketch.exprsMap] at indexes
      rw [List.append_nil, ← List.append_assoc]
      exact indexes.append ofValue
    | bits range =>
      refine .bind (.manyEats (by decide) writesNoFurther) fun ws' rest items => ?_
      cases items with
      | cons none => exact none.elim
      | nil =>
        refine .bind nothingStored fun ws' value ⟨unread, noValue⟩ => .pure ⟨rfl, noValue, ?_⟩
        rw [unread, List.append_nil, List.append_nil, List.append_nil]
        exact known
  · refine .eat (by decide) (fun text => ?_) (.pure .nil) (Nat.le_succ n)
    refine .commute (writesNested same) fun ws e ⟨ofE, _⟩ => ?_
    have behind : Covers (⟨.assign, text⟩ :: ws) (storedSketch true (some e)) :=
      (Covers.mark (s := ":= ") rfl rfl ofE).spaceUnless
    exact behind.quiet

omit same in
theorem writesBracketed {opened closed : List Char} {before ws : List Word} {span : Span} {base : Expr}
    {found : List Expr × Option BitRange × Option Expr} (known : WritesAt 10 before base) (inside : WritesIndexes ws found) :
    WritesAt 10 (before ++ ⟨.leftBracket, opened⟩ :: (ws ++ [⟨.rightBracket, closed⟩])) (bracketed span base found) := by
  have ofBase : Covers before (based base) := known.1
  have closing : Covers [⟨.rightBracket, closed⟩] (fixed "]") := .word rfl rfl
  have leads := known.2.append (⟨.leftBracket, opened⟩ :: (ws ++ [⟨.rightBracket, closed⟩]))
  obtain ⟨indexes, range, value⟩ := found
  cases range with
  | none =>
    have whole := ofBase.append (.mark (w := ⟨.leftBracket, opened⟩) (s := "[") rfl rfl (Covers.append inside closing))
    rw [Sketch.appendAssoc] at whole
    cases value with
    | none =>
      refine Writes.at ⟨?_, leads⟩ (le_refl 10)
      rw [bracketed, Sketch.exprSelect]
      rwa [storedSketch, Sketch.nothingAppend] at whole
    | some value =>
      refine Writes.at ⟨?_, leads⟩ (le_refl 10)
      rw [bracketed, Sketch.exprStore]
      rwa [storedSketch, Sketch.appendAssoc, Sketch.appendAssoc] at whole
  | some range =>
    obtain ⟨rfl, rfl, balanced, fewer⟩ := inside
    refine Writes.at ⟨?_, leads⟩ (le_refl 10)
    rw [bracketed, Sketch.exprExtract]
    refine ofBase.append (.ofPlain (.word rfl (balanced.append (.one rfl))) ?_)
    rw [Layout.gistsOfSolid rfl, Layout.gistsOfAppend, List.length_cons, List.length_append]
    exact Nat.succ_le_succ (Nat.add_le_add_right fewer 1)

theorem writesBracket {before : List Word} {base : Expr} (known : WritesAt 10 before base) :
    Finds anywhere (n + 1) (fun k => (k == .leftBracket) = true) (fun ws => WritesAt 10 (before ++ ws))
      (bracket nested base) := by
  refine (Finds.token (x := .leftBracket) (k := n) (by decide) (fun t _ => ?_) (Nat.le_refl _)).mono
    (fun _ is => by simpa using is) (Nat.le_refl _)
  refine .bind (writesIndexes same) fun ws found inside => .expect (by decide) fun closed => .look fun last => .pure ?_
  exact writesBracketed known inside

theorem writesBrackets : Finds anywhere (n + 1) sort (WritesAt 10) (brackets nested) :=
  .bind (writesAtom same) fun _ _ known => .soFarNext known fun _ _ => writesBracket same

omit same in
theorem bitBoundSilent {value : Int} : Finds anywhere n sort (fun ws _ => ws = []) (bitBound value) := by
  unfold bitBound
  split
  · exact .pure rfl
  · exact .fault (.broken _)

omit same in
theorem natValueSilent {text : String} : Finds anywhere n sort (fun ws _ => ws = []) (natValue text) := by
  unfold natValue
  split
  · exact .pure rfl
  · exact .fault (.broken _)

omit same in
theorem upperBoundShort {ws : List Word} {o : Operand} (known : WritesOperand 10 ws o) :
    Finds anywhere n sort (fun ws' _ => ws' = [] ∧ Balanced ws ∧ (gistsOf ws).length ≤ 1) (upperBound o) := by
  unfold upperBound
  split
  · have number := (WritesAt.writes known).1
    exact bitBoundSilent.weaken fun ws' _ unread => ⟨unread, number.balanced, number.fewer⟩
  · exact .fault (.broken _)

omit same in
theorem writesCoerced {ws : List Word} {o : Operand} (known : WritesOperand 10 ws o) {text : List Char} :
    Finds anywhere n sort (fun ws' => WritesOperand 10 (ws ++ ⟨.colon, text⟩ :: ws')) (coerced o) := by
  refine .ifNext ?_ (.ifNext ?_ (.fault (.syntaxError _)))
  · refine .bind coversType fun ws' t ofType => writesToExpr known fun e ⟨ofE, leads⟩ => .pure ?_
    rw [List.append_nil]
    refine Writes.at ⟨?_, leads.append _⟩ (le_refl 10)
    rw [Sketch.exprCoerce]
    exact (ofE.append (.mark (s := " : ") rfl rfl ofType)).silent.quiet
  · refine Finds.mono (.token (x := .digits) (k := n) (by decide) (fun t _ => ?_) (Nat.le_succ n))
      (fun k is => by simpa using is.2) (Nat.le_refl n)
    refine .bind natValueSilent fun _ m unread => .bind bitBoundSilent fun _ lower unread' => ?_
    refine .bind (upperBoundShort known) fun _ upper ⟨unread'', balanced, fewer⟩ => .pure ?_
    rw [unread, unread', unread'']
    refine ⟨balanced.append (.word rfl (.one rfl)), ?_⟩
    rw [Layout.gistsOfAppend, List.length_append]
    exact Nat.add_le_add_right fewer 2

theorem writesCoercion : Finds anywhere (n + 1) sort (WritesOperand 10) (coercion nested) :=
  .bind (writesBrackets same) fun ws e known =>
    .soFarEats (Q := WritesOperand 10) (a := .expr e) known (by decide) fun _ _ _ known => writesCoerced known

theorem writesUnary : Finds anywhere (n + 1) sort (WritesOperand 9) (unary nested) := by
  refine .byKind fun k _ => ?_
  split
  · rename_i op sign
    have word : k ≠ .endOfText ∧ isSolid k = true ∧ ∀ text, gist ⟨k, text⟩ = .other := by
      unfold unaryOp at sign
      split at sign <;> first | exact ⟨nofun, rfl, fun _ => rfl⟩ | exact absurd sign nofun
    obtain ⟨real, solid, plain⟩ := word
    refine .token (k := n) real (fun t _ => writesExprOf (same .unary) fun ws e found => .pure ?_) (Nat.le_refl _)
    have symbol : (fixed op.symbol).gists = [.other] := by cases op <;> rfl
    rw [List.append_nil]
    exact Writes.at ⟨.mark solid symbol found.1, .other solid (plain _) _⟩ (le_refl 9)
  · exact .ifNext ((writesCoercion same).weaken fun _ _ found => found.lower (Nat.le_succ 9)) (.fault (.syntaxError _))

theorem writesPower : Finds anywhere (n + 1) sort (WritesOperand 8) (power nested) := by
  refine .bind (writesUnary same) fun ws o known => .ifEats (by decide) (fun text => ?_) (.ends (known.lower (Nat.le_succ 8)))
  refine writesToExpr known fun a left => writesJoined (same .power) fun ws' b right => ?_
  have whole : Writes (ws ++ ⟨.power, text⟩ :: ws') (.binary .power a b) :=
    writesBinary rfl (fromLeft (by decide) left) left.2 (grownFromRight rfl right)
  exact whole.at (le_refl 8)

omit same in
theorem writesBinaryChain {m : Production Operand} {operator : Kind → Option BinaryOp} {l : Nat}
    (ofLevel : ∀ k op, operator k = some op → k ≠ .endOfText ∧ isSolid k = true ∧ op.precedence = l ∧
      Layout.grouping op = .left ∧ ∀ a, Layout.isOtherLogical op a = false)
    (step : ∀ {sort : Kind → Prop}, Finds anywhere n sort (WritesOperand (l + 1)) m) :
    Finds anywhere n sort (WritesOperand l) (chain operator Expr.binary m) := by
  refine writesChain (fun k op found => (ofLevel k op found).1) ?_ step step
  intro k op text ws ws' a b found left right
  obtain ⟨_, solid, rfl, groups, single⟩ := ofLevel k op found
  exact (writesBinary solid (grownFromLeft groups (single a) left) left.2 (fromRight right)).at (Nat.le_refl _)

theorem writesMultiplicative : Finds anywhere (n + 1) sort (WritesOperand 7) (multiplicative nested) := by
  refine writesBinaryChain (fun k op found => ?_) (writesPower same)
  cases k <;> cases found <;> exact ⟨nofun, rfl, rfl, rfl, fun _ => rfl⟩

theorem writesAdditive : Finds anywhere (n + 1) sort (WritesOperand 6) (additive nested) := by
  refine writesBinaryChain (fun k op found => ?_) (writesMultiplicative same)
  cases k <;> cases found <;> exact ⟨nofun, rfl, rfl, rfl, fun _ => rfl⟩

theorem writesConcatenation : Finds anywhere (n + 1) sort (WritesOperand 5) (concatenation nested) := by
  refine writesChain (fun k op found => ?_) ?_ (writesAdditive same) (writesAdditive same)
  · rintro rfl
    cases found
  · intro k op text ws ws' a b found left right
    have solid : isSolid k = true := by
      cases k <;> cases found
      rfl
    exact (writesConcat solid left right).at (le_refl 5)

theorem writesRelational : Finds anywhere (n + 1) sort (WritesOperand 4) (relational nested) := by
  refine .bind (writesConcatenation same) fun ws o known => .byKind fun k _ => ?_
  split
  · rename_i op compares
    have word : k ≠ .endOfText ∧ isSolid k = true ∧ op.precedence = 4 ∧ Layout.grouping op = .none := by
      cases k <;> cases compares <;> exact ⟨nofun, rfl, rfl, rfl⟩
    obtain ⟨real, solid, level, groups⟩ := word
    refine .token (k := n + 1) real (fun t _ => writesToExpr known fun a left => ?_) (Nat.le_succ _)
    refine writesJoined (writesConcatenation same) fun ws' b right => ?_
    have ofA : WritesAt (op.precedence + 1) ws a := level ▸ left
    have ofB : WritesAt (op.precedence + 1) ws' b := level ▸ right
    exact (writesBinary solid (fromLeft (groups ▸ nofun) ofA) ofA.2 (fromRight ofB)).at (Nat.le_of_eq level.symm)
  · exact .ends (known.lower (Nat.le_succ 4))

omit same in
theorem precedenceOfBinary {e a b : Expr} {op : BinaryOp} (is : e.asBinary = some (op, a, b)) :
    precedence e = op.precedence := by
  unfold Expr.asBinary at is
  split at is
  · obtain ⟨rfl, _⟩ := Prod.mk.inj (Option.some.inj is)
    rfl
  · exact absurd is nofun

omit same in
theorem logicalWord {k : Kind} {op : BinaryOp} (found : logicalOp k = some op) :
    k ≠ .endOfText ∧ isSolid k = true ∧ op.precedence = 3 ∧ Layout.grouping op = .left ∧
      (∀ a b, Layout.isOtherLogical op (.binary op a b) = false) ∧
        ∀ e, Layout.isOtherLogical op e = true → precedence e = 3 := by
  have other (e : Expr) (mixed : Layout.isOtherLogical op e = true) : precedence e = 3 := by
    unfold Layout.isOtherLogical at mixed
    split at mixed
    · exact precedenceOfBinary ‹_›
    · exact precedenceOfBinary ‹_›
    · exact absurd mixed Bool.false_ne_true
  cases k <;> cases found <;> exact ⟨by decide, rfl, rfl, rfl, fun _ _ => rfl, other⟩

theorem writesLogicalStep {before : List Word} {k : Kind} {first : BinaryOp} {e : Expr} (begun : logicalOp k = some first)
    (known : Covers before (wrappedIf (wrapsLeft first e) (Sketch.expr e)) ∧ Fronted before) :
    Finds anywhere (n + 1) (fun k => (logicalOp k).isSome = true)
      (fun ws e' => Covers (before ++ ws) (wrappedIf (wrapsLeft first e') (Sketch.expr e')) ∧ Fronted (before ++ ws))
      (logicalStep nested first e) := by
  refine .byKind fun k' some => .given (.syntaxError _) fun alike => ?_
  obtain ⟨op, found⟩ := Option.isSome_iff_exists.mp some
  obtain rfl : op = first := by simpa [found] using alike
  obtain ⟨real, solid, level, groups, single, _⟩ := logicalWord found
  refine .token (k := n + 1) real (fun t _ => writesExprOf (writesRelational same) fun ws b right => .pure ?_)
    (Nat.le_succ _)
  have ofB : WritesAt (op.precedence + 1) ws b := level ▸ right
  obtain ⟨whole, leads⟩ := writesBinary (t := t.text.toList) solid known.1 known.2 (fromRight ofB)
  have never : wrapsLeft op (.binary op e b) = false := by
    simp [wrapsLeft, groups, single, show precedence (.binary op e b) = op.precedence from rfl]
  rw [List.append_nil, found, Option.getD_some, never]
  exact ⟨whole, leads⟩

theorem writesLogical : Finds anywhere (n + 1) sort (WritesOperand 3) (logical nested) := by
  refine .bind (writesRelational same) fun ws o known => .byKind fun k _ => ?_
  split
  · exact .ends (known.lower (Nat.le_succ 3))
  · rename_i first begun
    obtain ⟨_, _, level, groups, _, other⟩ := logicalWord begun
    refine writesToExpr known fun e left => ?_
    have wide : Covers ws (wrappedIf (wrapsLeft first e) (Sketch.expr e)) := by
      refine left.1.loosen fun wraps => decide_eq_true ?_
      rcases (by simpa [wrapsLeft, groups, level] using wraps : precedence e < 3 ∨ _) with less | mixed
      · exact Nat.lt_succ_of_lt less
      · rw [other e mixed]
        exact Nat.lt_succ_self 3
    refine .commute (U := fun ws' => WritesOperand 3 (ws ++ ws')) (g := .expr)
      (.soFarNext (Q := fun ws e => Covers ws (wrappedIf (wrapsLeft first e) (Sketch.expr e)) ∧ Fronted ws) ⟨wide, left.2⟩
        fun _ _ => writesLogicalStep same begun) fun ws' e' found => ⟨?_, found.2⟩
    refine found.1.loosen fun wraps => ?_
    have less : precedence e' < 3 := of_decide_eq_true wraps
    simp [wrapsLeft, groups, level, less]

theorem writesImplication {afterImplies : Bool} :
    Finds anywhere (n + 1) sort (WritesOperand 2) (implication nested afterImplies) := by
  refine .bind (writesLogical same) fun ws o known => .byKind fun k _ => ?_
  split
  · refine .token (k := n) (by decide) (fun t _ => writesToExpr known fun a left => ?_) (Nat.le_refl _)
    refine writesJoined (same .implication) fun ws' b right => ?_
    have whole : Writes (ws ++ ⟨.implies, t.text.toList⟩ :: ws') (.binary .implies a b) :=
      writesBinary rfl (fromLeft (by decide) left) left.2 (grownFromRight rfl right)
    exact whole.at (le_refl 2)
  · refine writesToExpr known fun e left => ?_
    have loop : Finds anywhere (n + 1) anywhere (fun ws' acc => WritesAt 2 (ws ++ ws') acc.1)
        (whileHolds (eat .explies) (expliesStep nested) (e, afterImplies)) := by
      refine .soFarEats (Q := fun before (acc : Expr × Bool) => WritesAt 2 before acc.1) (left.lower (Nat.le_succ 2))
        (by decide) ?_
      intro before (a, mixed) text left
      refine .given (.broken _) fun _ => writesExprOf (writesLogical same) fun ws' b right => .pure ?_
      rw [List.append_nil]
      exact (writesExplies left.writes right.writes).at (le_refl 2)
    exact .commute loop.always fun ws' acc found => found
  · exact .ends (known.lower (Nat.le_succ 2))

theorem writesLevel (l : Level) : Finds anywhere (n + 1) sort (WritesOperand (lowest l)) (level nested l) := by
  cases l with
  | whole =>
    refine writesBinaryChain (fun k op found => ?_) (writesImplication same)
    cases k <;> cases found
    exact ⟨nofun, rfl, rfl, rfl, fun _ => rfl⟩
  | implication => exact writesImplication same
  | power => exact writesPower same
  | unary => exact writesUnary same

end Levels

theorem writesNestedOperand {n : Nat} (l : Level) : Finds anywhere n anywhere (WritesOperand (lowest l)) (operand l) :=
  .nest (T := fun l => WritesOperand (lowest l)) (fun _ _ same => writesLevel same) l

theorem writesExpression {n : Nat} {sort : Kind → Prop} : Finds anywhere n sort Writes expression :=
  writesNested writesNestedOperand

end Boogie.Grammar
