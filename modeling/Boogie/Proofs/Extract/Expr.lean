import Boogie.Proofs.Extract.Held

/-! Bit ranges in expressions. Of what a level reads it is known which extracts it holds, and that it is written
as a number if it is one; a bit range that is handed on is written as one, and nothing but a bracket around it
takes it. -/
namespace Boogie.Grammar

open Token (Kind Word)

def OfNumber (ws : List Word) (e : Expr) : Prop :=
  ∀ span value, e = .literal span (.int value) → ∃ n : Nat, value = n ∧ IsNumber ws n

def OfExpr (ws : List Word) (e : Expr) : Prop := Within 0 ws e ∧ OfNumber ws e

def OfOperand (ws : List Word) : Operand → Prop
  | .expr e => OfExpr ws e
  | .bits range => IsRange ws range.upper range.lower

theorem OfExpr.compound {ws : List Word} {e : Expr} (h : Within 0 ws e)
    (compound : ∀ span value, e ≠ .literal span value) : OfExpr ws e :=
  ⟨h, fun _ _ same => absurd same (compound _ _)⟩

theorem OfExpr.between {opened closed : List Char} {ws : List Word} {e : Expr} (h : OfExpr ws e) :
    OfExpr (⟨.leftParen, opened⟩ :: (ws ++ [⟨.rightParen, closed⟩])) e := by
  obtain ⟨⟨ranges, ranged, enough⟩, number⟩ := h
  have last : Ranged [⟨.rightParen, closed⟩] 0 := .one nofun
  refine ⟨⟨ranges, .word nofun ?_, enough⟩, fun span value same => ?_⟩
  · simpa using ranged.append last
  · obtain ⟨n, is, spelled⟩ := number span value same
    exact ⟨n, is, .paren spelled⟩

theorem OfExpr.join {k : Kind} {text : List Char} {ws ws' : List Word} {a b e : Expr} (left : OfExpr ws a)
    (mark : k ≠ .colon) (right : OfExpr ws' b) (held : extracts e = extracts a + extracts b)
    (compound : ∀ span value, e ≠ .literal span value) : OfExpr (ws ++ ⟨k, text⟩ :: ws') e := by
  obtain ⟨⟨ranges, ranged, enough⟩, _⟩ := left
  obtain ⟨⟨ranges', ranged', enough'⟩, _⟩ := right
  refine .compound ⟨_, ranged.append (.word mark ranged'), ?_⟩ compound
  rw [zero_add] at enough enough' ⊢
  exact held ▸ add_le_add enough enough'

section Operands

variable {n : Nat} {sort : Kind → Prop} {α : Type} {T : List Word → α → Prop} {ws : List Word}
  {m : Production Operand} {f : Expr → Production α}

theorem tellsToExpr {o : Operand} (known : OfOperand ws o) (rest : ∀ e, OfExpr ws e → Finds anywhere n sort T (f e)) :
    Finds anywhere n sort T (o.toExpr >>= f) := by
  cases o with
  | expr e => exact rest e known
  | bits range =>
    show Finds anywhere n sort T (brokenAt range.span .misplacedBounds >>= fun _ => f (.placeholder range.span))
    exact .fault (.brokenAt _ _)

theorem tellsExprOf (step : Finds anywhere n sort OfOperand m)
    (rest : ∀ ws e, OfExpr ws e → Finds anywhere n anywhere (fun ws' => T (ws ++ ws')) (f e)) :
    Finds anywhere n sort T (m >>= fun o => o.toExpr >>= f) :=
  .bind step fun ws _ known => tellsToExpr known (rest ws)

theorem tellsAsExpr (step : Finds anywhere n sort OfOperand m) : Finds anywhere n sort OfExpr (do (← m).toExpr) :=
  tellsExprOf (f := pure) step fun _ _ => .ends

theorem tellsJoined {k : Kind} {text : List Char} {a : Expr} {join : Expr → Expr → Expr} (left : OfExpr ws a)
    (mark : k ≠ .colon) (held : ∀ b, extracts (join a b) = extracts a + extracts b)
    (compound : ∀ b span value, join a b ≠ .literal span value) (step : Finds anywhere n sort OfOperand m) :
    Finds anywhere n sort (fun ws' => OfOperand (ws ++ ⟨k, text⟩ :: ws'))
      (do return .expr (join a (← (← m).toExpr))) := by
  refine tellsExprOf step fun ws' b right => .pure ?_
  rw [List.append_nil]
  exact left.join mark right (held b) (compound b)

section Chains

variable {β : Type} {operator : Kind → Option β} {join : β → Expr → Expr → Expr}
  (marks : ∀ k op, operator k = some op → k ≠ .endOfText ∧ k ≠ .colon)
  (held : ∀ op a b, extracts (join op a b) = extracts a + extracts b)
  (compound : ∀ op a b span value, join op a b ≠ .literal span value)
  (step : Finds anywhere n anywhere OfOperand m)
include marks held compound step

theorem tellsChainStep {o : Operand} (known : OfOperand ws o) :
    Finds anywhere n (fun k => (operator k).isSome = true) (fun ws' => OfOperand (ws ++ ws'))
      (chainStep operator join m o) := by
  refine .byKind fun k some => ?_
  split
  · rename_i op found
    obtain ⟨real, mark⟩ := marks k op found
    refine .token (k := n) real (fun t _ => tellsToExpr known fun a left => ?_) (Nat.le_succ n)
    exact tellsJoined left mark (held op a) (compound op a) step
  · rename_i none
    exact absurd some (by simp [none])

theorem tellsChain (first : Finds anywhere n sort OfOperand m) :
    Finds anywhere n sort OfOperand (chain operator join m) := by
  refine .bind first fun ws o known => .soFarNext known fun before o' known' => ?_
  exact tellsChainStep marks held compound step known'

end Chains

end Operands

theorem compoundExpr {n : Nat} {sort : Kind → Prop} {m : Production Expr} (whole : Tells n sort 0 m)
    (compound : Finds anywhere n sort (fun _ e => ∀ span value, e ≠ Expr.literal span value) m) :
    Finds anywhere n sort OfExpr m := (Finds.both whole compound).weaken fun _ _ found => .compound found.1 found.2

section Levels

variable {n : Nat} {sort : Kind → Prop} {nested : Nested} (same : ∀ l, Finds anywhere n anywhere OfOperand (nested l))
include same

theorem tellsNested : Tells n sort 0 nested.expression :=
  (tellsAsExpr (same .whole)).always.weaken fun _ _ found => found.1

theorem tellsNameOrCall : Finds anywhere (n + 1) (· = .identifier) OfExpr (nameOrCall nested.expression) := by
  have one : Tells n anywhere 0 nested.expression := tellsNested same
  have whole : Tells (n + 1) (· = .identifier) 0 (nameOrCall nested.expression) := by
    refine .identThen fun id => .ifEats (by decide) ?_ (.pure (by simp))
    exact .bind (tellsArguments one) fun args => .spanFrom fun span => .pure (by simp)
  refine compoundExpr whole (.skip fun id => .skip fun called => ?_)
  split
  · exact .skip fun args => .skip fun span => .pure nofun
  · exact .pure nofun

theorem tellsLetVar : Tells n sort 0 (letVar nested.expression) :=
  .bind (tellsAttributes (tellsNested same)) fun found => .ident fun id => .pure (by simp)

theorem tellsLetBody : Finds anywhere n (· = .kwVar) OfExpr (letBody nested.expression) := by
  have one : Tells n anywhere 0 nested.expression := tellsNested same
  have whole : Tells n (· = .kwVar) 0 (letBody nested.expression) := by
    refine .word (by decide) fun t => .bind (.commaSeparated (tellsLetVar same)) fun vars => .expect (by decide) ?_
    refine .bind (.commaSeparated one) fun values => .expect (by decide) (.bind (tellsAttributes one) fun found => ?_)
    exact .bind one fun body => .pure (by simp)
  refine compoundExpr whole (.skip fun t => .skip fun vars => .skip fun _ => .skip fun values => .skip fun _ => ?_)
  exact .skip fun found => .skip fun body => .pure nofun

theorem tellsBound : Finds anywhere n sort (fun ws found => Within 0 ws found ∧ (found.1 ≠ [] ∨ found.2 ≠ []))
    (bound nested.expression) := by
  have one : Tells n anywhere 0 nested.expression := tellsNested same
  have groups {sort : Kind → Prop} : Tells n sort 0 (attributedGroups nested.expression .boundVariables) :=
    tellsAttributedGroups one
  refine Finds.both (?_ : Tells n sort 0 (bound nested.expression)) ?_
  · refine Tells.ifNext ?_ (.ifNext (.last groups fun vars => by simp) (.fault (.syntaxError _)))
    have params : Tells n (fun k => sort k ∧ (k == .less) = true) 0 typeParams :=
      .expect (by decide) (.idents fun ids _ => .expect (by decide) (.pure (by simp)))
    refine .bind params fun ids => .bind ?_ fun vars => .pure (by simp)
    exact Tells.ifNext groups (.pure le_rfl)
  · refine .ifNext ?_ (.ifNext ?_ (.fault (.syntaxError _)))
    · have names : Finds anywhere n anywhere (fun _ ids => ∃ id rest, ids = id :: rest ∧ True) idents := .separated .any
      have params : Finds anywhere n (fun k => sort k ∧ (k == .less) = true) (fun _ ids => ids ≠ []) typeParams :=
        .skip fun _ => .bind names fun _ ids ⟨id, rest, is, _⟩ => .skip fun _ => .pure (is ▸ nofun)
      exact .bind params fun _ ids some => .skip fun vars => .pure (.inl some)
    · exact .bind attributedGroupsSome fun _ vars some => .pure (.inr some)

omit same in
theorem bindingIs {start : Span} {binder : Binder} {params : List Ident} {vars : List Variable}
    {attributes : List Attribute} {triggers : List Trigger} {body : Expr} (some : params ≠ [] ∨ vars ≠ []) :
    binding start binder params vars attributes triggers body =
      .bind (start.merge body.span) binder params vars attributes (if binder == .lambda then [] else triggers) body := by
  rw [binding, if_neg]
  simpa [List.isEmpty_iff, imp_iff_not_or] using some

theorem tellsBinder {k : Kind} (mark : k ≠ .endOfText ∧ k ≠ .colon) {binder : Binder} {start : Span} :
    Finds anywhere n (· = k) OfExpr (advance >>= fun _ => bindBody nested.expression binder start) := by
  have one : Tells n anywhere 0 nested.expression := tellsNested same
  refine compoundExpr (.word mark fun t => .bindSuch (tellsBound same) fun (params, vars) some => ?_) ?_
  · refine .expect (by decide) (.bind (tellsBracedGroups one) fun (found, triggers) => .bind one fun body => ?_)
    refine .given (.broken _) fun none => .pure ?_
    rw [bindingIs some]
    split
    · have noTriggers : triggers = [] := by simpa [*] using none
      simp [noTriggers]
    · simp [add_assoc]
  · refine .skip fun t => .bind (tellsBound same) fun _ (params, vars) ⟨_, filled⟩ => .skip fun _ => ?_
    refine .skip fun (found, triggers) => .skip fun body => .skip fun _ => .pure ?_
    rw [bindingIs filled]
    nofun

theorem tellsParenBody {start : Span} : Finds anywhere n sort OfExpr (parenBody nested start) := by
  refine .ifNext ?_ (.ifNext ?_ (.byKind fun k _ => ?_))
  · refine .bind (same .whole).always fun ws o known => ?_
    cases o with
    | expr e => exact .ends known
    | bits range => exact .fault (.broken _)
  · exact (tellsLetBody same).mono (fun k is => by simpa using is.2) (Nat.le_refl n)
  · split
    · rename_i binder found
      have mark : k ≠ .endOfText ∧ k ≠ .colon := by constructor <;> rintro rfl <;> exact absurd found nofun
      exact tellsBinder same mark
    · exact .fault (.syntaxError _)

theorem tellsParen : Finds anywhere (n + 1) (· = .leftParen) OfExpr (paren nested) := by
  refine .token (k := n) (by decide) (fun t _ => ?_) (Nat.le_refl _)
  refine .bind (tellsParenBody same) fun ws e found => .expect (by decide) fun closed => .pure ?_
  exact found.between

theorem tellsIfThenElse : Finds anywhere (n + 1) (· = .kwIf) OfExpr (ifThenElse nested.expression) := by
  have one : Tells n anywhere 0 nested.expression := tellsNested same
  have whole : Tells (n + 1) (· = .kwIf) 0 (ifThenElse nested.expression) := by
    refine .token (by decide) fun t => .bind one fun condition => .expect (by decide) (.bind one fun thenPart => ?_)
    exact .expect (by decide) (.bind one fun elsePart => .pure (by simp [add_assoc]))
  refine compoundExpr whole (.skip fun t => .skip fun condition => .skip fun _ => .skip fun thenPart => ?_)
  exact .skip fun _ => .skip fun elsePart => .pure nofun

theorem tellsParenthesized : Tells n sort 0 (parenthesized nested.expression) :=
  .expect (by decide) (.bind (tellsNested same) fun e => .expect (by decide) (.pure (by simp)))

theorem tellsOld : Finds anywhere (n + 1) (· = .kwOld) OfExpr (oldExpr nested.expression) := by
  have whole : Tells (n + 1) (· = .kwOld) 0 (oldExpr nested.expression) :=
    .token (by decide) fun t => .bind (tellsParenthesized same) fun e => .spanFrom fun span => .pure (by simp)
  exact compoundExpr whole (.skip fun t => .skip fun e => .skip fun span => .pure nofun)

theorem tellsConverted {k : Kind} (mark : k ≠ .endOfText ∧ k ≠ .colon) {target : Conversion} :
    Finds anywhere (n + 1) (· = k) OfExpr (converted target nested.expression) := by
  have whole : Tells (n + 1) (· = k) 0 (converted target nested.expression) :=
    .token mark fun t => .bind (tellsParenthesized same) fun e => .spanFrom fun span => .pure (by simp)
  exact compoundExpr whole (.skip fun t => .skip fun e => .skip fun span => .pure nofun)

theorem tellsBlockCmd : Finds anywhere n (fun k => commandStart.contains k = true) (LooselyWithin 0)
    (blockCmd nested.expression) := by
  refine .bind (findsLabelOrCmd (tellsNested same)) fun ws found ofFound => ?_
  cases found with
  | cmd c => exact .ends ofFound
  | label id => exact .fault (.broken _)
  | mistake => exact .ends ofFound

theorem tellsBlockTransfer : Finds anywhere n sort (BegunWithin 0) (blockTransfer nested.expression) := by
  have labels : Tells n anywhere 0 idents := Tells.idents (f := pure) fun ids _ => .pure (by simp)
  have goto {start : Span} : Tells n anywhere 0 (do
      let labels ← idents
      return Transfer.goto (← spanFrom start) labels) :=
    .bind labels fun ids => .spanFrom fun span => .pure (by simp)
  have leave {start : Span} : Tells n anywhere 0 (do
      let value ← nested.expression
      return Transfer.leaveWith (← spanFrom start) value) :=
    .bind (tellsNested same) fun value => .spanFrom fun span => .pure (by simp)
  refine .look fun start => .eat (by decide) (fun text => Finds.weaken goto ?_) ?_ (Nat.le_succ n)
  · exact fun ws t found => ⟨⟨_, _, rfl, rfl⟩, .word nofun found⟩
  · refine .eat (by decide) (fun text => Finds.weaken leave ?_) (.fault (.syntaxError _)) (Nat.le_succ n)
    exact fun ws t found => ⟨⟨_, _, rfl, rfl⟩, .word nofun found⟩

theorem tellsBlock : Tells n sort 0 (block nested.expression) := by
  have inner (label : Ident) : Finds anywhere n anywhere (BegunWithin 0) (do
      let cmds ← many (checkAny commandStart) (blockCmd nested.expression)
      let transfer ← blockTransfer nested.expression
      expect .semicolon
      return (⟨label.name, cmds.filterMap id, transfer, ← spanFrom label.span⟩ : Block)) := by
    refine findsLoosely (manyLoosely (tellsBlockCmd same)) fun cmds => ?_
    refine findsBegun (tellsBlockTransfer same) fun transfer => .expect (by decide) (.spanFrom fun span => .pure ?_)
    rw [Block.extractsMk, extractsPresent, zero_add]
  refine Finds.mono (.ident fun text span => .expect (by decide) fun colon => ?_) (fun _ h => h) (Nat.le_succ n)
  refine (inner _).weaken fun ws b ⟨opens, ranges, ranged, enough⟩ => ?_
  obtain ⟨_, ranged'⟩ := Loose.label ws ranges opens ranged
  exact ⟨_, ranged', by rwa [zero_add]⟩

theorem tellsCode : Finds anywhere (n + 1) (· = .leftCode) OfExpr (codeExpr nested.expression) := by
  have whole : Tells (n + 1) (· = .leftCode) 0 (codeExpr nested.expression) := by
    refine .token (by decide) fun t => .bind (tellsLocalVariables (tellsNested same)) fun locals => ?_
    refine .bind (tellsBlock same) fun first => .bind (.manyNext (tellsBlock same)) fun rest => .expect (by decide) ?_
    exact .spanFrom fun span => .pure (by simp [add_assoc])
  refine compoundExpr whole (.skip fun t => .skip fun locals => .skip fun first => .skip fun rest => ?_)
  exact .skip fun _ => .skip fun span => .pure nofun

omit same in
theorem numberOf {t : Token} {value : Int} (found : literalOf t = some (.int value)) :
    t.kind = .digits ∧ ∃ n : Nat, value = n ∧ Text.readNat t.text.toList = some n := by
  unfold literalOf at found
  split at found
  case h_3 kind =>
    obtain ⟨_, cast, is⟩ := Option.map_eq_some_iff.mp found
    obtain ⟨n, reads, same⟩ := Option.bind_eq_some_iff.mp cast
    exact ⟨kind, n, (Literal.int.inj is).symm.trans (Option.some.inj same).symm, reads⟩
  all_goals simp at found

omit same in
theorem tellsLiteral {k : Kind} (first : literalStart.contains k = true) : Finds anywhere n (· = k) OfExpr literal := by
  have mark : k ≠ .endOfText ∧ k ≠ .colon := by constructor <;> rintro rfl <;> exact absurd first (by decide)
  refine .token (k := n) mark.1 (fun t kind => ?_) (Nat.le_succ n)
  subst kind
  cases value : literalOf t with
  | some v =>
    have found : OfExpr [⟨t.kind, t.text.toList⟩] (.literal t.span v) := by
      refine ⟨.word mark.2 (.nil le_rfl), ?_⟩
      rintro _ _ ⟨⟩
      obtain ⟨digits, number, is, reads⟩ := numberOf value
      exact ⟨number, is, digits ▸ .digits reads⟩
    rw [literalValue, value]
    show Finds _ _ _ _ (pure (Expr.literal t.span v))
    exact .pure found
  | none =>
    rw [literalValue, value]
    exact .bind (T := fun _ _ => False) (.fault (.broken _)) fun _ _ => False.elim

theorem tellsAtom : Finds anywhere (n + 1) sort OfExpr (atom nested) := by
  refine .byKind fun k _ => ?_
  split
  · exact tellsNameOrCall same
  · exact tellsParen same
  · exact tellsIfThenElse same
  · exact tellsCode same
  · exact tellsOld same
  · exact tellsConverted same (by decide)
  · exact tellsConverted same (by decide)
  · split
    · exact tellsLiteral ‹_›
    · exact .fault (.syntaxError _)

def OfIndexes (ws : List Word) : List Expr × Option BitRange × Option Expr → Prop
  | (indexes, none, stored) => Within 0 ws (indexes, stored)
  | (indexes, some range, stored) => indexes = [] ∧ stored = none ∧ IsRange ws range.upper range.lower

theorem tellsFurther {first : Operand} {rule : Rule} : Tells n sort 0 (further nested first rule) := by
  refine Finds.bind (same .whole).always fun ws o known => ?_
  cases o with
  | expr e => exact .given (.broken _) fun _ => .ends known.1
  | bits range => exact .given (.broken _) fun none => absurd none (by simp [Operand.isBits])

omit same in
theorem tellsNoFurther {range : BitRange} {rule : Rule} :
    Finds anywhere n sort (fun _ _ => False) (further nested (.bits range) rule) :=
  .skip fun o => .given (.broken _) fun none => absurd none (by simp [Operand.isBits])

theorem tellsStored {e : Expr} : Tells n sort 0 (stored nested (.expr e)) :=
  .ifEats (by decide) (.last (tellsFurther same) fun value => by simp) (.pure le_rfl)

omit same in
theorem tellsNothingStored {range : BitRange} :
    Finds anywhere n sort (fun ws value => ws = [] ∧ value = none) (stored nested (.bits range)) :=
  .eat (by decide) (fun text => .bind tellsNoFurther fun _ _ => False.elim) (.pure ⟨rfl, rfl⟩) (Nat.le_succ n)

theorem tellsIndexes : Finds anywhere n sort OfIndexes (indexes nested) := by
  refine .ifNext (.bind (same .whole).always fun ws first known => ?_) ?_
  · cases first with
    | expr e =>
      obtain ⟨ranges, ranged, enough⟩ := known.1
      refine .bind (Tells.manyEats (by decide) (tellsFurther same)) fun ws' rest ⟨ranges', ranged', enough'⟩ => ?_
      refine .bind (tellsStored same) fun ws'' value ⟨ranges'', ranged'', enough''⟩ => .pure ?_
      rw [List.append_nil]
      refine ⟨_, ranged.append (ranged'.append ranged''), ?_⟩
      rw [zero_add] at enough enough' enough'' ⊢
      rw [extractsPair, extractsCons, add_assoc]
      exact add_le_add enough (add_le_add enough' enough'')
    | bits range =>
      refine .bind (.manyEats (by decide) tellsNoFurther) fun ws' rest items => ?_
      cases items with
      | cons none => exact none.elim
      | nil =>
        refine .bind tellsNothingStored fun ws' value ⟨unread, noValue⟩ => .pure ⟨rfl, noValue, ?_⟩
        rw [unread, List.append_nil, List.append_nil, List.append_nil]
        exact known
  · have value : Tells n anywhere 0 nested.expression := tellsNested same
    refine .eat (by decide) (fun text => ?_) (.pure ?_) (Nat.le_succ n)
    · refine .bind value fun ws e ⟨ranges, ranged, enough⟩ => .pure ?_
      rw [List.append_nil]
      exact ⟨ranges, .word nofun ranged, by simpa using enough⟩
    · exact .nil le_rfl

omit same in
theorem ofBracketed {opened closed : List Char} {ws : List Word} {span : Span} {base : Expr}
    {found : List Expr × Option BitRange × Option Expr} (h : OfIndexes ws found) :
    Within (extracts base) (⟨.leftBracket, opened⟩ :: (ws ++ [⟨.rightBracket, closed⟩]))
      (bracketed span base found) := by
  have last : Ranged [⟨.rightBracket, closed⟩] 0 := .one nofun
  obtain ⟨indexes, range, stored⟩ := found
  cases range with
  | none =>
    obtain ⟨ranges, ranged, enough⟩ := h
    refine ⟨ranges, .word nofun (by simpa using ranged.append last), ?_⟩
    rw [zero_add, extractsPair] at enough
    cases stored with
    | none => simpa [bracketed] using enough
    | some value => simpa [bracketed] using enough
  | some range =>
    obtain ⟨rfl, rfl, bounds⟩ := h
    refine ⟨_, .bracket bounds .nil, ?_⟩
    simp [bracketed, add_comm]

omit same in
theorem bracketedCompound {span : Span} {base : Expr} {found : List Expr × Option BitRange × Option Expr}
    (at_ : Span) (value : Literal) : bracketed span base found ≠ .literal at_ value := by
  unfold bracketed
  split <;> nofun

theorem tellsBracket {before : List Word} {base : Expr} (known : OfExpr before base) :
    Finds anywhere (n + 1) (fun k => (k == .leftBracket) = true) (fun ws => OfExpr (before ++ ws))
      (bracket nested base) := by
  obtain ⟨⟨ranges, ranged, enough⟩, _⟩ := known
  rw [zero_add] at enough
  refine (Finds.token (x := .leftBracket) (k := n) (by decide) (fun t _ => ?_) (Nat.le_refl _)).mono
    (fun _ is => by simpa using is) (Nat.le_refl _)
  refine .bind (tellsIndexes same) fun ws found known => .expect (by decide) fun closed => .look fun last => .pure ?_
  refine .compound (.put ranged ((ofBracketed known).less ?_)) bracketedCompound
  rwa [zero_add]

theorem tellsBrackets : Finds anywhere (n + 1) sort OfExpr (brackets nested) :=
  .bind (tellsAtom same) fun _ _ known => .soFarNext known fun _ _ => tellsBracket same

omit same in
theorem tellsBitBound {value : Int} :
    Finds anywhere n sort (fun ws m => ws = [] ∧ value = (m : Nat) ∧ m < Text.wordCount 32) (bitBound value) := by
  unfold bitBound
  split
  · rename_i fits
    exact .pure ⟨rfl, (Int.toNat_of_nonneg fits.1).symm, (Int.toNat_lt fits.1).mpr fits.2⟩
  · exact .fault (.broken _)

omit same in
theorem tellsNatValue {text : String} :
    Finds anywhere n sort (fun ws m => ws = [] ∧ Text.readNat text.toList = some m) (natValue text) := by
  unfold natValue
  split
  · exact .pure ⟨rfl, ‹_›⟩
  · exact .fault (.broken _)

omit same in
theorem tellsUpperBound {ws : List Word} {o : Operand} (known : OfOperand ws o) :
    Finds anywhere n sort (fun ws' m => ws' = [] ∧ IsNumber ws m ∧ m < Text.wordCount 32) (upperBound o) := by
  unfold upperBound
  split
  · rename_i span value
    refine tellsBitBound.weaken fun ws' m ⟨unread, is, fits⟩ => ⟨unread, ?_, fits⟩
    obtain ⟨number, same, spelled⟩ := known.2 span value rfl
    have equal : m = number := by omega
    exact equal ▸ spelled
  · exact .fault (.broken _)

omit same in
theorem tellsCoerced {ws : List Word} {o : Operand} (known : OfOperand ws o) {text : List Char} :
    Finds anywhere n sort (fun ws' => OfOperand (ws ++ ⟨.colon, text⟩ :: ws')) (coerced o) := by
  refine .ifNext ?_ (.ifNext ?_ (.fault (.syntaxError _)))
  · refine .bind findsType fun ws' t derived => tellsToExpr known fun e ⟨⟨ranges, ranged, enough⟩, _⟩ => .pure ?_
    rw [List.append_nil]
    refine .compound ⟨_, ranged.append derived.colonRanged, ?_⟩ nofun
    simpa using enough
  · refine Finds.mono (.token (x := .digits) (k := n) (by decide) (fun t _ => ?_) (Nat.le_succ n))
      (fun k is => by simpa using is.2) (Nat.le_refl n)
    refine .bind tellsNatValue fun _ m ⟨unread, reads⟩ => .bind tellsBitBound fun _ lower ⟨unread', is, fits⟩ => ?_
    refine .bind (tellsUpperBound known) fun _ upper ⟨unread'', spelled, fits'⟩ => .pure ?_
    obtain rfl : m = lower := by omega
    rw [unread, unread', unread'']
    exact .bounds spelled fits' reads fits

theorem tellsCoercion : Finds anywhere (n + 1) sort OfOperand (coercion nested) :=
  .bind (tellsBrackets same) fun ws e known =>
    .soFarEats (Q := OfOperand) (a := .expr e) known (by decide) fun _ _ _ known => tellsCoerced known

theorem tellsUnary : Finds anywhere (n + 1) sort OfOperand (unary nested) := by
  refine .byKind fun k _ => ?_
  split
  · rename_i op sign
    have mark : k ≠ .endOfText ∧ k ≠ .colon := by constructor <;> rintro rfl <;> exact absurd sign nofun
    refine .token (k := n) mark.1 (fun t _ => tellsExprOf (same .unary) fun ws e found => .pure ?_) (Nat.le_refl _)
    rw [List.append_nil]
    exact .compound (.word mark.2 (by simpa [Within] using found.1)) nofun
  · exact .ifNext (tellsCoercion same) (.fault (.syntaxError _))

theorem tellsPower : Finds anywhere (n + 1) sort OfOperand (power nested) := by
  refine .bind (tellsUnary same) fun ws o known => .ifEats (by decide) (fun text => ?_) (.ends known)
  refine tellsToExpr known fun a left => ?_
  exact tellsJoined left (by decide) (Expr.extractsBinary _ a) nofun (same .power)

theorem tellsMultiplicative : Finds anywhere (n + 1) sort OfOperand (multiplicative nested) := by
  refine tellsChain ?_ Expr.extractsBinary nofun (tellsPower same) (tellsPower same)
  intro k op found
  constructor <;> rintro rfl <;> exact absurd found nofun

theorem tellsAdditive : Finds anywhere (n + 1) sort OfOperand (additive nested) := by
  refine tellsChain ?_ Expr.extractsBinary nofun (tellsMultiplicative same) (tellsMultiplicative same)
  intro k op found
  constructor <;> rintro rfl <;> exact absurd found nofun

theorem tellsConcatenation : Finds anywhere (n + 1) sort OfOperand (concatenation nested) := by
  refine tellsChain ?_ (fun _ a b => by simp) nofun (tellsAdditive same) (tellsAdditive same)
  intro k op found
  constructor <;> rintro rfl <;> exact absurd found nofun

theorem tellsRelational : Finds anywhere (n + 1) sort OfOperand (relational nested) := by
  refine .bind (tellsConcatenation same) fun ws o known => .byKind fun k _ => ?_
  split
  · rename_i op compares
    have mark : k ≠ .endOfText ∧ k ≠ .colon := by constructor <;> rintro rfl <;> exact absurd compares nofun
    refine .token (k := n + 1) mark.1 (fun t _ => tellsToExpr known fun a left => ?_) (Nat.le_succ _)
    exact tellsJoined left mark.2 (Expr.extractsBinary _ a) nofun (tellsConcatenation same)
  · exact .ends known

theorem tellsLogicalStep {before : List Word} {first : BinaryOp} {e : Expr} (known : OfExpr before e) :
    Finds anywhere (n + 1) (fun k => (logicalOp k).isSome = true) (fun ws => OfExpr (before ++ ws))
      (logicalStep nested first e) := by
  refine .byKind fun k some => .given (.syntaxError _) fun _ => ?_
  have mark : k ≠ .endOfText ∧ k ≠ .colon := by constructor <;> rintro rfl <;> exact absurd some nofun
  refine .token (k := n + 1) mark.1 (fun t _ => tellsExprOf (tellsRelational same) fun ws b right => .pure ?_)
    (Nat.le_succ _)
  rw [List.append_nil]
  exact known.join mark.2 right (Expr.extractsBinary _ e b) nofun

theorem tellsLogical : Finds anywhere (n + 1) sort OfOperand (logical nested) := by
  refine .bind (tellsRelational same) fun ws o known => .byKind fun k _ => ?_
  split
  · exact .ends known
  · refine tellsToExpr known fun e left => ?_
    refine .commute (U := fun ws' => OfOperand (ws ++ ws')) (g := .expr)
      (.soFarNext left fun _ _ => tellsLogicalStep same) fun ws' e' found => found

theorem tellsImplication {afterImplies : Bool} :
    Finds anywhere (n + 1) sort OfOperand (implication nested afterImplies) := by
  refine .bind (tellsLogical same) fun ws o known => .byKind fun k _ => ?_
  split
  · refine .token (k := n) (by decide) (fun t _ => tellsToExpr known fun a left => ?_) (Nat.le_refl _)
    exact tellsJoined left (by decide) (Expr.extractsBinary _ a) nofun (same .implication)
  · refine tellsToExpr known fun e left => ?_
    have loop : Finds anywhere (n + 1) anywhere (fun ws' acc => OfExpr (ws ++ ws') acc.1)
        (whileHolds (eat .explies) (expliesStep nested) (e, afterImplies)) := by
      refine .soFarEats (Q := fun before (acc : Expr × Bool) => OfExpr before acc.1) left (by decide) ?_
      intro before (a, mixed) text left
      refine .given (.broken _) fun _ => tellsExprOf (tellsLogical same) fun ws' b right => .pure ?_
      rw [List.append_nil]
      exact left.join nofun right (by simp [add_comm]) nofun
    exact .commute loop.always fun ws' acc found => found
  · exact .ends known

theorem tellsLevel (l : Level) : Finds anywhere (n + 1) sort OfOperand (level nested l) := by
  cases l with
  | whole =>
    refine tellsChain ?_ Expr.extractsBinary nofun (tellsImplication same) (tellsImplication same)
    intro k op found
    constructor <;> rintro rfl <;> exact absurd found nofun
  | implication => exact tellsImplication same
  | power => exact tellsPower same
  | unary => exact tellsUnary same

end Levels

theorem tellsOperand {n : Nat} (l : Level) : Finds anywhere n anywhere OfOperand (operand l) :=
  .nest (T := fun _ => OfOperand) (fun _ _ same => tellsLevel same) l

theorem tellsExpression {n : Nat} {sort : Kind → Prop} : Tells n sort 0 expression := tellsNested tellsOperand

end Boogie.Grammar
