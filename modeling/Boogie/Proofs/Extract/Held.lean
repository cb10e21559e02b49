import Boogie.Proofs.Extract.Ranged

/-! Bit ranges in what expressions hold and are held by: attributes, variables and commands. -/
namespace Boogie.Grammar

open Token (Kind Word)

instance : Extracting Braced where
  extracts
    | .keyed a => extracts a
    | .trigger t => extracts t
    | .mistake => 0

@[simp] theorem extractsKeyed (a : Attribute) : extracts (Braced.keyed a) = extracts a := rfl

@[simp] theorem extractsTrigger (t : Trigger) : extracts (Braced.trigger t) = extracts t := rfl

@[simp] theorem extractsNotBraced : extracts Braced.mistake = 0 := rfl

theorem extractsGroups (found : List Braced) :
    extracts found = extracts (found.filterMap Braced.keyed?) + extracts (found.filterMap Braced.trigger?) := by
  induction found with
  | nil => rfl
  | cons b rest ih =>
    cases b <;> simp [List.filterMap_cons, Braced.keyed?, Braced.trigger?, ih, add_assoc, add_left_comm]

theorem extractsPresent {α : Type} [Extracting α] (found : List (Option α)) :
    extracts (found.filterMap id) = extracts found := by
  induction found with
  | nil => rfl
  | cons o rest ih => cases o <;> simpa using ih

instance : Extracting LabelOrCmd where
  extracts
    | .cmd c => extracts c
    | _ => 0

@[simp] theorem extractsCmd (c : Cmd) : extracts (LabelOrCmd.cmd c) = extracts c := rfl

@[simp] theorem extractsLabel (id : Ident) : extracts (LabelOrCmd.label id) = 0 := rfl

@[simp] theorem extractsNoCmd : extracts LabelOrCmd.mistake = 0 := rfl

section Held

variable {n : Nat} {sort : Kind → Prop} {kept : Multiset (Nat × Nat)} {expr : Production Expr}
  (one : Tells n anywhere 0 expr)
include one

theorem tellsAttributeParam : Tells n sort 0 (attributeParam expr) := by
  refine .ifNext (.advance ?_ fun t _ => .pure (by simp)) (.last one.always fun e => by simp)
  rintro x ⟨_, is⟩
  have same : x = .string := by simpa using is
  exact same ▸ by decide

theorem tellsBraced : Tells n sort 0 (braced expr) := by
  refine .look fun start => .expect (by decide) ?_
  refine Finds.eat (by decide) (fun colon => Tells.colonIdent fun key => ?_) (Tells.ifNext ?_ ?_) (Nat.le_succ n)
  · have params : Tells n anywhere 0 (ifNext (checkAny exprStart) (commaSeparated (attributeParam expr)) (pure [])) :=
      .ifNext (.commaSeparated (tellsAttributeParam one)) (.pure le_rfl)
    refine .bind params fun params => .expect (by decide) (.spanFrom fun span => ?_)
    split
    · split
      · exact .pure (by simp)
      · exact .fault (.broken _)
    · exact .pure (by simp)
  · exact .bind (.commaSeparated one.always) fun es => .expect (by decide) (.spanFrom fun span => .pure (by simp))
  · exact .fault (.syntaxError _)

theorem tellsBracedGroups : Tells n sort 0 (bracedGroups expr) :=
  .last (.manyNext (tellsBraced one)) fun found => by simp [extractsGroups found]

theorem tellsAttributeOnly : Tells n sort 0 (attributeOnly expr) := by
  refine .bind (tellsBraced one) fun found => .given (.broken _) fun none => .pure ?_
  cases found with
  | keyed a => simp [Braced.keyed?]
  | trigger t => simp [Braced.trigger?] at none
  | mistake => exact le_rfl

theorem tellsAttributes : Tells n sort 0 (attributes expr) :=
  .last (.manyNext (tellsAttributeOnly one)) fun found => by rw [extractsPresent, zero_add]

theorem tellsWhere {role : GroupRole} : Tells n sort 0 (optionalWhere expr role) := by
  refine .ifEats (by decide) (.bind one fun e => ?_) (.pure le_rfl)
  split
  · exact .pure (by simp)
  · exact .fault (.broken _)

omit one in
theorem heldByAll {α β : Type} [Extracting α] {as : List β} {f : β → α} (some : as ≠ [])
    (each : ∀ b, kept ≤ extracts (f b)) : kept ≤ extracts (as.map f) := by
  obtain ⟨b, rest, rfl⟩ := List.exists_cons_of_ne_nil some
  rw [List.map_cons, extractsCons]
  exact (each b).trans (Multiset.le_add_right _ _)

theorem tellsTypedGroup {role : GroupRole} {as : List Attribute} :
    Tells n sort (extracts as) (typedGroup expr role as) := by
  refine .idents fun names some => .expectType fun t => .bind (tellsWhere one) fun e => .pure ?_
  exact heldByAll some fun id => by simp [add_comm]

theorem tellsAttributedGroup {role : GroupRole} : Tells n sort 0 (attributedGroup expr role) := by
  refine .bind (tellsAttributes one) fun found => ?_
  split
  · exact .fault (.broken _)
  · rw [zero_add]
    exact tellsTypedGroup one

omit one in
theorem extractsFlatten {α : Type} [Extracting α] (groups : List (List α)) :
    extracts groups.flatten = extracts groups := by
  induction groups with
  | nil => rfl
  | cons g rest ih => simp [ih]

omit one in
theorem typedGroupSome {role : GroupRole} {as : List Attribute} :
    Finds anywhere n sort (fun _ vs => vs ≠ []) (typedGroup expr role as) := by
  have names : Finds anywhere n sort (fun _ ids => ∃ id rest, ids = id :: rest ∧ True) idents := .separated .any
  refine .bind names fun _ ids ⟨id, rest, is, _⟩ => .skip fun _ => .skip fun t => .skip fun e => .pure ?_
  simp [is]

omit one in
theorem attributedGroupsSome {role : GroupRole} :
    Finds anywhere n sort (fun _ vs => vs ≠ []) (attributedGroups expr role) := by
  have group : Finds anywhere n sort (fun _ vs => vs ≠ []) (attributedGroup expr role) := by
    refine .skip fun found => ?_
    split
    · exact .fault (.broken _)
    · exact typedGroupSome
  refine .bind (.separated group) fun _ groups ⟨g, rest, is, filled⟩ => .pure ?_
  simp [is, filled]

theorem tellsAttributedGroups {role : GroupRole} : Tells n sort 0 (attributedGroups expr role) :=
  .last (.commaSeparated (tellsAttributedGroup one)) fun groups => by simp [extractsFlatten]

theorem tellsVariableDecl {role : GroupRole} : Tells n sort 0 (variableDecl expr role) := by
  refine .expect (by decide) (.bind (tellsAttributes one) fun found => ?_)
  rw [zero_add]
  refine .carry (.commaSeparated (tellsTypedGroup one)) fun groups => .expect (by decide) ?_
  exact .pure (extractsFlatten groups).ge

theorem tellsLocalVariables : Tells n sort 0 (localVariables expr) :=
  .last (.manyNext (tellsVariableDecl one)) fun found => by simp [extractsFlatten]

theorem tellsOptionalExprs : Tells n sort 0 (optionalExprs expr) :=
  .ifNext (.commaSeparated one.always) (.pure le_rfl)

theorem tellsTarget {id : Ident} : Tells n sort 0 (target expr id) := by
  refine Tells.whileEats (a := Target.name id) (by decide) fun map => ?_
  exact .bind (tellsOptionalExprs one) fun indexes => .expect (by decide) (.spanFrom fun span => .pure (by simp))

theorem findsLabelOrAssign : Finds anywhere n sort (LooselyWithin 0) (labelOrAssign expr) := by
  have assign (id : Ident) : Tells n anywhere 0 (do
      let first ← target expr id
      let rest ← many (eat .comma) (do target expr (← ident))
      expect .assign
      let values ← commaSeparated expr
      expect .semicolon
      return LabelOrCmd.cmd (.assign (← spanFrom id.span) (first :: rest) values)) := by
    refine .bind (tellsTarget one) fun first => .bind (.manyEats (by decide) (.ident fun id => tellsTarget one)) ?_
    refine fun rest => .expect (by decide) (.bind (.commaSeparated one) fun values => .expect (by decide) ?_)
    exact .spanFrom fun span => .pure (by simp)
  refine Finds.mono (.ident fun text span => ?_) (fun _ h => h) (Nat.le_succ n)
  refine .eat (by decide) (fun colon => .pure ⟨0, .label, le_rfl⟩) (.ifNext ?_ ?_) (Nat.le_succ n)
  · exact Finds.weaken (assign _).always fun ws found within => Within.loose (.word nofun within) nofun
  · exact .fault (.syntaxError _)

theorem tellsArguments : Tells n sort 0 (callArguments expr) :=
  .bind (tellsOptionalExprs one) fun ins => .expect (by decide) (.pure (by simp))

theorem tellsCallParams {isAsync isFree : Bool} {as : List Attribute} {start : Span} :
    Tells n sort (extracts as) (callParams expr isAsync isFree as start) := by
  refine .ident fun first => .ifEats (by decide) ?_ (.ifNext ?_ ?_)
  · exact .bind (tellsArguments one) fun ins => .spanFrom fun span => .pure (by simp [add_comm])
  · refine .bind (.manyEats (by decide) .name) fun rest => .expect (by decide) (.ident fun callee => ?_)
    refine .expect (by decide) (.bind (tellsArguments one) fun ins => .spanFrom fun span => .pure ?_)
    simp [add_comm]
  · exact .fault (.syntaxError _)

theorem tellsCall : Tells n sort 0 (call expr) := by
  refine .look fun start => .eatAny (by decide) fun isAsync => .eatAny (by decide) fun isFree => .expect (by decide) ?_
  refine .bind (tellsAttributes one) fun found => ?_
  rw [zero_add]
  exact tellsCallParams one

theorem tellsParallelCalls : Tells n (· = .kwPar) 0 (parallelCalls expr) := by
  refine .word (by decide) fun t => .bind (tellsAttributes one) fun found => ?_
  refine .bind ((tellsCallParams one).less (Multiset.zero_le _)) fun first => ?_
  have more : Tells n anywhere 0 (do callParams expr false false found (← currentSpan)) :=
    .look fun start => (tellsCallParams one).less (Multiset.zero_le _)
  exact .bind (.manyEats (by decide) more) fun rest => .pure (by simp [add_comm, add_left_comm, add_assoc])

theorem tellsCondition {x : Kind} (mark : x ≠ .endOfText ∧ x ≠ .colon) {make : Span → List Attribute → Expr → Cmd}
    (held : ∀ span as e, extracts (make span as e) = extracts as + extracts e) :
    Tells n (· = x) 0 (conditionCmd expr make) := by
  refine .word mark fun t => .bind (tellsAttributes one) fun found => .bind one fun e => .expect (by decide) ?_
  exact .spanFrom fun span => .pure (by simp [held])

omit one in
theorem tellsHavoc : Tells n (· = .kwHavoc) 0 havocCmd :=
  .word (by decide) fun t => .idents fun vars _ => .expect (by decide) (.spanFrom fun span => .pure (by simp))

omit one in
theorem tellsYield : Tells n (· = .kwYield) 0 yieldCmd :=
  .word (by decide) fun t => .expect (by decide) (.spanFrom fun span => .pure (by simp))

theorem tellsCallCmd : Tells n sort 0 (callCmd expr) :=
  .look fun start => .bind (tellsCall one) fun c => .expect (by decide) (.spanFrom fun span => .pure (by simp))

theorem tellsParallelCmd : Tells n (· = .kwPar) 0 (parallelCmd expr) :=
  .look fun start => .bind (tellsParallelCalls one) fun (calls, found) =>
    .expect (by decide) (.spanFrom fun span => .pure (by simp))

theorem tellsWordCmd : Tells n sort 0 (wordCmd expr) := by
  refine .byKind fun k _ => ?_
  split
  · exact tellsCondition one (by decide) fun span as e => by simp
  · exact tellsCondition one (by decide) fun span as e => by simp
  · exact tellsHavoc
  · exact tellsCallCmd one
  · exact tellsCallCmd one
  · exact tellsCallCmd one
  · exact tellsParallelCmd one
  · exact tellsYield
  · exact .fault (.syntaxError _)

theorem findsLabelOrCmd :
    Finds anywhere n (fun x => commandStart.contains x = true) (LooselyWithin 0) (labelOrCmd expr) := by
  refine .ifNext (findsLabelOrAssign one).always ((tellsWordCmd one).loosely ?_)
  rintro k ⟨first, _⟩ rfl
  exact absurd first (by decide)

end Held

end Boogie.Grammar
