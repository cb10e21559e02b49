import Boogie.Proofs.Nesting.Lays

/-! Where the expressions stand that attributes, variables and commands hold. -/
namespace Boogie.Grammar

open Token (Kind)

instance : Outermost Braced where
  outermost
    | .keyed a => outermost a
    | .trigger t => outermost t
    | .mistake => []

@[simp] theorem outermostKeyed (a : Attribute) : outermost (Braced.keyed a) = outermost a := rfl

@[simp] theorem outermostTrigger (t : Trigger) : outermost (Braced.trigger t) = outermost t := rfl

@[simp] theorem outermostNotBraced : outermost Braced.mistake = [] := rfl

instance : Outermost LabelOrCmd where
  outermost
    | .cmd c => outermost c
    | _ => []

@[simp] theorem outermostCmd (c : Cmd) : outermost (LabelOrCmd.cmd c) = outermost c := rfl

@[simp] theorem outermostLabel (id : Ident) : outermost (LabelOrCmd.label id) = [] := rfl

@[simp] theorem outermostNoCmd : outermost LabelOrCmd.mistake = [] := rfl

theorem outermostPicked {α β : Type} [Outermost α] [Outermost β] {pick : α → Option β}
    (part : ∀ a, outermost (pick a) ⊆ outermost a) (as : List α) : outermost (as.filterMap pick) ⊆ outermost as := by
  intro e mem
  obtain ⟨b, picked, ofB⟩ := memOutermost.mp mem
  obtain ⟨a, ofAs, same⟩ := List.mem_filterMap.mp picked
  exact memOutermost.mpr ⟨a, ofAs, part a (by rw [same]; exact ofB)⟩

theorem keyedPart (b : Braced) : outermost b.keyed? ⊆ outermost b := by
  cases b <;> simp [Braced.keyed?]

theorem triggerPart (b : Braced) : outermost b.trigger? ⊆ outermost b := by
  cases b <;> simp [Braced.trigger?]

theorem outermostPresent {α : Type} [Outermost α] (found : List (Option α)) :
    outermost (found.filterMap id) ⊆ outermost found := outermostPicked (fun _ => List.Subset.refl _) found

section Held

variable {row : TokenRow} {n : Nat} {sort : Kind → Prop} {kept : List Expr} {expr : Production Expr}
  (one : Houses row n anywhere [] expr)
include one

theorem housesAttributeParam : Houses row n sort [] (attributeParam expr) :=
  .ifNext (.skip fun t => .pure (by simp)) (.last one.always fun e => by simp)

theorem housesBraced : Houses row n sort [] (braced expr) := by
  refine .look fun start => .skip fun _ => .ifEats ?_ (.ifNext ?_ (.fault (.syntaxError _)))
  · have params :
        Houses row n anywhere [] (ifNext (checkAny exprStart) (commaSeparated (attributeParam expr)) (pure [])) :=
      .ifNext (.commaSeparated (housesAttributeParam one)) (.pure (List.nil_subset _))
    refine .skip fun key => .bind params fun params => .skip fun _ => .skip fun span => ?_
    split
    · split
      · exact .pure (by simp)
      · exact .fault (.broken _)
    · exact .pure (by simp)
  · exact .bind (.commaSeparated one.always) fun es => .skip fun _ => .skip fun span => .pure (by simp)

theorem housesBracedGroups : Houses row n sort [] (bracedGroups expr) := by
  refine .last (.manyNext (housesBraced one)) fun found => ?_
  exact List.append_subset.mpr ⟨outermostPicked keyedPart found, outermostPicked triggerPart found⟩

theorem housesAttributeOnly : Houses row n sort [] (attributeOnly expr) :=
  .bind (housesBraced one) fun found => .given (.broken _) fun _ => .pure (keyedPart found)

theorem housesAttributes : Houses row n sort [] (attributes expr) :=
  .last (.manyNext (housesAttributeOnly one)) fun found => outermostPresent found

theorem housesWhere {role : GroupRole} : Houses row n sort [] (optionalWhere expr role) := by
  refine .ifEats (.bind one fun e => ?_) (.pure (List.nil_subset _))
  split
  · exact .pure (by simp)
  · exact .fault (.broken _)

omit one in
theorem outermostAll {α β : Type} [Outermost α] {bs : List β} {f : β → α} (each : ∀ b, outermost (f b) ⊆ kept) :
    outermost (bs.map f) ⊆ kept := by
  intro e mem
  obtain ⟨a, ofBs, ofA⟩ := memOutermost.mp mem
  obtain ⟨b, _, rfl⟩ := List.mem_map.mp ofBs
  exact each b ofA

theorem housesTypedGroup {role : GroupRole} {as : List Attribute} :
    Houses row n sort (outermost as) (typedGroup expr role as) := by
  refine .skip fun names => .skip fun _ => .skip fun t => .bind (housesWhere one) fun e => .pure ?_
  exact outermostAll fun id => by simp

theorem housesAttributedGroup {role : GroupRole} : Houses row n sort [] (attributedGroup expr role) := by
  refine .bind (housesAttributes one) fun found => ?_
  split
  · exact .fault (.broken _)
  · exact housesTypedGroup one

theorem housesAttributedGroups {role : GroupRole} : Houses row n sort [] (attributedGroups expr role) :=
  .last (.commaSeparated (housesAttributedGroup one)) fun groups => by simp

theorem housesVariableDecl {role : GroupRole} : Houses row n sort [] (variableDecl expr role) := by
  refine .skip fun _ => .bind (housesAttributes one) fun found => ?_
  exact .carry (.commaSeparated (housesTypedGroup one)) fun groups => .skip fun _ => .pure (by simp)

theorem housesLocalVariables : Houses row n sort [] (localVariables expr) :=
  .last (.manyNext (housesVariableDecl one)) fun found => by simp

theorem housesOptionalExprs : Houses row n sort [] (optionalExprs expr) :=
  .ifNext (.commaSeparated one.always) (.pure (List.nil_subset _))

theorem housesTarget {id : Ident} : Houses row n sort [] (target expr id) := by
  refine .whileEats (List.nil_subset _) (by decide) fun map => ?_
  exact .bind (housesOptionalExprs one) fun indexes => .skip fun _ => .skip fun span => .pure (by simp)

theorem housesLabelOrAssign : Houses row n sort [] (labelOrAssign expr) := by
  refine .skip fun id => .ifEats (.pure (List.nil_subset _)) (.ifNext ?_ (.fault (.syntaxError _)))
  refine .bind (housesTarget one) fun first => .bind (.manyEats (by decide) (.skip fun id => housesTarget one)) ?_
  refine fun rest => .skip fun _ => .bind (.commaSeparated one) fun values => .skip fun _ => .skip fun span => ?_
  exact .pure (by simp)

theorem housesArguments : Houses row n sort [] (callArguments expr) :=
  .bind (housesOptionalExprs one) fun ins => .skip fun _ => .pure (by simp)

theorem housesCallParams {isAsync isFree : Bool} {as : List Attribute} {start : Span} :
    Houses row n sort (outermost as) (callParams expr isAsync isFree as start) := by
  refine .skip fun first => .ifEats ?_ (.ifNext ?_ (.fault (.syntaxError _)))
  · exact .bind (housesArguments one) fun ins => .skip fun span => .pure (by simp)
  · refine .skip fun rest => .skip fun _ => .skip fun callee => .skip fun _ => ?_
    exact .bind (housesArguments one) fun ins => .skip fun span => .pure (by simp)

theorem housesCall : Houses row n sort [] (call expr) := by
  refine .look fun start => .skip fun isAsync => .skip fun isFree => .skip fun _ => ?_
  exact .bind (housesAttributes one) fun found => housesCallParams one

theorem housesParallelCalls : Houses row n sort [] (parallelCalls expr) := by
  refine .skip fun t => .bind (housesAttributes one) fun found => .carry (housesCallParams one) fun first => ?_
  have more : Houses row n anywhere (outermost found) (do callParams expr false false found (← currentSpan)) :=
    .look fun start => housesCallParams one
  exact .carry (.manyEats (by decide) (more.more (by simp))) fun rest => .pure (by simp)

theorem housesCondition {make : Span → List Attribute → Expr → Cmd}
    (held : ∀ span as e, outermost (make span as e) = outermost as ++ [e]) :
    Houses row n sort [] (conditionCmd expr make) := by
  refine .skip fun t => .bind (housesAttributes one) fun found => .bind one fun e => .skip fun _ => .skip fun span => ?_
  exact .pure (by simp [held])

theorem housesCallCmd : Houses row n sort [] (callCmd expr) :=
  .look fun start => .bind (housesCall one) fun c => .skip fun _ => .skip fun span => .pure (by simp)

theorem housesParallelCmd : Houses row n sort [] (parallelCmd expr) :=
  .look fun start => .bind (housesParallelCalls one) fun (calls, found) =>
    .skip fun _ => .skip fun span => .pure (by simp)

theorem housesWordCmd : Houses row n sort [] (wordCmd expr) := by
  refine .byKind fun k _ => ?_
  split
  · exact housesCondition one fun span as e => by simp
  · exact housesCondition one fun span as e => by simp
  · exact .skip fun t => .skip fun vars => .skip fun _ => .skip fun span => .pure (by simp)
  · exact housesCallCmd one
  · exact housesCallCmd one
  · exact housesCallCmd one
  · exact housesParallelCmd one
  · exact .skip fun t => .skip fun _ => .skip fun span => .pure (by simp)
  · exact .fault (.syntaxError _)

theorem housesLabelOrCmd : Houses row n sort [] (labelOrCmd expr) :=
  .ifNext (housesLabelOrAssign one) (housesWordCmd one)

end Held

end Boogie.Grammar
