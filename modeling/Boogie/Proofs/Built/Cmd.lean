import Boogie.Proofs.Built.Ty
import Boogie.Grammar.Cmd
import Boogie.Grammar.Variable

/-! Attributes, variables and commands as they are built, given what is built of the expressions in
them. -/
namespace Boogie.Grammar

open Token (Kind)

instance : Inspected Braced where
  every c
    | .keyed a => every c a
    | .trigger t => every c t
    | .mistake => True

instance : Inspected LabelOrCmd where
  every c
    | .label id => every c id
    | .cmd x => every c x
    | .mistake => True

theorem keyedBuilt {G : Scope} {found : Braced} (ok : every G.built found) : every G.built found.keyed? := by
  cases found with
  | keyed a => exact (everySome a).mpr ok
  | _ => exact everyNone

theorem triggerBuilt {G : Scope} {found : Braced} (ok : every G.built found) : every G.built found.trigger? := by
  cases found with
  | trigger t => exact (everySome t).mpr ok
  | _ => exact everyNone

section Attributes

variable {G : Scope} {n : Nat} {sort : Kind → Prop} {expr : Production Expr}
  (nested : Builds G n anywhere expr)
include nested

theorem buildsAttributeParam :
    Yields G n sort (fun p => every G.built p ∧ paramRead G.tokens p) (attributeParam expr) := by
  refine .ifNext ?_ ?_
  · refine .bind (.advance ?_) fun t ⟨mem, _, kind⟩ => .pure ⟨trivial, t, mem, by simpa using kind, rfl⟩
    rintro k ⟨_, same⟩ rfl
    simp at same
  · exact .bind nested.always fun e ok => .pure ⟨ok, trivial⟩

theorem buildsBraced : Builds G n sort (braced expr) := by
  have params : Yields G n anywhere (fun ps => ∀ p ∈ ps, every G.built p ∧ paramRead G.tokens p)
      (ifNext (checkAny exprStart) (commaSeparated (attributeParam expr)) (pure [])) := by
    refine .ifNext ?_ (.pure nofun)
    exact (Yields.separated (by decide) (buildsAttributeParam nested) (buildsAttributeParam nested)
      (Nat.le_succ n)).weaken fun _ h => h.2
  refine .look fun start => ?_
  refine .any fun _ => ?_
  refine .ifEats (by decide) ?_ (.ifNext ?_ ?_)
  · refine .bind buildsIdent fun key ofKey => ?_
    refine .bind params fun params ofParams => ?_
    refine .any fun _ => .any fun span => ?_
    split
    · split
      · refine .pure (Trigger.everyMk.mpr ⟨rfl, ?_⟩)
        exact fun e mem => (ofParams (.expr e) (by simpa using mem)).1
      · exact .any fun _ => .pure trivial
    · rename_i other
      have notKey : key.name ≠ "nopats" := by simpa using other
      exact .pure (Attribute.everyMk.mpr
        ⟨⟨notKey, fun p mem => (ofParams p mem).2⟩, ofKey, fun p mem => (ofParams p mem).1⟩)
  · refine .bind (buildsCommaSeparated nested) fun exprs ⟨more, ok⟩ => ?_
    refine .any fun _ => .any fun span => .pure ?_
    exact Trigger.everyMk.mpr ⟨more, ok⟩
  · exact .any fun _ => .any fun _ => .pure trivial

theorem buildsBracedGroups : Builds G n sort (bracedGroups expr) := by
  have found : Builds G n sort (many (check .leftBrace) (braced expr)) := .manyNext (buildsBraced nested)
  refine .bind found fun found ok => .pure ⟨?_, ?_⟩
  · exact everyFilterMap ok fun x a same here => keyedBuilt here a same
  · exact everyFilterMap ok fun x t same here => triggerBuilt here t same

theorem buildsAttributes : Builds G n sort (attributes expr) := by
  have one : Builds G n (fun k => (k == .leftBrace) = true) (attributeOnly expr) := by
    refine .bind (buildsBraced nested) fun found ok => ?_
    exact .any fun _ => .pure (keyedBuilt ok)
  refine .bind (P := every G.built) (.manyNext one) fun found ok => .pure ?_
  exact everyFilterMap ok fun x a same here => here a same

end Attributes

section Variables

variable {G : Scope} {n : Nat} {sort : Kind → Prop} {expr : Production Expr}
  (nested : Builds G n anywhere expr)
include nested

def areBuilt (G : Scope) (role : GroupRole) (vars : List Variable) : Prop :=
  every G.built vars ∧ (role.allowsWhere = false → ∀ v ∈ vars, v.whereClause = none)

omit nested in
theorem areBuiltFlatten {role : GroupRole} {groups : List (List Variable)}
    (ok : ∀ vars ∈ groups, areBuilt G role vars) : areBuilt G role groups.flatten := by
  refine ⟨everyFlatten fun vars mem => (ok vars mem).1, fun allowed v mem => ?_⟩
  obtain ⟨vars, group, inside⟩ := List.mem_flatten.mp mem
  exact (ok vars group).2 allowed v inside

theorem buildsOptionalWhere {role : GroupRole} :
    Yields G n sort (fun e => every G.built e ∧ (role.allowsWhere = false → e = none))
      (optionalWhere expr role) := by
  refine .ifEats (by decide) ?_ ?_
  · refine .bind nested fun e ok => ?_
    split
    · rename_i allowed
      exact .pure ⟨(everySome e).mpr ok, fun not => absurd allowed (by simp [not])⟩
    · exact .any fun _ => .pure ⟨everyNone, fun _ => rfl⟩
  · exact .pure ⟨everyNone, fun _ => rfl⟩

theorem buildsTypedGroup {role : GroupRole} {found : List Attribute} (ofFound : every G.built found) :
    Yields G n sort (areBuilt G role) (typedGroup expr role found) := by
  refine .bind buildsIdents fun names ⟨_, ofNames⟩ => ?_
  refine .any fun _ => ?_
  refine .bind buildsType fun type ofType => ?_
  refine .bind (buildsOptionalWhere nested) fun whereClause ⟨ofWhere, absent⟩ => .pure ⟨?_, ?_⟩
  · refine everyMap ofNames fun id ofId => ?_
    exact Variable.everyMk.mpr ⟨ofId, ofType, ofWhere, ofFound⟩
  · intro allowed v mem
    obtain ⟨id, _, rfl⟩ := List.mem_map.mp mem
    exact absent allowed

theorem buildsAttributedGroup {role : GroupRole} :
    Yields G n sort (areBuilt G role) (attributedGroup expr role) := by
  refine .bind (buildsAttributes nested) fun found ofFound => ?_
  split
  · exact .any fun _ => buildsTypedGroup nested everyNil
  · exact buildsTypedGroup nested ofFound

theorem buildsAttributedGroups {role : GroupRole} :
    Yields G n sort (areBuilt G role) (attributedGroups expr role) := by
  refine .bind (.separated (by decide) (buildsAttributedGroup nested) (buildsAttributedGroup nested)
    (Nat.le_succ n)) fun groups ⟨_, ok⟩ => .pure ?_
  exact areBuiltFlatten ok

theorem buildsVariableDecl {role : GroupRole} : Builds G n sort (variableDecl expr role) := by
  refine .any fun _ => ?_
  refine .bind (buildsAttributes nested) fun found ofFound => ?_
  refine .bind (.separated (by decide) (buildsTypedGroup nested ofFound)
    (buildsTypedGroup nested ofFound) (Nat.le_succ n)) fun groups ⟨_, ok⟩ => ?_
  exact .any fun _ => .pure (areBuiltFlatten ok).1

theorem buildsLocalVariables : Builds G n sort (localVariables expr) := by
  refine .bind (.manyNext (buildsVariableDecl nested)) fun groups ok => .pure ?_
  exact everyFlatten ok

end Variables

section Commands

variable {G : Scope} {n : Nat} {sort : Kind → Prop} {expr : Production Expr}
  (nested : Builds G n anywhere expr)
include nested

theorem buildsOptionalExprs : Builds G n sort (optionalExprs expr) :=
  .ifNext ((buildsCommaSeparated nested).weaken fun _ h => h.2) (.pure everyNil)

theorem buildsTarget {id : Ident} (ofId : every G.built id) : Builds G n sort (target expr id) := by
  refine .whileEats (by decide) (Target.everyName.mpr ofId) (fun map ofMap => ?_) (Nat.le_succ n)
  refine .bind (buildsOptionalExprs nested) fun indexes ok => ?_
  refine .any fun _ => .any fun span => .pure ?_
  exact Target.everyElement.mpr ⟨ofMap, ok⟩

theorem buildsLabelOrAssign : Builds G n sort (labelOrAssign expr) := by
  have further : Builds G n anywhere (do target expr (← ident)) :=
    .bind buildsIdent fun id ofId => buildsTarget nested ofId
  refine .bind buildsIdent fun id ofId => ?_
  refine .ifEats (by decide) (.pure ofId) (.ifNext ?_ ?_)
  · refine .bind (buildsTarget nested ofId) fun first ofFirst => ?_
    refine .bind (.manyEats (by decide) further (Nat.le_succ n)) fun rest ofRest => ?_
    refine .any fun _ => ?_
    refine .bind (buildsCommaSeparated nested) fun values ⟨more, ofValues⟩ => ?_
    refine .any fun _ => .any fun span => .pure ?_
    exact Cmd.everyAssign.mpr ⟨⟨⟨nofun, more⟩, trivial⟩, (everyCons first rest).mpr ⟨ofFirst, ofRest⟩, ofValues⟩
  · exact .any fun _ => .pure trivial

theorem buildsCallArguments : Builds G n sort (callArguments expr) := by
  refine .bind (buildsOptionalExprs nested) fun ins ok => ?_
  exact .any fun _ => .pure ok

theorem buildsCallParams {isAsync isFree : Bool} {found : List Attribute} {start : Span}
    (ofFound : every G.built found) :
    Yields G n sort
      (fun x => every G.built x ∧ x.isAsync = isAsync ∧ x.isFree = isFree ∧ x.attributes = found)
      (callParams expr isAsync isFree found start) := by
  refine .bind buildsIdent fun first ofFirst => ?_
  refine .ifEats (by decide) ?_ (.ifNext ?_ ?_)
  · refine .bind (buildsCallArguments nested) fun ins ofIns => ?_
    refine .any fun span => .pure ⟨?_, rfl, rfl, rfl⟩
    exact Call.everyMk.mpr ⟨ofFirst, ofIns, everyNil, ofFound⟩
  · refine .bind (.manyEats (by decide) buildsIdent (Nat.le_succ n)) fun rest ofRest => ?_
    refine .any fun _ => ?_
    refine .bind buildsIdent fun callee ofCallee => ?_
    refine .any fun _ => ?_
    refine .bind (buildsCallArguments nested) fun ins ofIns => ?_
    refine .any fun span => .pure ⟨?_, rfl, rfl, rfl⟩
    exact Call.everyMk.mpr ⟨ofCallee, ofIns, (everyCons first rest).mpr ⟨ofFirst, ofRest⟩, ofFound⟩
  · refine .any fun _ => .any fun span => .pure ⟨?_, rfl, rfl, rfl⟩
    exact Call.everyMk.mpr ⟨ofFirst, everyNil, everyNil, ofFound⟩

theorem buildsCall : Builds G n sort (call expr) := by
  refine .any fun start => .any fun isAsync => .any fun isFree => .any fun _ => ?_
  refine .bind (buildsAttributes nested) fun found ofFound => ?_
  exact (buildsCallParams nested ofFound).weaken fun _ h => h.1

theorem buildsParallelCalls :
    Yields G n sort (fun p => every G.built p ∧ p.1 ≠ [] ∧ ∀ x ∈ p.1, x.isParallel p.2) (parallelCalls expr) := by
  refine .any fun t => ?_
  refine .bind (buildsAttributes nested) fun found ofFound => ?_
  have one {start : Span} : Yields G n anywhere
      (fun x => every G.built x ∧ x.isParallel found) (callParams expr false false found start) :=
    buildsCallParams nested ofFound
  have further : Yields G n anywhere (fun x => every G.built x ∧ x.isParallel found)
      (do callParams expr false false found (← currentSpan)) := .any fun _ => one
  refine .bind one fun first ⟨ofFirst, parallel⟩ => ?_
  refine .bind (.manyEats (by decide) further (Nat.le_succ n)) fun rest ofRest =>
    .pure ⟨⟨?_, ofFound⟩, List.cons_ne_nil first rest, ?_⟩
  · exact (everyCons first rest).mpr ⟨ofFirst, fun x mem => (ofRest x mem).1⟩
  · intro x mem
    rcases List.mem_cons.mp mem with rfl | inside
    · exact parallel
    · exact (ofRest x inside).2

theorem buildsConditionCmd {make : Span → List Attribute → Expr → Cmd}
    (made : ∀ span as e, every G.built as → every G.built e → every G.built (make span as e)) :
    Builds G n sort (conditionCmd expr make) := by
  refine .any fun t => ?_
  refine .bind (buildsAttributes nested) fun found ofFound => ?_
  refine .bind nested fun e ofE => ?_
  exact .any fun _ => .any fun span => .pure (made span found e ofFound ofE)

omit nested in
theorem buildsHavocCmd : Builds G n sort havocCmd := by
  refine .any fun t => ?_
  refine .bind buildsIdents fun vars ⟨more, ofVars⟩ => ?_
  exact .any fun _ => .any fun span => .pure (Cmd.everyHavoc.mpr ⟨⟨more, trivial⟩, ofVars⟩)

theorem buildsCallCmd : Builds G n sort (callCmd expr) := by
  refine .any fun start => ?_
  refine .bind (buildsCall nested) fun x ok => ?_
  exact .any fun _ => .any fun span => .pure (Cmd.everyCall.mpr ⟨⟨trivial, trivial⟩, ok⟩)

theorem buildsParallelCmd : Builds G n sort (parallelCmd expr) := by
  refine .any fun start => ?_
  refine .bind (buildsParallelCalls nested) fun (calls, found) ⟨⟨ofCalls, ofFound⟩, filled, parallel⟩ => ?_
  refine .any fun _ => .any fun span => .pure ?_
  exact Cmd.everyParallel.mpr ⟨⟨parallel, filled⟩, ofCalls, ofFound⟩

omit nested in
theorem buildsYieldCmd : Builds G n sort yieldCmd := by
  exact .any fun t => .any fun _ => .any fun span => .pure ⟨trivial, trivial⟩

theorem buildsWordCmd : Builds G n sort (wordCmd expr) := by
  refine .byKind fun k first => ?_
  split
  · exact buildsConditionCmd nested fun span as e ofAs ofE => Cmd.everyAssert.mpr ⟨⟨trivial, trivial⟩, ofAs, ofE⟩
  · exact buildsConditionCmd nested fun span as e ofAs ofE => Cmd.everyAssume.mpr ⟨⟨trivial, trivial⟩, ofAs, ofE⟩
  · exact buildsHavocCmd
  · exact buildsCallCmd nested
  · exact buildsCallCmd nested
  · exact buildsCallCmd nested
  · exact buildsParallelCmd nested
  · exact buildsYieldCmd
  · exact .any fun _ => .pure trivial

theorem buildsLabelOrCmd : Builds G n sort (labelOrCmd expr) :=
  .ifNext (buildsLabelOrAssign nested) (buildsWordCmd nested)

end Commands

end Boogie.Grammar
