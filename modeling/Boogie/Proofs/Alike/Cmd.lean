import Boogie.Grammar.Cmd
import Boogie.Grammar.Variable
import Boogie.Proofs.Alike.Ty

/-! Attributes, variables and commands, read side by side, given that the expressions in them are read
alike. -/
namespace Boogie.Grammar

open Token (Kind)

instance : Spanned Braced where
  respan f
    | .keyed a => .keyed (respan f a)
    | .trigger t => .trigger (respan f t)
    | .mistake => .mistake

instance : Spanned LabelOrCmd where
  respan f
    | .label id => .label (respan f id)
    | .cmd c => .cmd (respan f c)
    | .mistake => .mistake

instance : Typed Braced where
  retype f
    | .keyed a => .keyed (retype f a)
    | .trigger t => .trigger (retype f t)
    | .mistake => .mistake

instance : Typed LabelOrCmd where
  retype f
    | .label id => .label id
    | .cmd c => .cmd (retype f c)
    | .mistake => .mistake

@[simp] theorem Braced.respanKeyed (f : Span → Span) (a : Attribute) :
    respan f (Braced.keyed a) = .keyed (respan f a) := rfl

@[simp] theorem Braced.respanTrigger (f : Span → Span) (t : Trigger) :
    respan f (Braced.trigger t) = .trigger (respan f t) := rfl

@[simp] theorem LabelOrCmd.respanLabel (f : Span → Span) (id : Ident) :
    respan f (LabelOrCmd.label id) = .label (respan f id) := rfl

@[simp] theorem LabelOrCmd.respanCmd (f : Span → Span) (c : Cmd) :
    respan f (LabelOrCmd.cmd c) = .cmd (respan f c) := rfl

section Changed

variable (c : Option Change)

@[simp] theorem Braced.retypedKeyed (a : Attribute) : retyped c (Braced.keyed a) = .keyed (retyped c a) := by
  cases c <;> rfl

@[simp] theorem Braced.retypedTrigger (t : Trigger) : retyped c (Braced.trigger t) = .trigger (retyped c t) := by
  cases c <;> rfl

@[simp] theorem Braced.retypedMistake : retyped c Braced.mistake = .mistake := by cases c <;> rfl

theorem Braced.likeMistake : Like c Braced.mistake .mistake := by simp [Like, Alike]

@[simp] theorem LabelOrCmd.retypedLabel (id : Ident) : retyped c (LabelOrCmd.label id) = .label id := by
  cases c <;> rfl

@[simp] theorem LabelOrCmd.retypedCmd (x : Cmd) : retyped c (LabelOrCmd.cmd x) = .cmd (retyped c x) := by
  cases c <;> rfl

@[simp] theorem LabelOrCmd.retypedMistake : retyped c LabelOrCmd.mistake = .mistake := by cases c <;> rfl

theorem LabelOrCmd.likeMistake : Like c LabelOrCmd.mistake .mistake := by simp [Like, Alike]

theorem retypedKeyed (found : Braced) : retyped c found.keyed? = (retyped c found).keyed? := by
  cases found <;> simp [Braced.keyed?]

theorem retypedTrigger (found : Braced) : retyped c found.trigger? = (retyped c found).trigger? := by
  cases found <;> simp [Braced.trigger?]

end Changed

theorem respanKeyed (f : Span → Span) (found : Braced) : respan f found.keyed? = (respan f found).keyed? := by
  cases found <;> rfl

theorem respanTrigger (f : Span → Span) (found : Braced) :
    respan f found.trigger? = (respan f found).trigger? := by
  cases found <;> rfl

section Attributes

variable {S : Simulation} {n : Nat} {sort : Kind → Prop} {expr expr' : Production Expr}

theorem Progresses.braced : Progresses (fun k => (k == .leftBrace) = true) (braced expr) := by
  refine .stay (.read _) fun start => .first ?_
  have moves : Progresses (· = .leftBrace) (Grammar.expect .leftBrace) := .expect (by decide)
  exact moves.mono fun k h => by simpa using h

theorem Like.onlyExpr {c : Option Change} {e : Expr} {params : List AttributeParam} (h : Like c [.expr e] params) :
    ∃ e', params = [.expr e'] ∧ Like c e e' := by
  match params, h with
  | [.expr e'], h => exact ⟨e', rfl, by simpa [Like, Alike, bare] using h⟩
  | [.string text], h => simp [Like, Alike, bare] at h
  | [], h => simp [Like, Alike, bare] at h
  | _ :: _ :: _, h => simp [Like, Alike, bare] at h

theorem Like.ofOnlyExpr {c : Option Change} {e' : Expr} {params : List AttributeParam} (h : Like c params [.expr e']) :
    ∃ e, params = [.expr e] := by
  match params, h with
  | [.expr e], _ => exact ⟨e, rfl⟩
  | [.string text], h => simp [Like, Alike, bare] at h
  | [], h => simp [Like, Alike, bare] at h
  | _ :: _ :: _, h => simp [Like, Alike, bare] at h

variable (nested : Simulates S n anywhere (Like S.change) expr expr')
include nested

theorem alikeAttributeParam :
    Simulates S n sort (Like S.change) (attributeParam expr) (attributeParam expr') := by
  refine .ifNext (by decide) ?_ ?_
  · refine .bind (.advance fun x is => plainOf is.2 rfl) fun t t' same => .pure ?_
    have kind : t.kind = .string := by simpa using same.first.2
    simp [Like, Alike, bare, same.text (kind ▸ rfl)]
  · refine .bind nested.always fun e e' same => .pure ?_
    simpa [Like, Alike, bare] using same

theorem alikeBraced : Simulates S n sort (Like S.change) (braced expr) (braced expr') := by
  have params : Simulates S n anywhere (Like S.change)
      (ifNext (checkAny exprStart) (commaSeparated (attributeParam expr)) (pure []))
      (ifNext (checkAny exprStart) (commaSeparated (attributeParam expr')) (pure [])) :=
    .ifNext (by decide) (.commaSeparated (alikeAttributeParam nested)) (.pure .nil)
  refine .bind .currentSpan fun start start' _ => ?_
  refine .bind (.expect (by decide)) fun _ _ _ => ?_
  refine .ifEatsColon ?_ (.misses (.first (.ident (by decide)))) (.ifNext (by decide) ?_ ?_)
  · refine .bind alikeIdent fun key key' ofKey => ?_
    refine .bind params fun params params' ofParams => ?_
    refine .bind (.expect (by decide)) fun _ _ _ => ?_
    refine .bind .spanFrom fun span span' _ => ?_
    rw [ofKey.nameEq]
    split
    · split
      · obtain ⟨e', rfl, same⟩ := ofParams.onlyExpr
        refine .pure ?_
        simpa [Like, Alike, bare] using same
      · rename_i other
        split
        · obtain ⟨e, rfl⟩ := ofParams.ofOnlyExpr
          exact absurd rfl (other e)
        · exact .bind (.broken _) fun _ _ _ => .pure (Braced.likeMistake _)
    · refine .pure ?_
      simpa [Like, Alike, bare] using ofParams
  · refine .bind (.commaSeparated nested) fun exprs exprs' ofExprs => ?_
    refine .bind (.expect (by decide)) fun _ _ _ => ?_
    refine .bind .spanFrom fun span span' _ => .pure ?_
    simpa [Like, Alike, bare] using ofExprs
  · refine .bind (.syntaxError _) fun _ _ _ => ?_
    exact .bind (.expect (by decide)) fun _ _ _ => .pure (Braced.likeMistake _)

theorem alikeBracedGroups : Simulates S n sort (Like S.change) (bracedGroups expr) (bracedGroups expr') := by
  refine .bind (.manyNext (by decide) (by decide) .braced (alikeBraced nested).always) fun _ _ same => .pure ?_
  exact .both (same.filterMap respanKeyed (retypedKeyed _)) (same.filterMap respanTrigger (retypedTrigger _))

theorem alikeAttributeOnly : Simulates S n sort (Like S.change) (attributeOnly expr) (attributeOnly expr') := by
  refine .bind (alikeBraced nested) fun found found' same => ?_
  rw [(same.part respanTrigger (retypedTrigger _)).isSomeEq]
  exact .bind (.given (.broken _)) fun _ _ _ => .pure (same.part respanKeyed (retypedKeyed _))

theorem alikeAttributes : Simulates S n sort (Like S.change) (attributes expr) (attributes expr') := by
  refine .bind (.manyNext (by decide) (by decide) (.first .braced) (alikeAttributeOnly nested).always)
    fun _ _ same => .pure ?_
  exact same.filterMap (g := id) (fun _ _ => rfl) fun _ => rfl

end Attributes

section Variables

variable {S : Simulation} {n : Nat} {sort : Kind → Prop} {expr expr' : Production Expr}

theorem Progresses.variableDecl {role : GroupRole} :
    Progresses (fun k => (k == .kwVar) = true) (variableDecl expr role) := by
  have moves : Progresses (· = .kwVar) (Grammar.expect .kwVar) := .expect (by decide)
  exact .first (moves.mono fun k h => by simpa using h)

variable (nested : Simulates S n anywhere (Like S.change) expr expr')
include nested

theorem alikeOptionalWhere {role : GroupRole} :
    Simulates S n sort (Like S.change) (optionalWhere expr role) (optionalWhere expr' role) := by
  refine .ifEats (by decide) ?_ (.pure .none)
  refine .bind nested fun e e' same => ?_
  split
  · exact .pure same.some
  · exact .bind (.broken _) fun _ _ _ => .pure .none

theorem alikeTypedGroup {role : GroupRole} {found found' : List Attribute} (ofFound : Like S.change found found') :
    Simulates S n sort (Like S.change) (typedGroup expr role found) (typedGroup expr' role found') := by
  refine .bind alikeIdents fun names names' ofNames => ?_
  have rest (type type' : Ty) (ofType : Like S.change type type') : Simulates S n anywhere (Like S.change)
      (optionalWhere expr role >>= fun w => pure (names.map fun id => Variable.mk id.name type w found id.span))
      (optionalWhere expr' role >>= fun w => pure (names'.map fun id => Variable.mk id.name type' w found' id.span)) := by
    refine .bind (alikeOptionalWhere nested) fun whereClause whereClause' ofWhere => .pure ?_
    refine ofNames.map fun id id' same => ?_
    simp_all [Like, Alike, bare, same.nameEq]
  exact .expectColon (.bind alikeType rest) (.bind .type rest)

theorem alikeAttributedGroup {role : GroupRole} :
    Simulates S n sort (Like S.change) (attributedGroup expr role) (attributedGroup expr' role) := by
  refine .bind (alikeAttributes nested) fun found found' ofFound => ?_
  rw [ofFound.isEmptyEq]
  split
  · exact .bind (.broken _) fun _ _ _ => alikeTypedGroup nested .nil
  · exact alikeTypedGroup nested ofFound

theorem alikeAttributedGroups {role : GroupRole} :
    Simulates S n sort (Like S.change) (attributedGroups expr role) (attributedGroups expr' role) :=
  .bind (.commaSeparated (alikeAttributedGroup nested)) fun _ _ same => .pure same.flatten

theorem alikeVariableDecl {role : GroupRole} :
    Simulates S n sort (Like S.change) (variableDecl expr role) (variableDecl expr' role) := by
  refine .bind (.expect (by decide)) fun _ _ _ => ?_
  refine .bind (alikeAttributes nested) fun found found' ofFound => ?_
  refine .bind (.commaSeparated (alikeTypedGroup nested ofFound)) fun _ _ groups => ?_
  exact .bind (.expect (by decide)) fun _ _ _ => .pure groups.flatten

theorem alikeLocalVariables : Simulates S n sort (Like S.change) (localVariables expr) (localVariables expr') :=
  .bind (.manyNext (by decide) (by decide) .variableDecl (alikeVariableDecl nested).always)
    fun _ _ same => .pure same.flatten

end Variables

section Commands

variable {S : Simulation} {n : Nat} {sort : Kind → Prop} {expr expr' : Production Expr}

theorem Progresses.call : Progresses (fun k => k = .kwAsync ∨ k = .kwFree ∨ k = .kwCall) (call expr) := by
  refine .stay (.read _) fun start => .eat (by decide) (.eat (by decide) (.first ?_))
  have moves : Progresses (· = .kwCall) (Grammar.expect .kwCall) := .expect (by decide)
  exact moves.mono fun k h => (h.1.1.resolve_left h.1.2).resolve_left h.2

theorem Progresses.wordCmd :
    Progresses (fun k => commandStart.contains k = true ∧ (k == .identifier) = false) (wordCmd expr) := by
  refine .byKind fun k first => ?_
  split
  · exact .first (.advance (by rintro _ rfl; decide))
  · exact .first (.advance (by rintro _ rfl; decide))
  · exact .first (.advance (by rintro _ rfl; decide))
  · exact .stay (.read _) fun _ => .first (Progresses.call.mono fun _ h => .inl h)
  · exact .stay (.read _) fun _ => .first (Progresses.call.mono fun _ h => .inr (.inl h))
  · exact .stay (.read _) fun _ => .first (Progresses.call.mono fun _ h => .inr (.inr h))
  · exact .stay (.read _) fun _ => .first (.first (.advance (by rintro _ rfl; decide)))
  · exact .first (.advance (by rintro _ rfl; decide))
  · have mem : k ∈ [Kind.kwFree, .kwAssert, .kwAssume, .kwHavoc, .kwYield, .kwAsync, .kwCall, .kwPar] := by
      simpa [commandStart, commandWords, Token.KindSet.containsOfList, first.2] using first.1
    simp_all

theorem Progresses.labelOrCmd :
    Progresses (fun k => commandStart.contains k = true) (labelOrCmd expr) :=
  .ifNext (.first (.mono .ident fun k h => by simpa using h.2)) .wordCmd

variable (nested : Simulates S n anywhere (Like S.change) expr expr')
include nested

theorem alikeOptionalExprs : Simulates S n sort (Like S.change) (optionalExprs expr) (optionalExprs expr') :=
  .ifNext (by decide) (.commaSeparated nested) (.pure .nil)

theorem alikeTarget {id id' : Ident} (ofId : Like S.change id id') :
    Simulates S n sort (Like S.change) (target expr id) (target expr' id') := by
  refine .whileEats (by decide) ?_ (fun map map' ofMap => ?_) (Nat.le_succ n)
  · simpa [Like, Alike, bare] using ofId
  · refine .bind (alikeOptionalExprs nested) fun indexes indexes' same => ?_
    refine .bind (.expect (by decide)) fun _ _ _ => ?_
    refine .bind .spanFrom fun _ _ _ => .pure ?_
    simp_all [Like, Alike, bare]

theorem alikeLabelOrAssign : MayMark S n sort (fun found => ∃ id, found = .label id) (Like S.change)
    (labelOrAssign expr) (labelOrAssign expr') := by
  have further : Simulates S n anywhere (Like S.change) (do target expr (← ident)) (do target expr' (← ident)) :=
    .bind alikeIdent fun id id' ofId => alikeTarget nested ofId
  refine .behind alikeIdent fun id id' ofId => ?_
  refine .eatColon ?_ ⟨id, rfl⟩ (.of (.ifNext (by decide) ?_ ?_))
  · simpa [Like, Alike, bare] using ofId
  · refine .bind (alikeTarget nested ofId) fun first first' ofFirst => ?_
    refine .bind (.manyEats (by decide) further (Nat.le_succ n)) fun rest rest' ofRest => ?_
    refine .bind (.expect (by decide)) fun _ _ _ => ?_
    refine .bind (.commaSeparated nested) fun values values' ofValues => ?_
    refine .bind (.expect (by decide)) fun _ _ _ => ?_
    refine .bind .spanFrom fun _ _ _ => .pure ?_
    simp_all [Like, Alike, bare]
  · exact .bind (.syntaxError _) fun _ _ _ => .pure (LabelOrCmd.likeMistake _)

theorem alikeCallArguments : Simulates S n sort (Like S.change) (callArguments expr) (callArguments expr') := by
  refine .bind (alikeOptionalExprs nested) fun ins ins' same => ?_
  exact .bind (.expect (by decide)) fun _ _ _ => .pure same

theorem alikeCallParams {isAsync isFree : Bool} {found found' : List Attribute} {start start' : Span}
    (ofFound : Like S.change found found') :
    Simulates S n sort (Like S.change) (callParams expr isAsync isFree found start)
      (callParams expr' isAsync isFree found' start') := by
  refine .bind alikeIdent fun first first' ofFirst => ?_
  refine .ifEats (by decide) ?_ (.ifNext (by decide) ?_ ?_)
  · refine .bind (alikeCallArguments nested) fun ins ins' ofIns => ?_
    refine .bind .spanFrom fun _ _ _ => .pure ?_
    simp_all [Like, Alike, bare]
  · refine .bind (.manyEats (by decide) alikeIdent (Nat.le_succ n)) fun rest rest' ofRest => ?_
    refine .bind (.expect (by decide)) fun _ _ _ => ?_
    refine .bind alikeIdent fun callee callee' ofCallee => ?_
    refine .bind (.expect (by decide)) fun _ _ _ => ?_
    refine .bind (alikeCallArguments nested) fun ins ins' ofIns => ?_
    refine .bind .spanFrom fun _ _ _ => .pure ?_
    simp_all [Like, Alike, bare]
  · refine .bind (.syntaxError _) fun _ _ _ => ?_
    refine .bind .spanFrom fun _ _ _ => .pure ?_
    simp_all [Like, Alike, bare]

theorem alikeCall : Simulates S n sort (Like S.change) (call expr) (call expr') := by
  refine .bind .currentSpan fun start start' _ => ?_
  refine .bind (.eats (by decide)) fun isAsync _ same => ?_
  subst same
  refine .bind (.eats (by decide)) fun isFree _ same => ?_
  subst same
  refine .bind (.expect (by decide)) fun _ _ _ => ?_
  exact .bind (alikeAttributes nested) fun found found' ofFound => alikeCallParams nested ofFound

theorem alikeParallelCalls (plain : ∀ k, sort k → isPlain k = true) :
    Simulates S n sort (Like S.change) (parallelCalls expr) (parallelCalls expr') := by
  refine .bind (.advance plain) fun t t' _ => ?_
  refine .bind (alikeAttributes nested) fun found found' ofFound => ?_
  have further : Simulates S n anywhere (Like S.change)
      (do callParams expr false false found (← currentSpan))
      (do callParams expr' false false found' (← currentSpan)) :=
    .bind .currentSpan fun _ _ _ => alikeCallParams nested ofFound
  refine .bind (alikeCallParams nested ofFound) fun first first' ofFirst => ?_
  refine .bind (.manyEats (by decide) further (Nat.le_succ n)) fun rest rest' ofRest => .pure ?_
  exact .both (ofFirst.cons ofRest) ofFound

theorem alikeConditionCmd {make : Span → List Attribute → Expr → Cmd}
    (natural : ∀ f span as e, respan f (make span as e) = make (f span) (respan f as) (respan f e))
    (kept : ∀ span as e, retyped S.change (make span as e) = make span (retyped S.change as) (retyped S.change e))
    (plain : ∀ k, sort k → isPlain k = true) :
    Simulates S n sort (Like S.change) (conditionCmd expr make) (conditionCmd expr' make) := by
  refine .bind (.advance plain) fun t t' _ => ?_
  refine .bind (alikeAttributes nested) fun found found' ofFound => ?_
  refine .bind nested fun e e' ofE => ?_
  refine .bind (.expect (by decide)) fun _ _ _ => ?_
  refine .bind .spanFrom fun _ _ _ => .pure ?_
  simp_all [Like, Alike, bare]

omit nested in
theorem alikeHavocCmd (plain : ∀ k, sort k → isPlain k = true) :
    Simulates S n sort (Like S.change) havocCmd havocCmd := by
  refine .bind (.advance plain) fun t t' _ => ?_
  refine .bind alikeIdents fun vars vars' ofVars => ?_
  refine .bind (.expect (by decide)) fun _ _ _ => ?_
  refine .bind .spanFrom fun _ _ _ => .pure ?_
  simp_all [Like, Alike, bare]

theorem alikeCallCmd : Simulates S n sort (Like S.change) (callCmd expr) (callCmd expr') := by
  refine .bind .currentSpan fun start start' _ => ?_
  refine .bind (alikeCall nested) fun c c' ofC => ?_
  refine .bind (.expect (by decide)) fun _ _ _ => ?_
  refine .bind .spanFrom fun _ _ _ => .pure ?_
  simp_all [Like, Alike, bare]

theorem alikeParallelCmd (plain : ∀ k, sort k → isPlain k = true) :
    Simulates S n sort (Like S.change) (parallelCmd expr) (parallelCmd expr') := by
  refine .stay (.read _) .currentSpan fun start start' _ => ?_
  refine .bind (alikeParallelCalls nested plain) fun (calls, found) (calls', found') same => ?_
  obtain ⟨ofCalls, ofFound⟩ := same.pair
  refine .bind (.expect (by decide)) fun _ _ _ => ?_
  refine .bind .spanFrom fun _ _ _ => .pure ?_
  simp_all [Like, Alike, bare]

omit nested in
theorem alikeYieldCmd (plain : ∀ k, sort k → isPlain k = true) :
    Simulates S n sort (Like S.change) yieldCmd yieldCmd := by
  refine .bind (.advance plain) fun t t' _ => ?_
  refine .bind (.expect (by decide)) fun _ _ _ => ?_
  exact .bind .spanFrom fun _ _ _ => .pure (by simp [Like, Alike, bare])

theorem alikeWordCmd : Simulates S n sort (Like S.change) (wordCmd expr) (wordCmd expr') := by
  refine .byKind ⟨rfl, rfl, rfl, rfl, rfl, rfl⟩ fun k first => ?_
  split
  · exact alikeConditionCmd nested Cmd.respanAssert (Cmd.retypedAssert _) (by rintro _ rfl; decide)
  · exact alikeConditionCmd nested Cmd.respanAssume (Cmd.retypedAssume _) (by rintro _ rfl; decide)
  · exact alikeHavocCmd (by rintro _ rfl; decide)
  · exact alikeCallCmd nested
  · exact alikeCallCmd nested
  · exact alikeCallCmd nested
  · exact alikeParallelCmd nested (by rintro _ rfl; decide)
  · exact alikeYieldCmd (by rintro _ rfl; decide)
  · exact .bind (.syntaxError _) fun _ _ _ => .pure (LabelOrCmd.likeMistake _)

theorem alikeLabelOrCmd : MayMark S n sort (fun found => ∃ id, found = .label id) (Like S.change) (labelOrCmd expr)
    (labelOrCmd expr') :=
  .ifNext (by decide) (alikeLabelOrAssign nested) (.of (alikeWordCmd nested))

end Commands

end Boogie.Grammar
