import Boogie.Proofs.Grammar.Insertion

/-! Items of statement lists that end at a point. Each of them ends in a mark of its own, so none looks at what
is put behind it, but for a conditional, which may go on with `else`. -/
namespace Boogie.Grammar

open Token (Kind)

variable {p : Insertion} {n : Nat} {sort : Kind → Prop}

section Commands

theorem nearsConditionCmd {make : Span → List Attribute → Expr → Cmd}
    (natural : ∀ f span as e, respan f (make span as e) = make (f span) (respan f as) (respan f e))
    (plain : ∀ k, sort k → isPlain k = true) :
    Nears p 1 n sort Alike (conditionCmd expression make) (conditionCmd expression make) := by
  refine .front (.advance plain) (fun _ => .behind fun _ => .behind fun _ => .mark (by decide)) fun t t' _ => ?_
  refine .front (alikeAttributes alikeExpression) (fun _ => .behind fun _ => .mark (by decide))
    fun found found' ofFound => ?_
  refine .front alikeExpression (fun _ => .mark (by decide)) fun e e' ofE => ?_
  refine .expect (by decide) (.spanFrom fun _ _ => .pure ?_)
  simp_all [Alike, bare]

theorem nearsHavocCmd (plain : ∀ k, sort k → isPlain k = true) : Nears p 1 n sort Alike havocCmd havocCmd := by
  refine .front (.advance plain) (fun _ => .behind fun _ => .mark (by decide)) fun t t' _ => ?_
  refine .front alikeIdents (fun _ => .mark (by decide)) fun vars vars' ofVars => ?_
  refine .expect (by decide) (.spanFrom fun _ _ => .pure ?_)
  simp_all [Alike, bare]

theorem nearsCallCmd : Nears p 1 n sort Alike (callCmd expression) (callCmd expression) := by
  refine .look fun start start' => .front (alikeCall alikeExpression) (fun _ => .mark (by decide)) fun c c' ofC => ?_
  refine .expect (by decide) (.spanFrom fun _ _ => .pure ?_)
  simp_all [Alike, bare]

theorem nearsParallelCmd (plain : ∀ k, sort k → isPlain k = true) :
    Nears p 1 n sort Alike (parallelCmd expression) (parallelCmd expression) := by
  refine .look fun start start' => .front (alikeParallelCalls alikeExpression plain) (fun _ => .mark (by decide)) ?_
  intro (calls, found) (calls', found') same
  obtain ⟨ofCalls, ofFound⟩ := same.pair
  refine .expect (by decide) (.spanFrom fun _ _ => .pure ?_)
  simp_all [Alike, bare]

theorem nearsYieldCmd (plain : ∀ k, sort k → isPlain k = true) : Nears p 1 n sort Alike yieldCmd yieldCmd :=
  .front (.advance plain) (fun _ => .mark (by decide)) fun _ _ _ => .expect (by decide) (.spanFrom fun _ _ => .pure rfl)

theorem nearsWordCmd : Nears p 1 n sort Alike (wordCmd expression) (wordCmd expression) := by
  refine .byKind fun k first => ?_
  split
  · exact nearsConditionCmd Cmd.respanAssert (by rintro _ rfl; decide)
  · exact nearsConditionCmd Cmd.respanAssume (by rintro _ rfl; decide)
  · exact nearsHavocCmd (by rintro _ rfl; decide)
  · exact nearsCallCmd
  · exact nearsCallCmd
  · exact nearsCallCmd
  · exact nearsParallelCmd (by rintro _ rfl; decide)
  · exact nearsYieldCmd (by rintro _ rfl; decide)
  · exact .fault (.syntaxError _)

theorem nearsLabelOrAssign : Nears p 1 n sort Alike (labelOrAssign expression) (labelOrAssign expression) := by
  have further : Simulates (before p) n anywhere Alike (do target expression (← ident))
      (do target expression (← ident)) :=
    .bind alikeIdent fun id id' ofId => alikeTarget alikeExpression ofId
  refine .front alikeIdent (fun id => ?_) fun id id' ofId => ?_
  · refine .eat (by decide) (.ifElse ?_ (.fault (.syntaxError _)))
    exact .behind fun _ => .behind fun _ => .behind fun _ => .behind fun _ => .mark (by decide)
  · refine .ifEats (by decide) nofun (.pure ?_) (.ifNext ?_ (.fault (.syntaxError _)))
    · simpa [Alike, bare] using ofId
    · refine .front (alikeTarget alikeExpression ofId)
        (fun _ => .behind fun _ => .behind fun _ => .behind fun _ => .mark (by decide)) fun first first' ofFirst => ?_
      refine .front (.manyEats (by decide) further (Nat.le_succ n))
        (fun _ => .behind fun _ => .behind fun _ => .mark (by decide)) fun rest rest' ofRest => ?_
      refine .front (.expect (by decide)) (fun _ => .behind fun _ => .mark (by decide)) fun _ _ _ => ?_
      refine .front (.commaSeparated alikeExpression) (fun _ => .mark (by decide)) fun values values' ofValues => ?_
      refine .expect (by decide) (.spanFrom fun _ _ => .pure ?_)
      simp_all [Alike, bare]

theorem nearsLabelOrCmd : Nears p 1 n sort Alike (labelOrCmd expression) (labelOrCmd expression) :=
  .ifNext nearsLabelOrAssign nearsWordCmd

end Commands

section Tails

theorem nearsBreakCmd (plain : ∀ k, sort k → isPlain k = true) : Nears p 1 n sort Alike breakCmd breakCmd := by
  have label : Simulates (before p) n anywhere Alike
      (ifNext (check .identifier) (do return some (← ident).name) (pure none))
      (ifNext (check .identifier) (do return some (← ident).name) (pure none)) :=
    .ifNext (by decide) (.bind alikeIdent fun id id' ofId => .pure (by rw [ofId.nameEq]; rfl)) (.pure rfl)
  refine .front (.advance plain) (fun _ => .behind fun _ => .mark (by decide)) fun t t' _ => ?_
  refine .front label (fun _ => .mark (by decide)) fun label label' same => ?_
  refine .expect (by decide) (.spanFrom fun _ _ => .pure ?_)
  cases label <;> cases label' <;> simp_all [Alike, bare]

theorem nearsTransferCmd : Nears p 1 n sort Alike transferCmd transferCmd := by
  refine .look fun start start' => .ifEats (by decide) nofun (.ofTakes (.behind fun _ => .mark (by decide)) ?_) ?_
  · refine .front alikeIdents (fun _ => .mark (by decide)) fun labels labels' same => ?_
    exact .expect (by decide) (.spanFrom fun _ _ => .pure (by simpa [Alike, bare] using same))
  · refine .front (.expect (by decide)) (fun _ => .mark (by decide)) fun _ _ _ => ?_
    exact .expect (by decide) (.spanFrom fun _ _ => .pure rfl)

end Tails

section Variables

theorem nearsVariableDecl {role : GroupRole} :
    Nears p 1 n sort Alike (variableDecl expression role) (variableDecl expression role) := by
  refine .front (.expect (by decide)) (fun _ => .behind fun _ => .behind fun _ => .mark (by decide)) fun _ _ _ => ?_
  refine .front (alikeAttributes alikeExpression) (fun _ => .behind fun _ => .mark (by decide))
    fun found found' ofFound => ?_
  refine .front (.commaSeparated (alikeTypedGroup alikeExpression ofFound)) (fun _ => .mark (by decide))
    fun _ _ groups => ?_
  exact .expect (by decide) (.pure groups.flatten)

theorem nearsLocalVariables : Nears p 0 n sort Alike (localVariables expression) (localVariables expression) := by
  have other : (p.firstKind == .kwVar) = false :=
    beq_eq_false_iff_ne.mpr (p.firstKindNe (by decide) (.inr (.inr (.inr rfl))))
  refine .bind (.manyNext other .variableDecl .variableDecl nearsVariableDecl) fun _ _ same => ?_
  exact .pure same.flatten

end Variables

end Boogie.Grammar
