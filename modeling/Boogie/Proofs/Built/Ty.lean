import Boogie.Proofs.Built.Checks

/-! Types as they are built. -/
namespace Boogie.Grammar

open Token (Kind)

section Types

variable {G : Scope} {n : Nat} {sort : Kind → Prop}

theorem tyPlaceholder (span : Span) (dirty : ¬ G.clean) : every G.built (Ty.placeholder span) :=
  ⟨trivial, trivial, fun clean => absurd clean dirty⟩

theorem namedTypeBuilt {span : Span} {name : String} {escaped : Bool} {args : List Ty}
    (ofName : G.built.name name) (ofArgs : every G.built args) :
    every G.built (namedType span name escaped args) := by
  simp only [namedType]
  split
  · rename_i width found
    refine ⟨trivial, ?_, fun _ => trivial⟩
    obtain ⟨digits, _, read⟩ := Option.bind_eq_some_iff.mp found
    simpa [tyFixed] using (Option.filter_eq_some_iff.mp read).2
  · rw [Ty.everyNamed]
    exact ⟨⟨trivial, trivial, fun _ => trivial⟩, ofName, ofArgs⟩

theorem buildsTypeParams : Builds G n sort typeParams := by
  refine .any fun _ => ?_
  refine .bind buildsIdents fun names ok => ?_
  exact .any fun _ => .pure ok.2

theorem buildsOptionalTypeParams : Builds G n sort optionalTypeParams :=
  .ifNext buildsTypeParams (.pure everyNil)

variable {type : Production Ty} (nested : Builds G n anywhere type)
include nested

theorem buildsTypeAtom (real : ∀ k, sort k → k ≠ .endOfText) : Builds G (n + 1) sort (typeAtom type) := by
  refine .progress (.advance real) (.advance real) fun t ⟨mem, _⟩ => ?_
  split
  · rename_i b found
    exact .pure ⟨trivial, trivial, fun _ => ⟨t, mem, rfl, found⟩⟩
  · refine .bind nested fun inner ok => ?_
    exact .any fun _ => .pure ok

theorem buildsTypeArgument : Builds G (n + 1) (fun k => argumentStart.contains k = true) (typeArgument type) := by
  refine .ifNext ?_ ?_
  · exact .bind buildsIdentWritten fun (name, _) ok => .pure (namedTypeBuilt ok.1 everyNil)
  · refine buildsTypeAtom nested ?_
    rintro k ⟨start, _⟩ rfl
    revert start
    decide

theorem buildsMapRest {start : Span} {params : List Ident} (ok : every G.built params) :
    Builds G n anywhere (mapRest type start params) := by
  have args : Builds G n anywhere (ifNext (checkAny typeStart) (commaSeparated type) (pure [])) :=
    .ifNext ((buildsCommaSeparated nested).weaken fun _ h => h.2) (.pure everyNil)
  refine .bind args fun args ofArgs => ?_
  refine .any fun _ => ?_
  refine .bind nested fun result ofResult => ?_
  refine .any fun span => .pure ?_
  rw [Ty.everyMap]
  exact ⟨⟨trivial, trivial, fun _ => trivial⟩, ok, ofArgs, ofResult⟩

theorem buildsMapType : Builds G (n + 1) (fun k => mapStart.contains k = true) (mapType type) := by
  refine .look fun start => ?_
  refine .ifNextThen ?_ ?_
  · have moves : Progresses (· = .less) typeParams := .first (.expect (by decide))
    refine .progress (moves.mono fun k h => by simpa using h.2) buildsTypeParams fun params ok => ?_
    exact .any fun _ => buildsMapRest nested ok
  · rw [pure_bind]
    have moves : Progresses (· = .leftBracket) (expect .leftBracket) := .expect (by decide)
    refine .anyProgress (moves.mono fun k h => ?_) fun _ => buildsMapRest nested everyNil
    have start : k = .leftBracket ∨ k = .less := by
      simpa [mapStart, Token.KindSet.containsOfList] using h.1
    exact start.resolve_right (by simpa using h.2)

theorem buildsTypeArgs : Builds G n sort (typeArgs type) := by
  have args : Builds G n sort (many (checkAny argumentStart) (typeArgument type)) :=
    .manyNext ((buildsTypeArgument nested).mono (fun _ h => h) (Nat.le_succ n))
  refine .bind args fun args ofArgs => ?_
  refine .ifNext ?_ (.pure ofArgs)
  refine .bind ((buildsMapType nested).mono (fun _ h => h.2) (Nat.le_succ n)) fun last ofLast => ?_
  exact .pure (by simp [ofArgs, ofLast])

theorem buildsTypeLevel : Builds G (n + 1) sort (typeLevel type) := by
  refine .ifNext ?_ (.ifNext ?_ (.ifNext ?_ ?_))
  · refine .look fun start => ?_
    have moves : Progresses (· = .identifier) identWritten := .identWritten
    refine .progress (moves.mono fun k h => by simpa using h.2) buildsIdentWritten fun (name, _) ok => ?_
    refine .bind (buildsTypeArgs nested) fun args ofArgs => ?_
    exact .any fun span => .pure (namedTypeBuilt ok.1 ofArgs)
  · exact (buildsMapType nested).mono (fun _ h => h.2) (Nat.le_refl _)
  · refine buildsTypeAtom nested ?_
    rintro k ⟨_, start⟩ rfl
    revert start
    decide
  · refine .bind (.fault (.syntaxError _)) fun _ dirty => ?_
    exact .any fun span => .pure (tyPlaceholder span dirty)

end Types

theorem buildsType {G : Scope} {n : Nat} {sort : Kind → Prop} : Builds G n sort type :=
  Yields.always (.nest (P := fun _ => every G.built) (fun _ _ _ ok _ => buildsTypeLevel (ok ())) ())

end Boogie.Grammar
