import Boogie.Proofs.Grammar.Marked

/-! Names and types, read side by side. -/
namespace Boogie.Grammar

open Token (Kind)

section Names

variable {S : Simulation} {n : Nat} {sort : Kind → Prop}

theorem alikeIdentWritten : Simulates S n sort (Like S.change) identWritten identWritten := by
  refine .ifNext (by decide) ?_ ?_
  · refine .bind (.advance fun x is => plainOf is.2 rfl) fun t t' same => .pure ?_
    have kind : t.kind = .identifier := by simpa using same.first.2
    simp [Like, Alike, bare, same.text (kind ▸ rfl)]
  · refine .bind (.syntaxError _) fun _ _ _ => ?_
    exact .bind .currentSpan fun _ _ _ => .pure (by simp [Like, Alike, bare])

theorem alikeIdent : Simulates S n sort (Like S.change) ident ident :=
  .bind alikeIdentWritten fun _ _ same => .pure same.pair.1

theorem alikeIdents : Simulates S n sort (Like S.change) idents idents := .commaSeparated alikeIdent

theorem alikeTypeParams : Simulates S n sort (Like S.change) typeParams typeParams := by
  refine .bind (.expect (by decide)) fun _ _ _ => ?_
  refine .bind alikeIdents fun _ _ names => ?_
  exact .bind (.expect (by decide)) fun _ _ _ => .pure names

theorem alikeOptionalTypeParams : Simulates S n sort (Like S.change) optionalTypeParams optionalTypeParams :=
  .ifNext (by decide) alikeTypeParams (.pure .nil)

end Names

theorem alikeNamedType {c : Option Change} {span span' : Span} {name : String} {escaped escaped' : Bool}
    {args args' : List Ty} (written : Like c escaped escaped') (same : Like c args args') :
    Like c (namedType span name escaped args) (namedType span' name escaped' args') := by
  obtain rfl := written.boolEq
  have count := same.isEmptyEq
  cases args with
  | nil =>
    cases args' with
    | nil =>
      simp only [namedType]
      split <;> simp [Like, Alike, bare]
    | cons arg' rest' => exact absurd count.symm Bool.false_ne_true
  | cons arg rest =>
    cases args' with
    | nil => exact absurd count Bool.false_ne_true
    | cons arg' rest' => simpa [namedType, Like, Alike, bare] using same

structure SameType (c : Option Change) (t t' : Ty) : Prop where
  like : Like c t t'
  basic : t.isBasic = t'.isBasic

theorem SameType.ofAlike {t t' : Ty} (h : Alike t t') : SameType none t t' := by
  refine ⟨h, ?_⟩
  rw [Alike] at h
  cases t <;> cases t' <;> simp_all [bare, Ty.isBasic]

theorem namedTypeNotBasic {span : Span} {name : String} {escaped : Bool} {args : List Ty} :
    (namedType span name escaped args).isBasic = false := by
  unfold namedType
  split <;> rfl

theorem sameNamedType {c : Option Change} {span span' : Span} {name : String} {escaped escaped' : Bool}
    {args args' : List Ty} (written : Like c escaped escaped') (same : Like c args args') :
    SameType c (namedType span name escaped args) (namedType span' name escaped' args') :=
  ⟨alikeNamedType written same, by rw [namedTypeNotBasic, namedTypeNotBasic]⟩

theorem Progresses.typeArgument {type : Production Ty} :
    Progresses (fun k => argumentStart.contains k = true) (typeArgument type) := by
  refine .ifNext (.first (identWritten.mono fun k h => by simpa using h.2)) (.first (.advance ?_))
  rintro k ⟨start, _⟩ rfl
  revert start
  decide

section Types

variable {S : Simulation} {n : Nat} {sort : Kind → Prop} {type type' : Production Ty}
  (nested : Simulates S n anywhere (SameType S.change) type type')
include nested

theorem alikeTypeAtom (start : ∀ k, sort k → argumentStart.contains k = true) :
    Simulates S (n + 1) sort (SameType S.change) (typeAtom type) (typeAtom type') := by
  have plain (k : Kind) (first : sort k) : isPlain k = true :=
    plainOfMem (start k first) (by decide) (by decide)
  refine .progress (.advance fun k first => realOfPlain (plain k first)) (.advance plain) fun t t' same => ?_
  rw [same.kind]
  cases is : basicType t.kind with
  | some basic => exact .pure ⟨same.keyword basic is, rfl⟩
  | none =>
    refine .bind nested fun _ _ inner => ?_
    exact .bind (.expect (by decide)) fun _ _ _ => .pure inner

theorem alikeTypeArgument :
    Simulates S (n + 1) (fun k => argumentStart.contains k = true) (Like S.change) (typeArgument type)
      (typeArgument type') := by
  refine .ifNext (by decide) ?_ ?_
  · refine .bind alikeIdentWritten fun (name, escaped) (name', escaped') same => .pure ?_
    obtain ⟨ofName, ofEscaped⟩ := same.pair
    rw [ofName.nameEq]
    exact (sameNamedType ofEscaped .nil).like
  · exact (alikeTypeAtom nested fun k first => first.1).weaken fun _ _ => SameType.like

theorem alikeMapRest {start start' : Span} {params params' : List Ident} (ofParams : Like S.change params params') :
    Simulates S n anywhere (SameType S.change) (mapRest type start params) (mapRest type' start' params') := by
  refine .bind (V := Like S.change) (.ifNext (by decide) (.commaSeparated (nested.weaken fun _ _ => SameType.like))
    (.pure .nil)) fun args args' ofArgs => ?_
  refine .bind (.expect (by decide)) fun _ _ _ => ?_
  refine .bind nested fun result result' ⟨ofResult, _⟩ => ?_
  refine .bind .spanFrom fun _ _ _ => .pure ⟨?_, rfl⟩
  simp_all [Like, Alike, bare]

theorem alikeMapType :
    Simulates S (n + 1) (fun k => mapStart.contains k = true) (SameType S.change) (mapType type) (mapType type') := by
  refine .stay (.read _) .currentSpan fun start start' _ => ?_
  refine .ifNextThen (by decide) ?_ ?_
  · have moves : Progresses (· = .less) typeParams := .first (.expect (by decide))
    refine .progress (moves.mono fun k h => by simpa using h.2) alikeTypeParams fun _ _ params => ?_
    exact .bind (.expect (by decide)) fun _ _ _ => alikeMapRest nested params
  · rw [pure_bind, pure_bind]
    have moves : Progresses (· = .leftBracket) (expect .leftBracket) := .expect (by decide)
    refine .progress (moves.mono fun k h => ?_) (.expect (by decide)) fun _ _ _ => alikeMapRest nested .nil
    have start : k = .leftBracket ∨ k = .less := by
      simpa [mapStart, Token.KindSet.containsOfList] using h.1
    exact start.resolve_right (by simpa using h.2)

theorem alikeTypeArgs : Simulates S n sort (Like S.change) (typeArgs type) (typeArgs type') := by
  refine .bind (V := Like S.change) (.manyNext (by decide) (by decide) .typeArgument
    ((alikeTypeArgument nested).mono (fun _ h => h) (Nat.le_succ n))) fun args args' ofArgs => ?_
  refine .ifNext (by decide) ?_ (.pure ofArgs)
  refine .bind ((alikeMapType nested).mono (fun _ h => h.2) (Nat.le_succ n)) fun last last' ⟨ofLast, _⟩ => ?_
  exact .pure (ofArgs.append (.cons ofLast .nil))

theorem sameTypeLevel : Simulates S (n + 1) sort (SameType S.change) (typeLevel type) (typeLevel type') := by
  refine .ifNext (by decide) ?_ (.ifNext (by decide) ?_ (.ifNext (by decide) ?_ ?_))
  · refine .stay (.read _) .currentSpan fun start start' _ => ?_
    have moves : Progresses (· = .identifier) identWritten := .identWritten
    refine .progress (moves.mono fun k h => by simpa using h.2) alikeIdentWritten
      fun (name, escaped) (name', escaped') same => ?_
    obtain ⟨ofName, ofEscaped⟩ := same.pair
    refine .bind (alikeTypeArgs nested) fun args args' ofArgs => ?_
    refine .bind .spanFrom fun _ _ _ => .pure ?_
    rw [ofName.nameEq]
    exact sameNamedType ofEscaped ofArgs
  · exact (alikeMapType nested).mono (fun _ h => h.2) (Nat.le_refl _)
  · exact alikeTypeAtom nested fun k first => first.2
  · refine .fault (.syntaxError _) fun unchanged => .bind (.syntaxError _) fun _ _ _ => ?_
    exact .bind .currentSpan fun _ _ _ => .pure ⟨by rw [unchanged]; rfl, rfl⟩

end Types

section Types

variable {S : Simulation} {n : Nat} {sort : Kind → Prop}

theorem sameType : Simulates S n sort (SameType S.change) type type :=
  Simulates.always (.nest (V := fun _ => SameType S.change) (fun _ _ _ _ nested _ => sameTypeLevel (nested ())) ())

theorem alikeTypeLevel (unchanged : S.change = none) {type type' : Production Ty}
    (nested : Simulates S n anywhere Alike type type') :
    Simulates S (n + 1) sort Alike (typeLevel type) (typeLevel type') := by
  have same : Simulates S n anywhere (SameType S.change) type type' := by
    rw [unchanged]
    exact nested.weaken fun _ _ => SameType.ofAlike
  refine (sameTypeLevel same).weaken fun t t' h => ?_
  rw [unchanged] at h
  exact h.like

theorem alikeType : Simulates S n sort (Like S.change) type type := sameType.weaken fun _ _ => SameType.like

end Types

end Boogie.Grammar
