import Boogie.Grammar.Decl
import Boogie.Proofs.Alike.Stmt

/-! Declarations, read side by side. -/
namespace Boogie.Grammar

open Token (Kind)

instance : Spanned Signature :=
  ⟨fun f sig => ⟨sig.name, respan f sig.params, respan f sig.ins, respan f sig.outs, respan f sig.attributes⟩⟩

instance : Spanned Spec where
  respan f
    | .requires clause => .requires (respan f clause)
    | .modifies vars => .modifies (respan f vars)
    | .ensures clause => .ensures (respan f clause)
    | .mistake => .mistake

instance : Typed Signature :=
  ⟨fun f sig => ⟨sig.name, sig.params, retype f sig.ins, retype f sig.outs, retype f sig.attributes⟩⟩

instance : Typed Spec where
  retype f
    | .requires clause => .requires (retype f clause)
    | .modifies vars => .modifies vars
    | .ensures clause => .ensures (retype f clause)
    | .mistake => .mistake

@[simp] theorem Signature.respanMk (f : Span → Span) (name params ins outs attributes) :
    respan f (⟨name, params, ins, outs, attributes⟩ : Signature) =
      ⟨name, respan f params, respan f ins, respan f outs, respan f attributes⟩ := rfl

@[simp] theorem Spec.respanRequires (f : Span → Span) (clause : Clause) :
    respan f (Spec.requires clause) = .requires (respan f clause) := rfl

@[simp] theorem Spec.respanModifies (f : Span → Span) (vars : List Ident) :
    respan f (Spec.modifies vars) = .modifies (respan f vars) := rfl

@[simp] theorem Spec.respanEnsures (f : Span → Span) (clause : Clause) :
    respan f (Spec.ensures clause) = .ensures (respan f clause) := rfl

section Changed

variable (c : Option Change)

@[simp] theorem Signature.retypedMk (name params ins outs attributes) :
    retyped c (⟨name, params, ins, outs, attributes⟩ : Signature) =
      ⟨name, params, retyped c ins, retyped c outs, retyped c attributes⟩ := by
  cases c <;> rfl

@[simp] theorem Spec.retypedRequires (clause : Clause) :
    retyped c (Spec.requires clause) = .requires (retyped c clause) := by
  cases c <;> rfl

@[simp] theorem Spec.retypedModifies (vars : List Ident) : retyped c (Spec.modifies vars) = .modifies vars := by
  cases c <;> rfl

@[simp] theorem Spec.retypedEnsures (clause : Clause) :
    retyped c (Spec.ensures clause) = .ensures (retyped c clause) := by
  cases c <;> rfl

@[simp] theorem Spec.retypedMistake : retyped c Spec.mistake = .mistake := by cases c <;> rfl

end Changed

section Nodes

variable {c : Option Change}

theorem findMap {f : Attribute → Attribute} (kept : ∀ a, (f a).key = a.key) (as : List Attribute) (key : String) :
    Attribute.find (as.map f) key = (Attribute.find as key).map f := by
  have keyed : (fun a : Attribute => a.key == key) ∘ f = fun a => a.key == key :=
    funext fun a => by rw [Function.comp_apply, kept]
  have mapped := List.find?_map (f := f) (p := fun a : Attribute => a.key == key) (l := as)
  rw [keyed] at mapped
  exact mapped

theorem bareFind (as : List Attribute) (key : String) :
    Attribute.find (bare as) key = (Attribute.find as key).map bare :=
  findMap (fun ⟨_, _, _⟩ => rfl) as key

theorem bareIsSet (as : List Attribute) (key : String) : Attribute.isSet (bare as) key = Attribute.isSet as key := by
  rw [Attribute.isSet, Attribute.isSet, bareFind]
  cases Attribute.find as key with
  | none => rfl
  | some a =>
    obtain ⟨_, params, _⟩ := a
    simp only [Option.map_some, bare, Attribute.respanMk]
    rcases params with _ | ⟨_ | e, _ | ⟨_, _⟩⟩
    · rfl
    · rfl
    · simp
    · cases e with
      | literal span value => cases value <;> rfl
      | _ => simp
    · simp

theorem retypedIsSet (as : List Attribute) (key : String) :
    Attribute.isSet (retyped c as) key = Attribute.isSet as key := by
  rw [Attribute.isSet, Attribute.isSet, retypedList, findMap fun ⟨_, _, _⟩ => by simp]
  cases Attribute.find as key with
  | none => rfl
  | some a =>
    obtain ⟨_, params, _⟩ := a
    simp only [Option.map_some, Attribute.retypedMk]
    rcases params with _ | ⟨_ | e, _ | ⟨_, _⟩⟩
    · simp
    · simp
    · simp
    · cases e with
      | literal span value => simp
      | _ => simp
    · simp

theorem Like.isSetEq {as as' : List Attribute} (same : Like c as as') (key : String) :
    Attribute.isSet as key = Attribute.isSet as' key := by
  rw [← retypedIsSet (c := c) as, ← bareIsSet as', ← bareIsSet (retyped c as), same]

theorem alikeBoundFormals {fs fs' : List Formal} (same : Like c fs fs') :
    Like c (fs.zipIdx.map boundFormal) (fs'.zipIdx.map boundFormal) := by
  have ofOne (placed placed' : Formal × Nat) : Like c placed.1 placed'.1 ∧ placed.2 = placed'.2 →
      Like c (boundFormal placed) (boundFormal placed') := by
    obtain ⟨⟨name, type, whereClause, incoming, found, span⟩, i⟩ := placed
    obtain ⟨⟨name', type', whereClause', incoming', found', span'⟩, i'⟩ := placed'
    rintro ⟨one, rfl⟩
    simp_all [Like, Alike, bare, boundFormal]
  have placed (i : Nat) : List.Forall₂ (fun x x' : Formal × Nat => Like c x.1 x'.1 ∧ x.2 = x'.2) (fs.zipIdx i)
      (fs'.zipIdx i) := by
    have same := likeIff.mp same
    induction same generalizing i with
    | nil => exact .nil
    | cons one _ ih => exact .cons ⟨one, rfl⟩ (ih (likeIff.mpr ‹_›) (i + 1))
  exact likeIff.mpr (List.rel_map ofOne (placed 0))

theorem alikeDefinitionAxiom {f f' : Function} {body body' : Expr} (ofF : Like c f f')
    (ofBody : Like c body body') : Like c (definitionAxiom f body) (definitionAxiom f' body') := by
  obtain ⟨name, params, formals, ⟨_, type, _, _, _, _⟩, _, found, _⟩ := f
  obtain ⟨name', params', formals', ⟨_, type', _, _, _, _⟩, _, found', _⟩ := f'
  rw [Like, Function.retypedMk] at ofF
  have ofParams : Alike params params' := congrArg Function.params ofF
  have ofFormals : Like c formals formals' := congrArg Function.formals ofF
  have ofFormals := alikeBoundFormals ofFormals
  have args : Like c ((formals.zipIdx.map boundFormal).map fun v => Expr.name v.span v.name)
      ((formals'.zipIdx.map boundFormal).map fun v => Expr.name v.span v.name) := by
    refine ofFormals.map fun v v' same => ?_
    obtain ⟨_, _, _, _, _⟩ := v
    obtain ⟨_, _, _, _, _⟩ := v'
    simp_all [Like, Alike, bare]
  simp only [definitionAxiom]
  rw [ofParams.isEmptyEq, ofFormals.isEmptyEq]
  split
  · simp_all [Like, Alike, bare, Expr.binary]
  · simp_all [Like, Alike, bare, Expr.binary]

theorem alikeFunctionDecls {f f' : Function} {body body' : Option Expr} (ofF : Like c f f')
    (ofBody : Like c body body') : Like c (functionDecls f body) (functionDecls f' body') := by
  have ofFound : Like c f.attributes f'.attributes := by
    rw [Like, Function.retypedMk] at ofF
    exact congrArg Function.attributes ofF
  rcases body with _ | body <;> rcases body' with _ | body'
  · simpa [Like, Alike, bare, functionDecls] using ofF
  · simp [Like, Alike, bare] at ofBody
  · simp [Like, Alike, bare] at ofBody
  · have ofBody : Like c body body' := by simpa [Like, Alike, bare] using ofBody
    rw [functionDecls, functionDecls, ofFound.isSetEq]
    split
    · obtain ⟨name, params, formals, result, _, found, _⟩ := f
      obtain ⟨name', params', formals', result', _, found', _⟩ := f'
      simp_all [Like, Alike, bare]
    · have ofAxiom := alikeDefinitionAxiom ofF ofBody
      simp_all [Like, Alike, bare]

theorem withoutWhereAlike {fs fs' : List Formal} (same : Like c fs fs') :
    Like c (withoutWhere fs) (withoutWhere fs') := by
  refine same.map fun ⟨_, _, _, _, _, _⟩ ⟨_, _, _, _, _, _⟩ same => ?_
  simp_all [Like, Alike, bare]

theorem alikeProcedureDecls {sig sig' : Signature} {span span' : Span} {contract contract' : List Spec}
    {body body' : Option (List Variable × StmtList)} (ofSig : Like c sig sig')
    (ofContract : Like c contract contract') (ofBody : Like c body body') :
    Like c (procedureDecls sig span contract body) (procedureDecls sig' span' contract' body') := by
  obtain ⟨name, params, ins, outs, found⟩ := sig
  obtain ⟨name', params', ins', outs', found'⟩ := sig'
  have requires : Like c (contract.filterMap Spec.requires?) (contract'.filterMap Spec.requires?) :=
    ofContract.filterMap (fun _ spec => by cases spec <;> rfl) fun spec => by cases spec <;> simp [Spec.requires?]
  have ensures : Like c (contract.filterMap Spec.ensures?) (contract'.filterMap Spec.ensures?) :=
    ofContract.filterMap (fun _ spec => by cases spec <;> rfl) fun spec => by cases spec <;> simp [Spec.ensures?]
  have modifies : Like c (contract.flatMap Spec.modified) (contract'.flatMap Spec.modified) := by
    refine Like.flatten (ofContract.map fun spec spec' same => ?_)
    exact same.part (fun _ spec => by cases spec <;> rfl) fun spec => by cases spec <;> simp [Spec.modified]
  rw [Like, Signature.retypedMk] at ofSig
  have ofIns : Like c (withoutWhere ins) (withoutWhere ins') := withoutWhereAlike (congrArg Signature.ins ofSig)
  have ofOuts : Like c (withoutWhere outs) (withoutWhere outs') := withoutWhereAlike (congrArg Signature.outs ofSig)
  rcases body with _ | ⟨locals, stmts⟩ <;> rcases body' with _ | ⟨locals', stmts'⟩
  · simp_all [Like, Alike, bare, procedureDecls]
  · simp [Like, Alike, bare] at ofBody
  · simp [Like, Alike, bare] at ofBody
  · simp_all [Like, Alike, bare, procedureDecls]

end Nodes

section Declarations

variable {S : Simulation} {n : Nat} {sort : Kind → Prop}

theorem alikeParent : Simulates S n sort (Like S.change) parent parent := by
  refine .bind (.eats (by decide)) fun unique _ same => ?_
  subst same
  exact .bind alikeIdent fun id id' ofId => .pure (by simpa [Like, Alike, bare] using ofId)

theorem alikeParents : Simulates S n sort (Like S.change) parents parents :=
  .ifNext (by decide) (.commaSeparated alikeParent) (.pure .nil)

theorem alikeExtension : Simulates S n sort (Like S.change) extension extension := by
  refine .ifEats (by decide) ?_ (.pure (by simp [Like, Alike]))
  refine .bind alikeParents fun parents parents' same => ?_
  refine .bind (.eats (by decide)) fun complete _ both => .pure ?_
  subst both
  simpa [Like, Alike, bare] using same

theorem alikeConstants (plain : ∀ k, sort k → isPlain k = true) :
    Simulates S n sort (Like S.change) constants constants := by
  refine .bind (.advance plain) fun _ _ _ => ?_
  refine .bind (alikeAttributes alikeExpression) fun found found' ofFound => ?_
  refine .bind (.eats (by decide)) fun unique _ same => ?_
  subst same
  refine .bind alikeIdents fun names names' ofNames => ?_
  have rest (type type' : Ty) (ofType : Like S.change type type') : Simulates S n anywhere (Like S.change)
      (extension >>= fun extended => Grammar.expect .semicolon >>= fun _ => pure (names.map fun id =>
        Decl.constant ⟨id.name, type, unique, extended.1, extended.2, found, id.span⟩))
      (extension >>= fun extended => Grammar.expect .semicolon >>= fun _ => pure (names'.map fun id =>
        Decl.constant ⟨id.name, type', unique, extended.1, extended.2, found', id.span⟩)) := by
    refine .bind alikeExtension fun extended extended' same => ?_
    obtain ⟨ofParents, ofComplete⟩ := same.pair
    refine .bind (.expect (by decide)) fun _ _ _ => .pure ?_
    refine ofNames.map fun id id' same => ?_
    simp_all [Like, Alike, bare, same.nameEq]
  exact .expectColon (.bind alikeType rest) (.bind .type rest)

theorem SameType.bareNameEq {c : Option Change} {type type' : Ty} (same : SameType c type type') :
    type.bareName = type'.bareName := by
  obtain ⟨ofType, basic⟩ := same
  rw [Like] at ofType
  cases type with
  | named span n args =>
    cases type' with
    | named span' n' args' => cases args <;> cases args' <;> simp_all [Alike, bare, Ty.bareName]
    | _ => simp_all [Alike, bare]
  | _ => cases type' <;> simp_all [Alike, bare, Ty.bareName, Ty.isBasic]

structure SameFormal (c : Option Change) (f f' : Formal) : Prop where
  like : Like c f f'
  positional : positional f = positional f'

theorem sameFormals {c : Option Change} {fs fs' : List Formal} (same : List.Forall₂ (SameFormal c) fs fs') :
    Like c fs fs' := likeIff.mpr (same.imp fun _ _ => SameFormal.like)

theorem SameType.positionalEq {c : Option Change} {f f' : Formal} (same : SameType c f.type f'.type)
    (unnamed : f.name = none) (unnamed' : f'.name = none) : positional f = positional f' := by
  obtain ⟨ofType, basic⟩ := same
  rw [Like] at ofType
  rw [positional, positional, unnamed, unnamed']
  cases type : f.type with
  | named span n args =>
    cases type' : f'.type with
    | named span' n' args' => cases args <;> cases args' <;> simp_all [Alike, bare]
    | _ => simp_all [Alike, bare]
  | _ => cases type' : f'.type <;> simp_all [Alike, bare, Ty.isBasic]

theorem sameUnnamed {c : Option Change} {start start' : Span} {type type' : Ty} {incoming : Bool}
    {found found' : List Attribute} (ofType : SameType c type type') (ofFound : Like c found found') :
    SameFormal c ⟨none, type, none, incoming, found, start⟩ ⟨none, type', none, incoming, found', start'⟩ := by
  refine ⟨?_, ofType.positionalEq rfl rfl⟩
  obtain ⟨ofType, -⟩ := ofType
  simp_all [Like, Alike, bare]

theorem SameFormal.ofAlike {f f' : Formal} (h : Alike f f') : SameFormal none f f' := by
  refine ⟨h, ?_⟩
  have ofName := congrArg Formal.name (show bare f = bare f' from h)
  have ofType : Alike f.type f'.type := congrArg Formal.type h
  change f.name = f'.name at ofName
  cases unnamed : f.name with
  | some name => simp only [Grammar.positional, ← ofName, unnamed]
  | none => exact SameType.positionalEq (.ofAlike ofType) unnamed (ofName ▸ unnamed)

theorem sameFunctionFormal {incoming : Bool} :
    Simulates S n sort (SameFormal S.change) (functionFormal incoming) (functionFormal incoming) := by
  refine .bind (alikeAttributes alikeExpression) fun found found' ofFound => ?_
  refine .bind .currentSpan fun start start' _ => ?_
  refine .bind sameType fun first first' ofFirst => ?_
  simp only [ofFirst.bareNameEq]
  have rest (name : String) (type type' : Ty) (ofType : Like S.change type type') : Simulates S n anywhere
      (SameFormal S.change)
      (Grammar.spanFrom start >>= fun span => pure ⟨some name, type, none, incoming, found, span⟩)
      (Grammar.spanFrom start' >>= fun span => pure ⟨some name, type', none, incoming, found', span⟩) := by
    refine .bind .spanFrom fun _ _ _ => .pure ⟨?_, rfl⟩
    simp_all [Like, Alike, bare]
  refine .ifEatsColon ?_ ?_ ?_
  · refine .bind (.given (.broken _)) fun _ _ _ => ?_
    cases first'.bareName with
    | none =>
      refine .bind sameType fun second second' ofSecond => ?_
      exact .bind .spanFrom fun _ _ _ => .pure (sameUnnamed ofSecond ofFound)
    | some name => exact .bind alikeType (rest name)
  · cases first'.bareName with
    | none => exact .misses (.fault (.broken _))
    | some name => exact .given (.broken _) (.bind .type (rest name))
  · exact .bind .spanFrom fun _ _ _ => .pure (sameUnnamed ofFirst ofFound)

theorem sameFunctionFormals :
    Simulates S n sort (List.Forall₂ (SameFormal S.change)) functionFormals functionFormals := by
  refine .bind (.expect (by decide)) fun _ _ _ => ?_
  refine .bind (V := List.Forall₂ (SameFormal S.change))
    (.ifNext (by decide) (.eachSeparated sameFunctionFormal) (.pure .nil)) fun formals formals' same => ?_
  exact .bind (.expect (by decide)) fun _ _ _ => .pure same

theorem alikeNamePositional {next next' : Option Ty} {fs fs' : List Formal} (ofNext : Like S.change next next')
    (same : List.Forall₂ (SameFormal S.change) fs fs') :
    Simulates S n sort (Like S.change) (namePositional next fs) (namePositional next' fs') := by
  induction same generalizing next next' n sort with
  | nil => exact .pure .nil
  | @cons f f' rest rest' ofF ofRest ih =>
    have ofRest := sameFormals ofRest
    obtain ⟨ofF, ofPositional⟩ := ofF
    rw [namePositional, namePositional, ofPositional]
    cases positional f' with
    | keeps =>
      have ofType : Like S.change (some f.type) (some f'.type) := by
        obtain ⟨_, _, _, _, _, _⟩ := f
        obtain ⟨_, _, _, _, _, _⟩ := f'
        simp_all [Like, Alike, bare]
      exact .bind (ih ofType) fun _ _ more => .pure (ofF.cons more)
    | applied =>
      refine .bind (.brokenAt _) fun _ _ _ => ?_
      exact .bind (ih ofNext) fun _ _ more => .pure (ofF.cons more)
    | named name =>
      rcases next with _ | type <;> rcases next' with _ | type'
      · exact .bind (.brokenAt _) fun _ _ _ => .pure (ofF.cons ofRest)
      · exact absurd ofNext.isSomeEq Bool.false_ne_true
      · exact absurd ofNext.isSomeEq.symm Bool.false_ne_true
      · refine .bind (ih ofNext) fun _ _ more => .pure (.cons ?_ more)
        obtain ⟨_, _, whereClause, incoming, found, span⟩ := f
        obtain ⟨_, _, whereClause', incoming', found', span'⟩ := f'
        simp_all [Like, Alike, bare]

theorem Like.unnamedEq {c : Option Change} {fs fs' : List Formal} (same : Like c fs fs') :
    (fs.all fun f => f.name.isNone) = fs'.all fun f => f.name.isNone := by
  induction likeIff.mp same with
  | nil => rfl
  | @cons f f' _ _ one _ ih =>
    obtain ⟨_, _, _, _, _, _⟩ := f
    obtain ⟨_, _, _, _, _, _⟩ := f'
    simp_all [Like, Alike, bare]

theorem alikeNameFormals {fs fs' : List Formal} (same : List.Forall₂ (SameFormal S.change) fs fs') :
    Simulates S n sort (Like S.change) (nameFormals fs) (nameFormals fs') := by
  rw [nameFormals, nameFormals, (sameFormals same).unnamedEq]
  split
  · exact .pure (sameFormals same)
  · exact .bind (alikeNamePositional .none (List.rel_reverse same)) fun _ _ named => .pure named.reverse

theorem Faults.resultMissing (fs : List Formal) : Faults (resultMissing fs) := by
  intro s
  simp only [Grammar.resultMissing, Production.runBind]
  split
  · split
    · exact Faults.brokenAt _ _ _
    · exact Faults.syntaxError _ _
  · exact Faults.syntaxError _ _

theorem alikeResultMissing {fs fs' : List Formal} (same : Like S.change fs fs') :
    Simulates S n sort (fun _ _ => True) (resultMissing fs) (resultMissing fs') := by
  have last : Like S.change fs.getLast? fs'.getLast? :=
    same.part (fun f as => by rw [respanList, List.getLast?_map]; rfl) fun as => by
      rw [retypedList, List.getLast?_map]
      cases as.getLast? <;> simp
  rw [resultMissing, resultMissing, same.unnamedEq]
  refine .bind (V := (· = ·)) (fun s s' row _ _ _ => ?_) fun isEnd _ both => ?_
  · exact ⟨(S.uniform row (f := (· == .semicolon)) (by decide)).symm, row⟩
  · subst both
    revert last
    cases fs.getLast? <;> cases fs'.getLast? <;> intro last
    · exact .syntaxError _
    · exact absurd last.isSomeEq nofun
    · exact absurd last.isSomeEq nofun
    · generalize (isEnd && fs'.all fun f => f.name.isNone) = ends
      cases ends
      · exact .syntaxError _
      · exact .brokenAt _

theorem alikeFunctionResult {fs fs' : List Formal} (same : Like S.change fs fs') :
    Simulates S n sort (fun result result' => Like S.change result result' ∧ (result = none → S.change = none))
      (functionResult fs) (functionResult fs') := by
  have rest (type type' : Ty) (ofType : Like S.change type type') : Simulates S n anywhere
      (fun result result' => Like S.change result result' ∧ (result = none → S.change = none))
      (pure (some (Formal.mk none type none false [] type.span)))
      (pure (some (Formal.mk none type' none false [] type'.span))) := by
    refine .pure ⟨?_, fun none => absurd none (Option.some_ne_none _)⟩
    simpa [Like, Alike, bare] using ofType
  refine .ifEats (by decide) ?_ (.ifEatsColon (.bind alikeType rest) (.bind .type rest) ?_)
  · refine .bind (.expect (by decide)) fun _ _ _ => ?_
    refine .bind sameFunctionFormal fun f f' ofF => ?_
    exact .bind (.expect (by decide)) fun _ _ _ => .pure
      ⟨ofF.like.some, fun none => absurd none (Option.some_ne_none _)⟩
  · refine .fault (.resultMissing fs) fun unchanged => ?_
    exact .bind (alikeResultMissing same) fun _ _ _ => .pure ⟨.none, fun _ => unchanged⟩

theorem alikeFunctionBody : Simulates S n sort (Like S.change) functionBody functionBody := by
  refine .ifEats (by decide) ?_ (.ifEats (by decide) (.pure .none) ?_)
  · refine .bind alikeExpression fun body body' ofBody => ?_
    exact .bind (.expect (by decide)) fun _ _ _ => .pure ofBody.some
  · exact .bind (.syntaxError _) fun _ _ _ => .pure .none

theorem alikeFunction (plain : ∀ k, sort k → isPlain k = true) :
    Simulates S n sort (Like S.change) function function := by
  refine .bind (.advance plain) fun t t' _ => ?_
  refine .bind (alikeAttributes alikeExpression) fun found found' ofFound => ?_
  refine .bind alikeIdent fun name name' ofName => ?_
  refine .bind alikeOptionalTypeParams fun params params' ofParams => ?_
  refine .bind sameFunctionFormals fun formals formals' ofFormals => ?_
  refine .bind (alikeFunctionResult (sameFormals ofFormals)) fun result result' same => ?_
  obtain ⟨ofResult, missing⟩ := same
  refine .bind alikeFunctionBody fun body body' ofBody => ?_
  refine .bind .previousSpan fun last last' _ => ?_
  refine .bind (alikeNameFormals ofFormals) fun formals formals' ofFormals => ?_
  refine .bind .spanFrom fun span span' _ => .pure (alikeFunctionDecls ?_ ofBody)
  cases result <;> cases result'
  · simp_all [Like, Alike, bare, ofName.nameEq, Ty.placeholder, retyped]
  · exact absurd ofResult.isSomeEq Bool.false_ne_true
  · exact absurd ofResult.isSomeEq.symm Bool.false_ne_true
  · simp_all [Like, Alike, bare, ofName.nameEq]

theorem alikeAxiomDecl (plain : ∀ k, sort k → isPlain k = true) :
    Simulates S n sort (Like S.change) axiomDecl axiomDecl := by
  refine .bind (.advance plain) fun t t' _ => ?_
  refine .bind (alikeAttributes alikeExpression) fun found found' ofFound => ?_
  refine .bind alikeExpression fun e e' ofE => ?_
  refine .bind (.expect (by decide)) fun _ _ _ => ?_
  refine .bind .spanFrom fun _ _ _ => .pure ?_
  simp_all [Like, Alike, bare]

theorem alikeTypeDecl {found found' : List Attribute} (ofFound : Like S.change found found') :
    Simulates S n sort (Like S.change) (typeDecl found) (typeDecl found') := by
  have name : Progresses (fun k => (k == .identifier) = true) ident :=
    Progresses.ident.mono fun k h => by simpa using h
  refine .bind alikeIdent fun name name' ofName => ?_
  refine .bind (.manyNext (by decide) (by decide) ‹_› alikeIdent) fun params params' ofParams => ?_
  refine .ifEats (by decide) ?_ ?_
  · refine .bind alikeType fun body body' ofBody => ?_
    refine .bind .spanFrom fun _ _ _ => .pure ?_
    simp_all [Like, Alike, bare, ofName.nameEq]
  · refine .bind .spanFrom fun _ _ _ => .pure ?_
    simp_all [Like, Alike, bare, ofName.nameEq, ofParams.lengthEq]

theorem alikeTypeDecls (plain : ∀ k, sort k → isPlain k = true) :
    Simulates S n sort (Like S.change) typeDecls typeDecls := by
  refine .bind (.advance plain) fun _ _ _ => ?_
  refine .bind (alikeAttributes alikeExpression) fun found found' ofFound => ?_
  refine .bind (.commaSeparated (alikeTypeDecl ofFound)) fun decls decls' same => ?_
  exact .bind (.expect (by decide)) fun _ _ _ => .pure same

theorem alikeGlobals : Simulates S n sort (Like S.change) globals globals :=
  .bind (alikeVariableDecl alikeExpression) fun _ _ same =>
    .pure (same.map fun _ _ one => by simpa [Like, Alike, bare] using one)

theorem alikeFormals {role : GroupRole} {incoming : Bool} :
    Simulates S n sort (Like S.change) (formals role incoming) (formals role incoming) := by
  refine .bind (.expect (by decide)) fun _ _ _ => ?_
  refine .bind (V := Like S.change) (.ifNext (by decide) (alikeAttributedGroups alikeExpression) (.pure .nil))
    fun groups groups' same => ?_
  refine .bind (.expect (by decide)) fun _ _ _ => .pure ?_
  refine same.map fun ⟨_, _, _, _, _⟩ ⟨_, _, _, _, _⟩ one => ?_
  simp_all [Like, Alike, bare, formalOf]

theorem alikeSignature {role : GroupRole} :
    Simulates S n sort (Like S.change) (signature role) (signature role) := by
  refine .bind (alikeAttributes alikeExpression) fun found found' ofFound => ?_
  refine .bind alikeIdent fun name name' ofName => ?_
  refine .bind alikeOptionalTypeParams fun params params' ofParams => ?_
  refine .bind alikeFormals fun ins ins' ofIns => ?_
  refine .bind (V := Like S.change) (.ifEats (by decide) alikeFormals (.pure .nil)) fun outs outs' ofOuts => .pure ?_
  simp_all [Like, Alike, bare, ofName.nameEq]

theorem alikeClause {start start' : Span} {free : Bool} (plain : ∀ k, sort k → isPlain k = true) :
    Simulates S n sort (Like S.change) (clause start free) (clause start' free) := by
  refine .bind (.advance plain) fun _ _ _ => ?_
  refine .bind (alikeAttributes alikeExpression) fun found found' ofFound => ?_
  refine .bind alikeExpression fun e e' ofE => ?_
  refine .bind (.expect (by decide)) fun _ _ _ => ?_
  refine .bind .spanFrom fun _ _ _ => .pure ?_
  simp_all [Like, Alike, bare]

theorem Progresses.spec : Progresses (fun k => clauseStart.contains k = true) spec := by
  refine .stay (.read _) fun start => .eat (by decide) (.eat (by decide) (.byKind fun k first => ?_))
  split
  · exact .first (.first (.advance (by rintro _ rfl; decide)))
  · exact .first (.first (.advance (by rintro _ rfl; decide)))
  · have mem : k ∈ [Kind.kwModifies, .kwFree, .kwRequires, .kwEnsures] := by
      simpa [clauseStart, Token.KindSet.containsOfList] using first.1.1
    simp_all

theorem alikeSpec : Simulates S n sort (Like S.change) spec spec := by
  refine .bind .currentSpan fun start start' _ => ?_
  refine .ifEats (by decide) ?_ ?_
  · refine .bind (V := Like S.change) (.ifNext (by decide) alikeIdents (.pure .nil)) fun vars vars' same => ?_
    exact .bind (.expect (by decide)) fun _ _ _ => .pure (by simpa [Like, Alike, bare] using same)
  · refine .bind (.eats (by decide)) fun free _ same => ?_
    subst same
    refine .byKind ⟨rfl, rfl, rfl, rfl, rfl, rfl⟩ fun k _ => ?_
    split
    · exact .bind (alikeClause (by rintro _ rfl; decide)) fun _ _ same =>
        .pure (by simpa [Like, Alike, bare] using same)
    · exact .bind (alikeClause (by rintro _ rfl; decide)) fun _ _ same =>
        .pure (by simpa [Like, Alike, bare] using same)
    · exact .bind (.syntaxError _) fun _ _ _ => .pure (by simp [Like, Alike])

theorem alikeSpecs : Simulates S n sort (Like S.change) specs specs :=
  .manyNext (by decide) (by decide) .spec alikeSpec

theorem alikeImplementationBody : Simulates S n sort (Like S.change) implementationBody implementationBody := by
  refine .bind (.expect (by decide)) fun _ _ _ => ?_
  refine .bind (alikeLocalVariables alikeExpression) fun locals locals' ofLocals => ?_
  exact .bind alikeStmtList fun stmts stmts' ofStmts => .pure (ofLocals.both ofStmts)

theorem alikeContractAndBody : Simulates S n sort (Like S.change) contractAndBody contractAndBody := by
  refine .ifEats (by decide) ?_ (.ifNext (by decide) ?_ ?_)
  · exact .bind alikeSpecs fun specs specs' same => .pure (same.both .none)
  · refine .bind alikeSpecs fun specs specs' same => ?_
    refine .bind alikeImplementationBody fun body body' ofBody => .pure (same.both ofBody.some)
  · exact .bind (.syntaxError _) fun _ _ _ => .pure (Like.nil.both .none)

theorem alikeProcedure (plain : ∀ k, sort k → isPlain k = true) :
    Simulates S n sort (Like S.change) procedure procedure := by
  refine .bind (.advance plain) fun t t' _ => ?_
  refine .bind alikeSignature fun sig sig' ofSig => ?_
  refine .bind alikeContractAndBody fun (contract, body) (contract', body') same => ?_
  obtain ⟨ofContract, ofBody⟩ := same.pair
  exact .bind .spanFrom fun _ _ _ => .pure (alikeProcedureDecls ofSig ofContract ofBody)

theorem alikeImplementation (plain : ∀ k, sort k → isPlain k = true) :
    Simulates S n sort (Like S.change) implementation implementation := by
  refine .bind (.advance plain) fun t t' _ => ?_
  refine .bind alikeSignature fun ⟨_, _, _, _, _⟩ ⟨_, _, _, _, _⟩ ofSig => ?_
  refine .bind alikeImplementationBody fun (locals, stmts) (locals', stmts') same => ?_
  obtain ⟨ofLocals, ofStmts⟩ := same.pair
  refine .bind .spanFrom fun _ _ _ => .pure ?_
  simp_all [Like, Alike, bare]

theorem alikeDecl (real : ∀ k, sort k → k ≠ .endOfText) : Simulates S n sort (Like S.change) decl decl := by
  refine .byInnerKind real fun k _ => ?_
  split
  · exact alikeConstants (by rintro _ rfl; decide)
  · exact alikeFunction (by rintro _ rfl; decide)
  · exact alikeAxiomDecl (by rintro _ rfl; decide)
  · exact alikeTypeDecls (by rintro _ rfl; decide)
  · exact alikeGlobals
  · exact alikeProcedure (by rintro _ rfl; decide)
  · exact alikeImplementation (by rintro _ rfl; decide)
  · exact .recover (by decide) (by decide) (.pure .nil)

end Declarations

end Boogie.Grammar
