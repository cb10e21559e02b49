import Boogie.Proofs.Built.Stmt
import Boogie.Grammar.Decl

/-! Declarations as they are built, and with them the program. -/
namespace Boogie.Grammar

open Token (Kind)

instance : Inspected Spec where
  every c
    | .requires clause => every c clause
    | .modifies vars => every c vars
    | .ensures clause => every c clause
    | .mistake => True

section Declarations

variable {G : Scope} {n : Nat} {sort : Kind → Prop}

theorem buildsParent : Builds G n sort parent :=
  .any fun _ => .bind buildsIdent fun _ ok => .pure ok

theorem buildsParents : Builds G n sort parents :=
  .ifNext ((buildsCommaSeparated buildsParent).weaken fun _ h => h.2) (.pure everyNil)

theorem buildsExtension :
    Yields G n sort (fun p => every G.built p.1 ∧ (p.1 = none → p.2 = false)) extension := by
  refine .ifEats (by decide) ?_ (.pure ⟨everyNone, fun _ => rfl⟩)
  exact .bind buildsParents fun ps ok => .any fun complete => .pure ⟨(everySome ps).mpr ok, nofun⟩

theorem buildsConstants : Builds G n sort constants := by
  refine .any fun _ => ?_
  refine .bind (buildsAttributes buildsExpression) fun found ofFound => ?_
  refine .any fun unique => ?_
  refine .bind buildsIdents fun names ⟨_, ofNames⟩ => ?_
  refine .any fun _ => ?_
  refine .bind buildsType fun type ofType => ?_
  refine .bind buildsExtension fun (parents, complete) ⟨ofParents, fixed⟩ => ?_
  refine .any fun _ => .pure (everyMap ofNames fun id ofId => ?_)
  exact ⟨⟨trivial, fixed, fun _ => trivial⟩, ofId, ofType, ofParents, ofFound⟩

def isFormal (G : Scope) (incoming : Bool) (f : Formal) : Prop :=
  every G.built f ∧ f.incoming = incoming ∧ f.whereClause = none

theorem bareNameBuilt {type : Ty} (ok : every G.built type) : every G.built type.bareName := by
  cases type with
  | named span n args =>
    cases args with
    | nil => exact (everySome n).mpr (Ty.everyNamed.mp ok).2.1
    | cons _ _ => exact everyNone
  | bitVector span width => exact (everySome _).mpr fun _ => .width width
  | _ => exact everyNone

theorem buildsFunctionFormal {incoming : Bool} :
    Yields G n sort (isFormal G incoming) (functionFormal incoming) := by
  refine .bind (buildsAttributes buildsExpression) fun found ofFound => ?_
  refine .any fun start => ?_
  refine .bind buildsType fun first ofFirst => ?_
  refine .ifEats (by decide) ?_ ?_
  · refine .any fun _ => ?_
    refine .bind buildsType fun second ofSecond => ?_
    refine .any fun span => .pure ⟨?_, rfl, rfl⟩
    exact ⟨bareNameBuilt ofFirst, ofSecond, everyNone, ofFound⟩
  · exact .any fun span => .pure ⟨⟨everyNone, ofFirst, everyNone, ofFound⟩, rfl, rfl⟩

theorem buildsFunctionFormals :
    Yields G n sort (fun fs => ∀ f ∈ fs, isFormal G true f) functionFormals := by
  have formals : Yields G n anywhere (fun fs => ∀ f ∈ fs, isFormal G true f)
      (ifNext (checkAny (typeStart.insert .leftBrace)) (commaSeparated (functionFormal true)) (pure [])) :=
    .ifNext ((Yields.separated (by decide) buildsFunctionFormal buildsFunctionFormal
      (Nat.le_succ n)).weaken fun _ h => h.2) (.pure nofun)
  refine .any fun _ => ?_
  refine .bind formals fun fs ok => ?_
  exact .any fun _ => .pure ok

theorem buildsNamePositional {next : Option Ty} {fs : List Formal} (ofNext : every G.built next)
    (ok : ∀ f ∈ fs, isFormal G true f) :
    Yields G n sort (fun fs => (∀ f ∈ fs, isFormal G true f) ∧ (G.clean → ∀ f ∈ fs, positional f = .keeps))
      (namePositional next fs) := by
  induction fs generalizing next n sort with
  | nil => exact .pure ⟨nofun, fun _ => nofun⟩
  | cons f rest ih =>
    have ofF := ok f (List.mem_cons_self ..)
    have ofRest : ∀ g ∈ rest, isFormal G true g := fun g mem => ok g (List.mem_cons_of_mem f mem)
    have onward {g : Formal} (ofG : isFormal G true g) (named : G.clean → positional g = .keeps)
        {gs : List Formal}
        (more : (∀ f ∈ gs, isFormal G true f) ∧ (G.clean → ∀ f ∈ gs, positional f = .keeps)) :
        (∀ f ∈ g :: gs, isFormal G true f) ∧ (G.clean → ∀ f ∈ g :: gs, positional f = .keeps) := by
      simp only [List.forall_mem_cons]
      exact ⟨⟨ofG, more.1⟩, fun clean => ⟨named clean, more.2 clean⟩⟩
    rw [namePositional]
    split
    · rename_i keeps
      exact .bind (ih ((everySome f.type).mpr ofF.1.2.1) ofRest) fun gs more =>
        .pure (onward ofF (fun _ => keeps) more)
    · refine .bind (.fault (.brokenAt _ _)) fun _ dirty => ?_
      exact .bind (ih ofNext ofRest) fun gs more => .pure (onward ofF (fun clean => absurd clean dirty) more)
    · rename_i name named
      split
      · rename_i type
        have ofName : G.built.name name := by
          rw [positional] at named
          split at named <;> cases named
          rename_i same
          have whole := ofF.1.2.1
          rw [same] at whole
          exact (Ty.everyNamed.mp whole).2.1
        refine .bind (ih ofNext ofRest) fun gs more => .pure (onward ?_ (fun _ => rfl) more)
        exact ⟨⟨(everySome name).mpr ofName, (everySome type).mp ofNext, ofF.1.2.2.1, ofF.1.2.2.2⟩, ofF.2⟩
      · refine .bind (.fault (.brokenAt _ _)) fun _ dirty => .pure ?_
        exact ⟨ok, fun clean => absurd clean dirty⟩

theorem buildsNameFormals {fs : List Formal} (ok : ∀ f ∈ fs, isFormal G true f) :
    Yields G n sort (fun fs => (∀ f ∈ fs, isFormal G true f) ∧
      (G.clean → (∀ f ∈ fs, f.name = none) ∨ ∀ f ∈ fs, positional f = .keeps)) (nameFormals fs) := by
  rw [nameFormals]
  split
  · rename_i unnamed
    exact .pure ⟨ok, fun _ => .inl (by simpa using unnamed)⟩
  · refine .bind (buildsNamePositional everyNone (by simpa using ok)) fun gs ⟨ofGs, keeps⟩ => .pure ?_
    exact ⟨by simpa using ofGs, fun clean => .inr (by simpa using keeps clean)⟩

theorem buildsFunctionResult {fs : List Formal} :
    Yields G n sort (fun r => (∀ f ∈ r, isFormal G false f) ∧ (G.clean → r ≠ none)) (functionResult fs) := by
  refine .ifEats (by decide) ?_ (.ifEats (by decide) ?_ ?_)
  · refine .any fun _ => ?_
    refine .bind buildsFunctionFormal fun f ok => ?_
    refine .any fun _ => .pure ⟨?_, fun _ => nofun⟩
    rintro _ ⟨⟩
    exact ok
  · refine .bind buildsType fun type ok => .pure ⟨?_, fun _ => nofun⟩
    rintro _ ⟨⟩
    exact ⟨⟨everyNone, ok, everyNone, everyNil⟩, rfl, rfl⟩
  · have missing : Yields G n (fun x => (sort x ∧ x ≠ .kwReturns) ∧ x ≠ .colon) (fun _ => ¬ G.clean)
        (resultMissing fs) := by
      refine .look fun isEnd => ?_
      split
      · split
        · exact .fault (.brokenAt _ _)
        · exact .fault (.syntaxError _)
      · exact .fault (.syntaxError _)
    exact .bind missing fun _ dirty => .pure ⟨nofun, fun clean => absurd clean dirty⟩

theorem buildsFunctionBody : Builds G n sort functionBody := by
  refine .ifEats (by decide) ?_ (.ifEats (by decide) (.pure everyNone) ?_)
  · refine .bind buildsExpression fun body ok => ?_
    exact .any fun _ => .pure ((everySome body).mpr ok)
  · exact .any fun _ => .pure everyNone

theorem definitionAxiomBuilt {f : Function} {body : Expr} (ofF : every G.built f)
    (ofBody : every G.built body) : every G.built (Decl.axiomatic (definitionAxiom f body)) := by
  obtain ⟨ofName, ofParams, ofFormals, ⟨_, ofType, _, _⟩, _, ofFound⟩ := ofF
  refine ⟨⟨trivial, trivial, fun _ => trivial⟩, ?_⟩
  let vars : List Variable := f.formals.zipIdx.map boundFormal
  have ofVars : areBuilt G .boundVariables vars := by
    refine ⟨fun v mem => ?_, fun _ v mem => ?_⟩
    · obtain ⟨⟨formal, i⟩, inside, rfl⟩ := List.mem_map.mp mem
      obtain ⟨named, typed, _⟩ := ofFormals formal (List.fst_mem_of_mem_zipIdx inside)
      refine Variable.everyMk.mpr ⟨?_, typed, everyNone, everyNil⟩
      cases h : formal.name with
      | none => exact fun _ => .place i
      | some n => exact named n h
    · obtain ⟨⟨formal, i⟩, _, rfl⟩ := List.mem_map.mp mem
      rfl
  have ofArgs : every G.built (vars.map fun v => Expr.name v.span v.name) := by
    refine everyMap ofVars.1 fun v ok => ?_
    obtain ⟨n, _, _, _, span⟩ := v
    exact Expr.everyName.mpr ⟨⟨trivial, trivial, fun _ => trivial⟩, (Variable.everyMk.mp ok).1⟩
  have ofResult {span : Span} : every G.built (Expr.apply span (.coerce f.result.type)
      [.apply span (.call f.name) (vars.map fun v => Expr.name v.span v.name)]) :=
    coerceBuilt ofType (callBuilt ofName ofArgs)
  have ofEquation {span : Span} : every G.built (Expr.binary .equal (Expr.apply span (.coerce f.result.type)
      [.apply span (.call f.name) (vars.map fun v => Expr.name v.span v.name)]) body) :=
    binaryBuilt ofResult ofBody
  rw [definitionAxiom]
  split
  · exact ⟨ofEquation, ofFound⟩
  · rename_i more
    have some : f.params ≠ [] ∨ vars ≠ [] := by
      rw [← not_and_or, And.comm]
      simpa [vars] using more
    refine ⟨Expr.everyBind.mpr ⟨⟨⟨some, nofun⟩, ofVars.2 rfl, fun _ => trivial⟩, ofParams, ofVars.1, ofFound,
      ?_, ofEquation⟩, everyNil⟩
    exact (everyCons _ _).mpr ⟨Trigger.everyMk.mpr ⟨nofun, (everyCons _ _).mpr ⟨ofResult, everyNil⟩⟩, everyNil⟩

theorem functionDeclsBuilt {f : Function} {body : Option Expr} (ofF : every G.built f)
    (fixed : declFixed (.function f)) (read : G.clean → declRead (.function f)) (none : f.body = none)
    (ofBody : every G.built body) : every G.built (functionDecls f body) := by
  cases body with
  | none =>
    refine (everyCons _ _).mpr ⟨⟨⟨fun some => absurd none some, fixed, read⟩, ofF⟩, everyNil⟩
  | some body =>
    have ofBody := (everySome body).mp ofBody
    rw [functionDecls]
    split
    · rename_i inline
      obtain ⟨ofName, ofParams, ofFormals, ofResult, _, ofFound⟩ := ofF
      refine (everyCons _ _).mpr ⟨⟨⟨fun _ => inline, fixed, read⟩, ?_⟩, everyNil⟩
      exact ⟨ofName, ofParams, ofFormals, ofResult, (everySome body).mpr ofBody, ofFound⟩
    · refine (everyCons _ _).mpr ⟨⟨⟨fun some => absurd none some, fixed, read⟩, ofF⟩, ?_⟩
      exact (everyCons _ _).mpr ⟨definitionAxiomBuilt ofF ofBody, everyNil⟩

theorem buildsFunction : Builds G n sort function := by
  refine .any fun t => ?_
  refine .bind (buildsAttributes buildsExpression) fun found ofFound => ?_
  refine .bind buildsIdent fun name ofName => ?_
  refine .bind buildsOptionalTypeParams fun params ofParams => ?_
  refine .bind buildsFunctionFormals fun formals ofFormals => ?_
  refine .bind buildsFunctionResult fun result ⟨ofResult, given⟩ => ?_
  refine .bind buildsFunctionBody fun body ofBody => ?_
  refine .any fun last => ?_
  refine .bind (buildsNameFormals ofFormals) fun formals ⟨ofFormals, read⟩ => ?_
  have ofResult : isFormal G false
      (result.getD ⟨none, .placeholder last, none, false, [], last⟩) := by
    cases result with
    | some r => exact ofResult r rfl
    | none =>
      refine ⟨⟨everyNone, ?_, everyNone, everyNil⟩, rfl, rfl⟩
      exact ⟨trivial, trivial, fun clean => absurd rfl (given clean)⟩
  refine .any fun span => .pure (functionDeclsBuilt ?_ ?_ read rfl ofBody)
  · exact ⟨ofName, ofParams, fun f mem => (ofFormals f mem).1, ofResult.1, everyNone, ofFound⟩
  · exact ⟨ofResult.2.1, ofResult.2.2, fun f mem => (ofFormals f mem).2⟩

theorem declBuilt {d : Decl} (shaped : d.isShaped) (fixed : declFixed d) (read : declRead d)
    (ok : d.passes G.built) : every G.built d := ⟨⟨shaped, fixed, fun _ => read⟩, ok⟩

theorem buildsAxiomDecl : Builds G n sort axiomDecl := by
  refine .any fun t => ?_
  refine .bind (buildsAttributes buildsExpression) fun found ofFound => ?_
  refine .bind buildsExpression fun e ofE => ?_
  refine .any fun _ => .any fun span => .pure ((everyCons _ _).mpr ⟨?_, everyNil⟩)
  exact declBuilt trivial trivial trivial ⟨ofE, ofFound⟩

theorem buildsTypeDecl {found : List Attribute} (ofFound : every G.built found) :
    Builds G n sort (typeDecl found) := by
  refine .bind buildsIdent fun name ofName => ?_
  refine .bind (P := every G.built) (.manyNext buildsIdent) fun params ofParams => ?_
  refine .ifEats (by decide) ?_ ?_
  · refine .bind buildsType fun body ofBody => ?_
    exact .any fun span => .pure (declBuilt trivial trivial trivial ⟨ofName, ofParams, ofBody, ofFound⟩)
  · exact .any fun span => .pure (declBuilt trivial trivial trivial ⟨ofName, ofFound⟩)

theorem buildsTypeDecls : Builds G n sort typeDecls := by
  refine .any fun _ => ?_
  refine .bind (buildsAttributes buildsExpression) fun found ofFound => ?_
  refine .bind (buildsCommaSeparated (buildsTypeDecl ofFound)) fun decls ⟨_, ok⟩ => ?_
  exact .any fun _ => .pure ok

theorem buildsGlobals : Builds G n sort globals := by
  refine .bind (buildsVariableDecl buildsExpression) fun vars ok => .pure (everyMap ok fun v ofV => ?_)
  exact declBuilt trivial trivial trivial ofV

def isTyped (G : Scope) (role : GroupRole) (incoming : Bool) (f : Formal) : Prop :=
  every G.built f ∧ f.name ≠ none ∧ f.incoming = incoming ∧
    (role.allowsWhere = false → f.whereClause = none)

structure Signature.IsBuilt (G : Scope) (role : GroupRole) (sig : Signature) : Prop where
  name : G.built.name sig.name
  params : every G.built sig.params
  ins : ∀ f ∈ sig.ins, isTyped G role true f
  outs : ∀ f ∈ sig.outs, isTyped G role false f
  attributes : every G.built sig.attributes

theorem buildsFormals {role : GroupRole} {incoming : Bool} :
    Yields G n sort (fun fs => ∀ f ∈ fs, isTyped G role incoming f) (formals role incoming) := by
  have groups : Yields G n anywhere (areBuilt G role)
      (ifNext (checkAny groupStart) (attributedGroups expression role) (pure [])) :=
    .ifNext (buildsAttributedGroups buildsExpression) (.pure ⟨everyNil, fun _ => List.forall_mem_nil _⟩)
  refine .any fun _ => ?_
  refine .bind groups fun vars ⟨ok, plain⟩ => ?_
  refine .any fun _ => .pure fun f mem => ?_
  obtain ⟨⟨n, type, whereClause, as, span⟩, inside, rfl⟩ := List.mem_map.mp mem
  obtain ⟨ofName, ofType, ofWhere, ofAs⟩ := Variable.everyMk.mp (ok _ inside)
  exact ⟨⟨(everySome n).mpr ofName, ofType, ofWhere, ofAs⟩, nofun, rfl, fun no => plain no _ inside⟩

theorem buildsSignature {role : GroupRole} :
    Yields G n sort (Signature.IsBuilt G role) (signature role) := by
  refine .bind (buildsAttributes buildsExpression) fun found ofFound => ?_
  refine .bind buildsIdent fun name ofName => ?_
  refine .bind buildsOptionalTypeParams fun params ofParams => ?_
  refine .bind buildsFormals fun ins ofIns => ?_
  have outs : Yields G n anywhere (fun fs => ∀ f ∈ fs, isTyped G role false f)
      (ifNext (eat .kwReturns) (formals role false) (pure [])) :=
    .ifEats (by decide) buildsFormals (.pure nofun)
  exact .bind outs fun outs ofOuts => .pure ⟨ofName, ofParams, ofIns, ofOuts, ofFound⟩

theorem buildsClause {start : Span} {free : Bool} : Builds G n sort (clause start free) := by
  refine .any fun _ => ?_
  refine .bind (buildsAttributes buildsExpression) fun found ofFound => ?_
  refine .bind buildsExpression fun e ofE => ?_
  exact .any fun _ => .any fun span => .pure ⟨ofE, ofFound⟩

theorem buildsSpec : Builds G n sort spec := by
  have vars : Builds G n anywhere (ifNext (check .identifier) idents (pure [])) :=
    .ifNext (buildsIdents.weaken fun _ h => h.2) (.pure everyNil)
  refine .any fun start => ?_
  refine .ifEats (by decide) ?_ ?_
  · refine .bind vars fun vars ok => ?_
    exact .any fun _ => .pure ok
  · refine .any fun free => .any fun k => ?_
    split
    · exact .bind buildsClause fun x ok => .pure ok
    · exact .bind buildsClause fun x ok => .pure ok
    · exact .any fun _ => .pure trivial

theorem buildsSpecs : Builds G n sort specs := .manyNext buildsSpec

theorem buildsImplementationBody : Builds G n sort implementationBody := by
  refine .any fun _ => ?_
  refine .bind (buildsLocalVariables buildsExpression) fun locals ofLocals => ?_
  exact .bind buildsStmtList fun stmts ok => .pure ⟨ofLocals, ok⟩

theorem buildsContractAndBody : Builds G n sort contractAndBody := by
  refine .ifEats (by decide) ?_ (.ifNext ?_ ?_)
  · exact .bind buildsSpecs fun specs ok => .pure ⟨ok, everyNone⟩
  · refine .bind buildsSpecs fun specs ok => ?_
    exact .bind buildsImplementationBody fun body ofBody => .pure ⟨ok, (everySome body).mpr ofBody⟩
  · exact .any fun _ => .pure ⟨everyNil, everyNone⟩

theorem withoutWhereBuilt {role : GroupRole} {incoming : Bool} {fs : List Formal}
    (ok : ∀ f ∈ fs, isTyped G role incoming f) :
    ∀ f ∈ withoutWhere fs, isTyped G .implementationFormals incoming f := by
  intro f mem
  obtain ⟨g, inside, rfl⟩ := List.mem_map.mp mem
  obtain ⟨⟨ofName, ofType, _, ofAs⟩, named, same, _⟩ := ok g inside
  exact ⟨⟨ofName, ofType, everyNone, ofAs⟩, named, same, fun _ => rfl⟩

theorem implementationBuilt {name : String} {params : List Ident} {ins outs : List Formal}
    {locals : List Variable} {body : StmtList} {found : List Attribute} {span : Span}
    (ofName : G.built.name name) (ofParams : every G.built params)
    (ofIns : ∀ f ∈ ins, isTyped G .implementationFormals true f)
    (ofOuts : ∀ f ∈ outs, isTyped G .implementationFormals false f)
    (ofLocals : every G.built locals) (ofBody : every G.built body) (ofFound : every G.built found) :
    every G.built (Decl.implementation ⟨name, params, ins, outs, locals, body, found, span⟩) := by
  refine declBuilt ?_ ⟨fun f mem => (ofIns f mem).2.2.1, fun f mem => (ofOuts f mem).2.2.1⟩ trivial ?_
  · intro f mem
    rcases List.mem_append.mp mem with inside | inside
    · exact ⟨(ofIns f inside).2.1, (ofIns f inside).2.2.2 rfl⟩
    · exact ⟨(ofOuts f inside).2.1, (ofOuts f inside).2.2.2 rfl⟩
  · exact ⟨ofName, ofParams, fun f mem => (ofIns f mem).1, fun f mem => (ofOuts f mem).1, ofLocals,
      ofBody, ofFound⟩

theorem procedureDeclsBuilt {sig : Signature} {span : Span} {contract : List Spec}
    {body : Option (List Variable × StmtList)} (ofSig : sig.IsBuilt G .procedureFormals)
    (ofContract : every G.built contract) (ofBody : every G.built body) :
    every G.built (procedureDecls sig span contract body) := by
  have head : every G.built (Decl.procedure
      ⟨sig.name, sig.params, sig.ins, sig.outs, contract.filterMap Spec.requires?,
        contract.flatMap Spec.modified, contract.filterMap Spec.ensures?, sig.attributes, span⟩) := by
    refine declBuilt ?_ ⟨fun f mem => (ofSig.ins f mem).2.2.1, fun f mem => (ofSig.outs f mem).2.2.1⟩
      trivial ?_
    · intro f mem
      rcases List.mem_append.mp mem with inside | inside
      · exact (ofSig.ins f inside).2.1
      · exact (ofSig.outs f inside).2.1
    · refine ⟨ofSig.name, ofSig.params, fun f mem => (ofSig.ins f mem).1, fun f mem => (ofSig.outs f mem).1,
        ?_, ?_, ?_, ofSig.attributes⟩
      · refine everyFilterMap ofContract fun s x same ok => ?_
        cases s <;> cases same
        exact ok
      · intro id mem
        obtain ⟨s, inside, found⟩ := List.mem_flatMap.mp mem
        have ok := ofContract s inside
        cases s with
        | modifies vars => exact ok id found
        | _ => exact absurd found (by simp [Spec.modified])
      · refine everyFilterMap ofContract fun s x same ok => ?_
        cases s <;> cases same
        exact ok
  cases body with
  | none => exact (everyCons _ _).mpr ⟨head, everyNil⟩
  | some body =>
    obtain ⟨ofLocals, ofStmts⟩ := (everySome body).mp ofBody
    refine (everyCons _ _).mpr ⟨head, (everyCons _ _).mpr ⟨?_, everyNil⟩⟩
    exact implementationBuilt ofSig.name ofSig.params (withoutWhereBuilt ofSig.ins)
      (withoutWhereBuilt ofSig.outs) ofLocals ofStmts ofSig.attributes

theorem buildsProcedure : Builds G n sort procedure := by
  refine .any fun t => ?_
  refine .bind buildsSignature fun sig ofSig => ?_
  refine .bind buildsContractAndBody fun (contract, body) ⟨ofContract, ofBody⟩ => ?_
  exact .any fun span => .pure (procedureDeclsBuilt ofSig ofContract ofBody)

theorem buildsImplementation : Builds G n sort implementation := by
  refine .any fun t => ?_
  refine .bind buildsSignature fun sig ofSig => ?_
  refine .bind buildsImplementationBody fun (locals, stmts) ⟨ofLocals, ofStmts⟩ => ?_
  refine .any fun span => .pure ((everyCons _ _).mpr ⟨?_, everyNil⟩)
  exact implementationBuilt ofSig.name ofSig.params ofSig.ins ofSig.outs ofLocals ofStmts ofSig.attributes

theorem buildsDecl : Builds G n sort decl := by
  refine .any fun k => ?_
  split
  · exact buildsConstants
  · exact buildsFunction
  · exact buildsAxiomDecl
  · exact buildsTypeDecls
  · exact buildsGlobals
  · exact buildsProcedure
  · exact buildsImplementation
  · exact .any fun _ => .any fun _ => .pure everyNil

theorem buildsProgram : Builds G n sort program :=
  .bind (.manyLook buildsDecl) fun _ ok => .pure (everyFlatten ok)

end Declarations

theorem programBuilt (tokens : TokenList) (text : List Char) (log : Log)
    (closed : tokens.finish.kind = .endOfText) (clean : Prop)
    (unmarked : clean → (program.run (.start tokens text log)).2.mistakes = 0) :
    every (Scope.built ⟨tokens.terminals, clean⟩) (program.run (.start tokens text log)).1 := by
  let s : State := .start tokens text log
  have builds : Builds ⟨tokens.terminals, clean⟩ (s.left + 1) anywhere program := buildsProgram
  exact builds s ⟨closed, fun _ mem => mem⟩ (Nat.lt_succ_self _) trivial unmarked

end Boogie.Grammar
