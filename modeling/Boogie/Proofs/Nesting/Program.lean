import Boogie.Proofs.Nesting.Stmt

/-! Where the expressions stand that declarations hold. -/
namespace Boogie.Grammar

open Token (Kind)

variable {row : TokenRow} {n : Nat} {sort : Kind → Prop} {kept : List Expr}

theorem housesFound : Houses row n sort [] (attributes expression) := housesAttributes housesExpression

theorem housesConstants : Houses row n sort [] constants := by
  refine .skip fun t => .bind housesFound fun found => .skip fun unique => .skip fun names => .skip fun _ => ?_
  exact .skip fun type => .skip fun (parents, complete) => .skip fun _ => .pure (outermostAll fun id => by simp)

theorem housesAxiom : Houses row n sort [] axiomDecl := by
  refine .skip fun t => .bind housesFound fun found => .bind housesExpression fun e => .skip fun _ => ?_
  exact .skip fun span => .pure (by simp)

theorem housesTypeDecl {found : List Attribute} : Houses row n sort (outermost found) (typeDecl found) := by
  refine .skip fun name => .skip fun params => .ifEats ?_ (.skip fun span => .pure (by simp))
  exact .skip fun body => .skip fun span => .pure (by simp)

theorem housesTypeDecls : Houses row n sort [] typeDecls := by
  refine .skip fun t => .bind housesFound fun found => .carry (.commaSeparated housesTypeDecl) fun decls => ?_
  exact .skip fun _ => .pure (List.subset_append_right _ _)

theorem housesGlobals : Houses row n sort [] globals :=
  .last (housesVariableDecl housesExpression) fun vars => by rw [outermostMap Decl.outermostGlobal]; simp

theorem housesFormal {incoming : Bool} : Houses row n sort [] (functionFormal incoming) := by
  refine .bind housesFound fun found => .look fun start => .skip fun first => .ifEats ?_ ?_
  · exact .skip fun _ => .skip fun second => .skip fun span => .pure (by simp)
  · exact .skip fun span => .pure (by simp)

theorem housesFormals : Houses row n sort [] functionFormals := by
  refine .skip fun _ => .bind (.ifNext (.commaSeparated housesFormal) (.pure (List.nil_subset _))) fun formals => ?_
  exact .skip fun _ => .pure (by simp)

theorem housesResult {formals : List Formal} : Houses row n sort [] (functionResult formals) := by
  refine .ifEats (.skip fun _ => .bind housesFormal fun result => .skip fun _ => .pure (by simp)) ?_
  exact .ifEats (.skip fun type => .pure (by simp)) (.skip fun _ => .pure (List.nil_subset _))

theorem housesFunctionBody : Houses row n sort [] functionBody := by
  refine .ifEats (.bind housesExpression fun body => .skip fun _ => .pure (by simp)) ?_
  exact .ifEats (.pure (List.nil_subset _)) (.fault (.syntaxError _))

theorem housesPositional {next : Option Ty} {formals : List Formal} :
    Houses row n sort (outermost formals) (namePositional next formals) := by
  induction formals generalizing next sort with
  | nil => exact .pure (List.Subset.refl _)
  | cons f rest ih =>
    have behind (g : Formal) (same : outermost g = outermost f) :
        ∀ {next}, Houses row n sort (outermost (f :: rest)) (do return g :: (← namePositional next rest)) := by
      intro next
      refine .carry (ih.more (by simp)) fun named => .pure ?_
      rw [outermostCons, outermostCons, same]
      exact List.append_subset.mpr ⟨by simp, List.subset_append_right _ _⟩
    rw [namePositional]
    split
    · exact behind f rfl
    · exact .fault (.brokenAt _ _)
    · split
      · exact behind _ rfl
      · exact .fault (.brokenAt _ _)

theorem housesNamed {formals : List Formal} : Houses row n sort (outermost formals) (nameFormals formals) := by
  unfold nameFormals
  split
  · exact .pure (List.Subset.refl _)
  · refine .carry (housesPositional.more fun e mem => memReverse.mp mem) fun named => .pure fun e mem => ?_
    exact List.mem_append_right _ (memReverse.mp mem)

instance : Outermost Signature := ⟨fun s => outermost s.attributes ++ outermost s.ins ++ outermost s.outs⟩

@[simp] theorem outermostSignature (name params ins outs as) :
    outermost (⟨name, params, ins, outs, as⟩ : Signature) = outermost as ++ outermost ins ++ outermost outs := rfl

instance : Outermost Spec where
  outermost
    | .requires clause => outermost clause
    | .ensures clause => outermost clause
    | _ => []

@[simp] theorem outermostRequires (clause : Clause) : outermost (Spec.requires clause) = outermost clause := rfl

@[simp] theorem outermostEnsures (clause : Clause) : outermost (Spec.ensures clause) = outermost clause := rfl

@[simp] theorem outermostModifies (vars : List Ident) : outermost (Spec.modifies vars) = [] := rfl

@[simp] theorem outermostNoSpec : outermost Spec.mistake = [] := rfl

theorem housesGroups {role : GroupRole} {incoming : Bool} : Houses row n sort [] (formals role incoming) := by
  have groups : Houses row n anywhere []
      (ifNext (checkAny groupStart) (attributedGroups expression role) (pure [])) :=
    .ifNext (housesAttributedGroups housesExpression) (.pure (List.nil_subset _))
  refine .skip fun _ => .bind groups fun vars => .skip fun _ => .pure ?_
  rw [outermostMap (f := formalOf incoming) fun v => rfl]
  exact List.subset_append_right _ _

theorem housesSignature {role : GroupRole} : Houses row n sort [] (signature role) := by
  refine .bind housesFound fun found => .skip fun name => .skip fun params => .bind housesGroups fun ins => ?_
  exact .bind (.ifEats housesGroups (.pure (List.nil_subset _))) fun outs => .pure (by simp)

theorem housesClause {start : Span} {free : Bool} : Houses row n sort [] (clause start free) := by
  refine .skip fun t => .bind housesFound fun found => .bind housesExpression fun e => .skip fun _ => ?_
  exact .skip fun span => .pure (by simp)

theorem housesSpec : Houses row n sort [] spec := by
  refine .look fun start => .ifEats ?_ (.skip fun free => .byKind fun x _ => ?_)
  · exact .skip fun vars => .skip fun _ => .pure (List.nil_subset _)
  · split
    · exact .last housesClause fun clause => by simp
    · exact .last housesClause fun clause => by simp
    · exact .fault (.syntaxError _)

theorem housesImplementationBody : Houses row n sort [] implementationBody :=
  .skip fun _ => .bind (housesLocalVariables housesExpression) fun locals => .last housesStmtList fun body => by simp

theorem housesContract : Houses row n sort [] contractAndBody := by
  have specs {sort : Kind → Prop} : Houses row n sort [] specs := .manyNext housesSpec.always
  refine .ifEats (.last specs fun contract => by simp) (.ifNext ?_ (.fault (.syntaxError _)))
  exact .bind specs fun contract => .last housesImplementationBody fun body => by simp

theorem outermostWithoutWhere (formals : List Formal) : outermost (withoutWhere formals) ⊆ outermost formals := by
  intro e mem
  obtain ⟨g, ofGs, ofG⟩ := memOutermost.mp mem
  obtain ⟨f, ofFs, rfl⟩ := List.mem_map.mp ofGs
  exact memOutermost.mpr ⟨f, ofFs, List.mem_append_right _ ofG⟩

theorem outermostProcedureDecls (sig : Signature) (span : Span) (contract : List Spec)
    (body : Option (List Variable × StmtList)) :
    outermost (procedureDecls sig span contract body) ⊆ outermost sig ++ (outermost contract ++ outermost body) := by
  obtain ⟨name, params, ins, outs, found⟩ := sig
  have requires : outermost (contract.filterMap Spec.requires?) ⊆ outermost contract :=
    outermostPicked (fun s => by cases s <;> simp [Spec.requires?]) contract
  have ensures : outermost (contract.filterMap Spec.ensures?) ⊆ outermost contract :=
    outermostPicked (fun s => by cases s <;> simp [Spec.ensures?]) contract
  have ofIns := outermostWithoutWhere ins
  have ofOuts := outermostWithoutWhere outs
  intro e
  cases body with
  | none =>
    simp only [procedureDecls, outermostCons, outermostNil, outermostNone, Decl.outermostProcedure,
      Procedure.outermostMk, outermostSignature, List.mem_append]
    grind
  | some body =>
    obtain ⟨locals, stmts⟩ := body
    simp only [procedureDecls, outermostCons, outermostNil, outermostSome, outermostPair, Decl.outermostProcedure,
      Procedure.outermostMk, Decl.outermostImplementation, Implementation.outermostMk, outermostSignature,
      List.mem_append]
    grind

theorem housesProcedure : Houses row n sort [] procedure := by
  refine .skip fun t => .bind housesSignature fun sig => .bind housesContract fun (contract, body) => ?_
  exact .skip fun span => .pure (by simpa using outermostProcedureDecls sig span contract body)

theorem housesImplementation : Houses row n sort [] implementation := by
  refine .skip fun t => .bind housesSignature fun sig => .bind housesImplementationBody fun (locals, body) => ?_
  obtain ⟨name, params, ins, outs, found⟩ := sig
  exact .skip fun span => .pure (by simp)

/-- The expressions of declarations that are written in the source: all but what a definition axiom is made of besides
the body of its function. -/
inductive Written (P : Expr → Prop) : List Decl → Prop
  | nil : Written P []
  | function {f : Function} {body : Option Expr} {ds} (ofFunction : ∀ e ∈ outermost f, P e)
      (ofBody : ∀ e ∈ outermost body, P e) (more : Written P ds) : Written P (functionDecls f body ++ ds)
  | other {d ds} (held : ∀ e ∈ outermost d, P e) (more : Written P ds) : Written P (d :: ds)

namespace Written

variable {P : Expr → Prop} {ds ds' : List Decl}

theorem all (held : ∀ e ∈ outermost ds, P e) : Written P ds := by
  induction ds with
  | nil => exact .nil
  | cons d rest ih =>
    rw [outermostCons, List.forall_mem_append] at held
    exact .other held.1 (ih held.2)

theorem made {f : Function} {body : Option Expr} (ofFunction : ∀ e ∈ outermost f, P e)
    (ofBody : ∀ e ∈ outermost body, P e) : Written P (functionDecls f body) := by
  have whole := function ofFunction ofBody .nil
  rwa [List.append_nil] at whole

theorem append (first : Written P ds) (last : Written P ds') : Written P (ds ++ ds') := by
  induction first with
  | nil => exact last
  | function ofFunction ofBody _ ih =>
    rw [List.append_assoc]
    exact .function ofFunction ofBody ih
  | other held _ ih => exact .other held ih

theorem ofAxiom {a : Axiom} (written : Written P [.axiomatic a]) : ∀ e ∈ outermost a, P e := by
  generalize same : [Decl.axiomatic a] = ds at written
  cases written with
  | nil => cases same
  | @function f body ds =>
    have first : ∃ g rest, functionDecls f body = .function g :: rest := by
      unfold functionDecls
      split
      · exact ⟨_, _, rfl⟩
      · split <;> exact ⟨_, _, rfl⟩
    obtain ⟨g, rest, made⟩ := first
    rw [made] at same
    cases same
  | other held =>
    cases same
    exact held

end Written

variable {i : Nat}

theorem laysWritten {m : Production (List Decl)} (h : Houses row n sort [] m) :
    Lays row i n sort (fun _ ds => Written (Nests row.tokens row.size) ds) m :=
  h.between.weaken fun _ _ _ found => .all fun e mem => (found e mem).nests

theorem laysFunction : Lays row i n sort (fun _ ds => Written (Nests row.tokens row.size) ds) function := by
  refine .skip fun _ t _ => .bind housesFound.between fun _ found _ ofFound => .skip fun _ name _ => ?_
  refine .skip fun _ params _ => .bind housesFormals.between fun _ formals _ ofFormals => ?_
  refine .bind housesResult.between fun _ result _ ofResult => ?_
  refine .bind housesFunctionBody.between fun _ body _ ofBody => ?_
  refine .look fun last => .bind (housesNamed _) fun _ named _ ofNamed => .skip fun _ span _ => .pure ?_
  refine .made (fun e mem => ?_) fun e mem => (ofBody e mem).nests
  simp only [Function.outermostMk, List.mem_append, outermostNone, List.not_mem_nil, or_false] at mem
  rcases mem with (mem | mem) | mem
  · exact (ofFound e mem).nests
  · exact (ofNamed e mem).elim (fun known => (ofFormals e known).nests) Laid.nests
  · cases result with
    | none => exact absurd mem List.not_mem_nil
    | some result => exact (ofResult e mem).nests

theorem laysDecl : Lays row i n sort (fun _ ds => Written (Nests row.tokens row.size) ds) decl := by
  refine .byKind fun x _ => ?_
  split
  · exact laysWritten housesConstants
  · exact laysFunction
  · exact laysWritten housesAxiom
  · exact laysWritten housesTypeDecls
  · exact laysWritten housesGlobals
  · exact laysWritten housesProcedure
  · exact laysWritten housesImplementation
  · exact .fault (.syntaxError _)

theorem laysProgram : Lays row i n sort (fun _ p => Written (Nests row.tokens row.size) p.decls) program := by
  have groups : Lays row i n sort (fun _ found => Written (Nests row.tokens row.size) found.flatten)
      (many more decl) := by
    refine .bind (T := fun _ found => Written (Nests row.tokens row.size) found.reverse.flatten) ?_ ?_
    · refine .whileLook (fun _ found _ written => .bind laysDecl fun _ ds _ ofDecl => .pure ?_) .nil
      rw [List.reverse_cons, List.flatten_append, List.flatten_singleton]
      exact written.append ofDecl
    · exact fun _ found _ written => .pure written
  exact .bind groups fun _ found _ written => .pure written

end Boogie.Grammar
