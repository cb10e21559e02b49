import Boogie.Proofs.Extract.Stmt

/-! Bit ranges in declarations. -/
namespace Boogie.Grammar

open Token (Kind Word)

variable {n : Nat} {sort : Kind → Prop} {kept : Multiset (Nat × Nat)}

theorem tellsFound : Tells n sort 0 (attributes expression) := tellsAttributes tellsExpression

theorem tellsExtension : Tells n sort 0 extension := by
  have one : Tells n anywhere 0 parent := .eatAny (by decide) fun unique => .ident fun id => .pure le_rfl
  have more {sort : Kind → Prop} : Tells n sort 0 parents := .ifNext (.commaSeparated one.always) (.pure le_rfl)
  exact .ifEats (by decide) (.bind more fun parents => .eatAny (by decide) fun b => .pure (by simp)) (.pure le_rfl)

theorem tellsConstants : Tells n (· = .kwConst) 0 constants := by
  refine .word (by decide) fun t => .bind tellsFound fun found => .eatAny (by decide) fun unique => ?_
  refine .idents fun names some => .expectType fun type => .bind tellsExtension fun (parents, complete) => ?_
  exact .expect (by decide) (.pure (heldByAll some fun id => by simp))

theorem tellsFormal {incoming : Bool} : Tells n sort 0 (functionFormal incoming) := by
  refine .bind tellsFound fun found => .look fun start => .type fun first => ?_
  refine Finds.eat (by decide) (fun colon => ?_) (Tells.spanFrom fun span => .pure (by simp)) (Nat.le_succ n)
  exact .given (.broken _) fun _ => Tells.colonType fun second => .spanFrom fun span => .pure (by simp)

theorem tellsFormals : Tells n sort 0 functionFormals := by
  refine .expect (by decide) (.bind (.ifNext (.commaSeparated tellsFormal) (.pure le_rfl)) fun formals => ?_)
  exact .expect (by decide) (.pure (by simp))

theorem resultMissingFaults (formals : List Formal) : Faults (resultMissing formals) := by
  have invalid : Faults (syntaxError (.invalid "Function")) := .syntaxError _
  have either (span : Span) (known : Bool) :
      Faults (if known then brokenAt span .lastParameterType else syntaxError (.invalid "Function")) := by
    cases known with
    | true => exact .brokenAt _ _
    | false => exact invalid
  intro s
  unfold resultMissing
  cases formals.getLast? with
  | none => exact invalid s
  | some last => exact either last.span (s.kind == .semicolon && formals.all fun f => f.name.isNone) s

theorem tellsResult {formals : List Formal} : Tells n sort 0 (functionResult formals) := by
  refine .ifEats (by decide) ?_ ?_
  · exact .expect (by decide) (.bind tellsFormal fun result => .expect (by decide) (.pure (by simp)))
  · refine Finds.eat (by decide) (fun colon => Tells.colonType fun type => .pure (by simp)) ?_ (Nat.le_succ n)
    exact .fault (resultMissingFaults formals)

theorem tellsFunctionBody : Tells n sort 0 functionBody := by
  refine .ifEats (by decide) ?_ (.ifEats (by decide) (.pure le_rfl) (.fault (.syntaxError _)))
  exact .bind tellsExpression fun body => .expect (by decide) (.pure (by simp))

theorem findsPositional {next : Option Ty} {formals : List Formal} :
    Finds anywhere n sort (fun ws named => ws = [] ∧ extracts named = extracts formals)
      (namePositional next formals) := by
  induction formals generalizing next sort with
  | nil => exact .pure ⟨rfl, rfl⟩
  | cons f rest ih =>
    have behind (g : Formal) (same : extracts g = extracts f) {ws : List Word} {named : List Formal}
        (found : ws = [] ∧ extracts named = extracts rest) :
        ws = [] ∧ extracts (g :: named) = extracts (f :: rest) :=
      ⟨found.1, by rw [extractsCons, extractsCons, same, found.2]⟩
    rw [namePositional]
    split
    · exact .commute ih fun ws named => behind f rfl
    · exact .fault (.brokenAt _ _)
    · split
      · exact .commute ih fun ws named => behind _ rfl
      · exact .fault (.brokenAt _ _)

theorem findsNamed {formals : List Formal} :
    Finds anywhere n sort (fun ws named => ws = [] ∧ extracts named = extracts formals) (nameFormals formals) := by
  unfold nameFormals
  split
  · exact .pure ⟨rfl, rfl⟩
  · refine .commute findsPositional ?_
    rintro ws named ⟨unread, same⟩
    exact ⟨unread, by rw [extractsReverse, same, extractsReverse]⟩

theorem extractsDefinition (f : Function) (body : Expr) : extracts body ≤ extracts (definitionAxiom f body) := by
  rw [definitionAxiom]
  split
  · rw [Axiom.extractsMk, Expr.extractsBinary]
    exact (Multiset.le_add_left _ _).trans (Multiset.le_add_left _ _)
  · rw [Axiom.extractsMk, Expr.extractsBind, Expr.extractsBinary]
    exact (Multiset.le_add_left _ _).trans ((Multiset.le_add_left _ _).trans (Multiset.le_add_left _ _))

theorem extractsFunctionDecls {f : Function} (noBody : f.body = none) (body : Option Expr) :
    extracts f + extracts body ≤ extracts (functionDecls f body) := by
  obtain ⟨name, params, formals, result, _, found, span⟩ := f
  subst noBody
  unfold functionDecls
  split
  · simp
  · split
    · simp
    · rw [extractsCons, extractsCons, extractsNil, add_zero]
      exact add_le_add_right (extractsDefinition _ _) _

theorem tellsFunction : Tells n (· = .kwFunction) 0 function := by
  refine .word (by decide) fun t => .bind tellsFound fun found => .ident fun name => .optionalTypeParams fun params => ?_
  refine .bind tellsFormals fun formals => .bind tellsResult fun result => .bind tellsFunctionBody fun body => ?_
  refine .look fun last => Finds.bind findsNamed fun ws named ⟨unread, same⟩ => ?_
  subst unread
  refine Tells.spanFrom fun span => .pure (le_trans ?_ (extractsFunctionDecls rfl body))
  rw [Function.extractsMk, same, zero_add, extractsNone, add_zero]
  refine add_le_add_left (add_le_add_right ?_ _) _
  cases result <;> simp

theorem tellsAxiom : Tells n (· = .kwAxiom) 0 axiomDecl := by
  refine .word (by decide) fun t => .bind tellsFound fun found => .bind tellsExpression fun e => .expect (by decide) ?_
  exact .spanFrom fun span => .pure (by simp)

theorem tellsTypeDecl {found : List Attribute} : Tells n sort (extracts found) (typeDecl found) := by
  refine .ident fun name => .bind (.manyNext .name) fun params => .ifEats (by decide) ?_ ?_
  · exact .type fun body => .spanFrom fun span => .pure (by simp)
  · exact .spanFrom fun span => .pure (by simp)

theorem tellsTypeDecls : Tells n (· = .kwType) 0 typeDecls := by
  refine .word (by decide) fun t => .bind tellsFound fun found => ?_
  rw [zero_add]
  exact .carry (.commaSeparated tellsTypeDecl) fun decls => .expect (by decide) (.pure le_rfl)

theorem tellsGlobals : Tells n sort 0 globals := by
  refine .last (tellsVariableDecl tellsExpression) fun vars => ?_
  rw [extractsMap Decl.extractsGlobal, zero_add]

instance : Extracting Signature := ⟨fun s => extracts s.attributes + extracts s.ins + extracts s.outs⟩

@[simp] theorem extractsSignature (name params ins outs as) :
    extracts (⟨name, params, ins, outs, as⟩ : Signature) = extracts as + extracts ins + extracts outs := rfl

theorem tellsGroups {role : GroupRole} {incoming : Bool} : Tells n sort 0 (formals role incoming) := by
  refine .expect (by decide) (.bind (.ifNext (tellsAttributedGroups tellsExpression) (.pure le_rfl)) fun groups => ?_)
  have held (v : Variable) : extracts (formalOf incoming v) = extracts v := by
    cases v
    simp [formalOf, add_comm]
  refine .expect (by decide) (.pure ?_)
  rw [extractsMap held, zero_add]

theorem tellsSignature {role : GroupRole} : Tells n sort 0 (signature role) := by
  refine .bind tellsFound fun found => .ident fun name => .optionalTypeParams fun params => ?_
  refine .bind tellsGroups fun ins => ?_
  exact .bind (.ifEats (by decide) tellsGroups (.pure le_rfl)) fun outs => .pure (by simp)

instance : Extracting Spec where
  extracts
    | .requires clause => extracts clause
    | .ensures clause => extracts clause
    | _ => 0

@[simp] theorem extractsRequires (clause : Clause) : extracts (Spec.requires clause) = extracts clause := rfl

@[simp] theorem extractsEnsures (clause : Clause) : extracts (Spec.ensures clause) = extracts clause := rfl

@[simp] theorem extractsModifies (vars : List Ident) : extracts (Spec.modifies vars) = 0 := rfl

@[simp] theorem extractsNoSpec : extracts Spec.mistake = 0 := rfl

theorem extractsContract (contract : List Spec) :
    extracts contract = extracts (contract.filterMap Spec.requires?) + extracts (contract.filterMap Spec.ensures?) := by
  induction contract with
  | nil => rfl
  | cons s rest ih =>
    cases s <;> simp [List.filterMap_cons, Spec.requires?, Spec.ensures?, ih, add_assoc, add_left_comm]

theorem extractsProcedureDecls (sig : Signature) (span : Span) (contract : List Spec)
    (body : Option (List Variable × StmtList)) :
    extracts sig + extracts contract + extracts body ≤ extracts (procedureDecls sig span contract body) := by
  obtain ⟨name, params, ins, outs, found⟩ := sig
  rw [extractsContract]
  cases body with
  | none => simp [procedureDecls, add_assoc]
  | some body =>
    rw [procedureDecls, extractsCons, extractsCons, extractsNil, add_zero]
    refine add_le_add (by simp [add_assoc]) ?_
    rw [extractsSome, Decl.extractsImplementation, Implementation.extractsMk, add_assoc]
    exact Multiset.le_add_left _ _

theorem tellsClause {k : Kind} (mark : k ≠ .endOfText ∧ k ≠ .colon) {start : Span} {free : Bool} :
    Tells n (· = k) 0 (clause start free) := by
  refine .word mark fun t => .bind tellsFound fun found => .bind tellsExpression fun e => .expect (by decide) ?_
  exact .spanFrom fun span => .pure (by simp)

theorem tellsSpec : Tells n sort 0 spec := by
  refine .look fun start => .ifEats (by decide) ?_ (.eatAny (by decide) fun free => .byKind fun k _ => ?_)
  · have vars : Tells n anywhere 0 (ifNext (check .identifier) idents (pure [])) :=
      .ifNext (.commaSeparated .name) (.pure le_rfl)
    exact .bind vars fun vars => .expect (by decide) (.pure (by simp))
  · split
    · exact .last (tellsClause (by decide)) fun clause => by simp
    · exact .last (tellsClause (by decide)) fun clause => by simp
    · exact .fault (.syntaxError _)

theorem tellsImplementationBody : Tells n sort 0 implementationBody :=
  .expect (by decide) (.bind (tellsLocalVariables tellsExpression) fun locals => .last tellsStmtList fun body => by simp)

theorem tellsContract : Tells n sort 0 contractAndBody := by
  have specs : Tells n anywhere 0 specs := .manyNext tellsSpec
  refine .ifEats (by decide) (.last specs fun contract => by simp) (.ifNext ?_ (.fault (.syntaxError _)))
  exact .bind specs.always fun contract => .last tellsImplementationBody fun body => by simp

theorem tellsProcedure : Tells n (· = .kwProcedure) 0 procedure := by
  refine .word (by decide) fun t => .bind tellsSignature fun sig => .bind tellsContract fun (contract, body) => ?_
  exact .spanFrom fun span => .pure (by simpa [add_assoc] using extractsProcedureDecls sig span contract body)

theorem tellsImplementation : Tells n (· = .kwImplementation) 0 implementation := by
  refine .word (by decide) fun t => .bind tellsSignature fun sig => ?_
  refine .bind tellsImplementationBody fun (locals, body) => ?_
  obtain ⟨name, params, ins, outs, found⟩ := sig
  exact .spanFrom fun span => .pure (by simp [add_assoc])

theorem tellsDecl : Tells n sort 0 decl := by
  refine .byKind fun k _ => ?_
  split
  · exact tellsConstants
  · exact tellsFunction
  · exact tellsAxiom
  · exact tellsTypeDecls
  · exact tellsGlobals
  · exact tellsProcedure
  · exact tellsImplementation
  · exact .fault (.syntaxError _)

theorem tellsProgram : Tells n sort 0 program := by
  have groups : Tells n sort 0 (many more decl) :=
    Finds.weaken (Finds.manyLook tellsDecl) fun _ _ => Tells.heldByRow Ranged.append .nil
  exact .last groups fun groups => by simp [extractsFlatten]

end Boogie.Grammar
