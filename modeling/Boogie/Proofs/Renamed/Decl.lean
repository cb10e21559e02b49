import Boogie.Proofs.Alike.Decl
import Boogie.Proofs.Renamed.Expr

/-! No statement and no declaration goes on with an argument of a type behind a colon and a keyword that is a type. -/
namespace Boogie.Grammar

open Token (Kind)

section Statements

variable {sort : Kind → Prop} {stmts : Production StmtList}

theorem keepsGuard : Keeps .plain .plain sort guard := by
  have condition : Keeps .plain .noColon anywhere condition :=
    .ifEats .pure (.ifNext (.bind keepsExpression fun _ => .pure) (.fault (.syntaxError _)))
  exact .expect (.bind condition fun _ => .expect .pure)

theorem keepsCondition {β : Type} {f : List Attribute → Expr → Production β}
    (rest : ∀ found e, Keeps .plain .plain anywhere (f found e)) : Keeps .plain .plain sort
      (attributes expression >>= fun found => expression >>= fun e => expect .semicolon >>= fun _ => f found e) :=
  .bind (keepsAttributes keepsExpression) fun found => .bind keepsExpression fun e => .expect (rest found e)

theorem keepsLoopInvariant : Keeps .plain .plain sort loopInvariant := by
  have clause {free : Bool} {start : Span} {sort : Kind → Prop} : Keeps .plain .plain sort (expect .kwInvariant >>= fun _ =>
      attributes expression >>= fun found => expression >>= fun e => expect .semicolon >>= fun _ =>
        spanFrom start >>= fun span => pure (⟨free, e, found, span⟩ : Clause)) :=
    .expect (keepsCondition fun _ _ => .spanFrom fun _ => .pure)
  exact .look fun start => .eat clause clause

theorem keepsBreakCmd : Keeps .noType .plain (· = .kwBreak) breakCmd := by
  refine .advance (b := .plain) (by rintro _ rfl; decide) fun _ _ => ?_
  refine .bind (a := .plain) (b := .plain) (.ifNext (.bind keepsIdent fun _ => .pure) .pure) fun _ => ?_
  exact .expect (.spanFrom fun _ => .pure)

theorem keepsTransferCmd : Keeps .noType .plain sort transferCmd := by
  refine .look fun start => .ifEats (.bind keepsIdents fun _ => ?_) (.expect ?_)
  · exact .expect (.spanFrom fun _ => .pure)
  · exact .expect (.spanFrom fun _ => .pure)

variable (nested : Keeps .plain .plain anywhere stmts)
include nested

theorem keepsWhileCmd : Keeps .noType .plain (· = .kwWhile) (whileCmd stmts) := by
  refine .advance (b := .plain) (by rintro _ rfl; decide) fun _ _ => .bind keepsGuard fun _ => ?_
  refine .bind (.manyNext keepsLoopInvariant) fun _ => .expect (.bind nested fun _ => ?_)
  exact .spanFrom fun _ => .pure

theorem keepsIfCmd {next : Production IfCmd} (further : Keeps .plain .plain anywhere next) :
    Keeps .noType .plain sort (ifCmd stmts next) := by
  have rest : Keeps .plain .plain anywhere (optionalElse stmts next) := by
    refine .ifEats (.ifNext (.bind further.always fun _ => .pure) (.ifEats ?_ (.fault (.syntaxError _)))) .pure
    exact .bind nested fun _ => .pure
  refine .look fun start => .expect (.bind keepsGuard fun _ => .expect (.bind nested fun _ => ?_))
  exact .bind rest fun _ => .spanFrom fun _ => .pure

theorem keepsBlockTail : Keeps .noType .plain sort (blockTail stmts) := by
  have conditional : Keeps .noType .plain anywhere (conditional stmts) :=
    .nest (fun _ => .look fun _ => .look fun _ => .pure) fun _ further _ => keepsIfCmd nested (further ())
  refine .byKind fun k _ => ?_
  split
  · exact .bind conditional.always fun _ => .pure
  · exact .bind (keepsWhileCmd nested) fun _ => .pure
  · exact .bind keepsBreakCmd fun _ => .pure
  · exact .bind keepsTransferCmd fun _ => .pure
  · exact .bind keepsTransferCmd fun _ => .pure
  · exact .fault (.syntaxError _)

theorem keepsStmtsBody : Keeps .noType .plain sort (stmtsBody stmts) := by
  refine .bind (.whileNext (e := .noType) fun g => .ifNext ?_ ?_) fun g => .look fun closing => .expect .pure
  · exact .bind (keepsLabelOrCmd keepsExpression) fun _ => .pure
  · exact .bind (keepsBlockTail nested) fun _ => .pure

end Statements

theorem keepsStmtList {sort : Kind → Prop} : Keeps .plain .plain sort stmtList :=
  .always (.of (.nest (e := .noType) (fun _ => .look fun _ => .pure) fun _ nested _ => keepsStmtsBody (nested ())))

section Declarations

variable {sort : Kind → Prop}

theorem keepsConstants : Keeps .plain .plain (· = .kwConst) constants := by
  have parent {sort : Kind → Prop} : Keeps .plain .plain sort parent :=
    .eat (.bind keepsIdent fun _ => .pure) (.bind keepsIdent fun _ => .pure)
  have extension : Keeps .noColon .noColon anywhere extension := by
    refine .ifEats (.bind (b := .plain) (.ifNext (.commaSeparated parent parent) .pure) fun _ => ?_) .pure
    exact .eat .pure .pure
  have group {unique : Bool} {found : List Attribute} {sort : Kind → Prop} : Keeps .plain .plain sort
      (idents >>= fun names => expect .colon >>= fun _ => type >>= fun type => Grammar.extension >>= fun extended =>
        expect .semicolon >>= fun _ => pure (names.map fun id =>
          Decl.constant ⟨id.name, type, unique, extended.1, extended.2, found, id.span⟩)) :=
    .bind keepsIdents fun _ => .expect (.bind keepsType fun _ => .bind extension fun _ => .expect .pure)
  refine .advance (b := .plain) (by rintro _ rfl; decide) fun _ _ => ?_
  exact .bind (keepsAttributes keepsExpression) fun _ => .eat group group

theorem keepsFunctionFormal {incoming : Bool} : Keeps .plain .noColon sort (functionFormal incoming) := by
  refine .bind (keepsAttributes keepsExpression) fun found => .look fun start => .bind keepsType fun first => ?_
  refine .ifEats ?_ (.spanFrom fun _ => .pure)
  exact .given (.broken _) (.bind keepsType fun _ => .spanFrom fun _ => .pure)

theorem keepsFunctionResult {fs : List Formal} : Keeps .plain .noColon sort (functionResult fs) := by
  refine .ifEats (.expect (.bind keepsFunctionFormal fun _ => .expect .pure)) (.ifEats ?_ (.fault (.resultMissing fs)))
  exact .bind keepsType fun _ => .pure

theorem keepsFunctionBody : Keeps .noColon .plain sort functionBody := by
  refine .ifEats ?_ (.ifEats .pure (.fault (.syntaxError _)))
  exact .bind keepsExpression fun _ => .expect .pure

theorem Idle.namePositional (next : Option Ty) (fs : List Formal) : Idle (namePositional next fs) := by
  induction fs generalizing next with
  | nil => exact .pure _
  | cons f rest ih =>
    rw [Grammar.namePositional]
    split
    · exact .bind (ih _) fun _ => .pure _
    · exact .bind (.brokenAt _ _) fun _ => .bind (ih _) fun _ => .pure _
    · split
      · exact .bind (ih _) fun _ => .pure _
      · exact .bind (.brokenAt _ _) fun _ => .pure _

theorem keepsFunction : Keeps .plain .plain (· = .kwFunction) function := by
  have idle (fs : List Formal) : Idle (nameFormals fs) := by
    rw [nameFormals]
    split
    · exact .pure _
    · exact .bind (.namePositional _ _) fun _ => .pure _
  have formals : Keeps .plain .plain anywhere functionFormals := by
    refine .expect (.bind (a := .plain) (b := .noColon) (.ifNext ?_ .pure) fun _ => .expect .pure)
    exact .commaSeparated keepsFunctionFormal keepsFunctionFormal
  refine .advance (b := .plain) (by rintro _ rfl; decide) fun _ _ => ?_
  refine .bind (keepsAttributes keepsExpression) fun _ => .bind keepsIdent fun _ => ?_
  refine .bind (keepsOptionalTypeParams (e := .plain)) fun _ => .bind formals fun fs => ?_
  refine .bind keepsFunctionResult fun _ => .bind keepsFunctionBody fun _ => .look fun _ => ?_
  exact .idle (idle fs) fun _ => .spanFrom fun _ => .pure

theorem keepsAxiomDecl : Keeps .plain .plain (· = .kwAxiom) axiomDecl :=
  .advance (b := .plain) (by rintro _ rfl; decide) fun _ _ => keepsCondition fun _ _ => .spanFrom fun _ => .pure

theorem keepsTypeDecls : Keeps .plain .plain (· = .kwType) typeDecls := by
  have one {found : List Attribute} {sort : Kind → Prop} : Keeps .plain .noColon sort (typeDecl found) := by
    refine .bind keepsIdent fun _ => .bind (.manyNext (e := .plain) keepsIdent.of) fun _ => .ifEats ?_ ?_
    · exact .bind keepsType fun _ => .spanFrom fun _ => .pure
    · exact .spanFrom fun _ => .pure
  refine .advance (b := .plain) (by rintro _ rfl; decide) fun _ _ => .bind (keepsAttributes keepsExpression) fun _ => ?_
  exact .bind (.commaSeparated one one) fun _ => .expect .pure

theorem keepsSignature {role : GroupRole} : Keeps .plain .plain sort (signature role) := by
  have formals {incoming : Bool} : Keeps .plain .plain anywhere (formals role incoming) := by
    refine .expect (.bind (b := .noColon) (.ifNext (keepsAttributedGroups keepsExpression) .pure) fun _ => ?_)
    exact .expect .pure
  refine .bind (keepsAttributes keepsExpression) fun _ => .bind keepsIdent fun _ => ?_
  refine .bind (keepsOptionalTypeParams (e := .plain)) fun _ => .bind formals fun _ => ?_
  exact .bind (a := .plain) (b := .plain) (.ifEats formals .pure) fun _ => .pure

theorem keepsSpec : Keeps .plain .plain sort spec := by
  have words {start : Span} {free : Bool} {k : Kind} (other : Ending.plain.behind k = .plain) :
      Keeps .plain .plain (· = k) (clause start free) :=
    .advance (b := .plain) (by rintro _ rfl; exact ⟨rfl, other⟩) fun _ _ =>
      keepsCondition fun _ _ => .spanFrom fun _ => .pure
  refine .look fun start => .ifEats ?_ (.eat ?_ ?_)
  · exact .bind (a := .plain) (b := .plain) (.ifNext keepsIdents.of .pure) fun _ => .expect .pure
  -- The same clauses stand behind `free` and without it.
  all_goals
    refine .byKind fun k _ => ?_
    split
    · exact .bind (words rfl) fun _ => .pure
    · exact .bind (words rfl) fun _ => .pure
    · exact .fault (.syntaxError _)

theorem keepsImplementationBody : Keeps .plain .plain sort implementationBody :=
  .expect (.bind (keepsLocalVariables keepsExpression) fun _ => .bind keepsStmtList fun _ => .pure)

theorem keepsContractAndBody : Keeps .plain .plain sort contractAndBody := by
  have specs {sort : Kind → Prop} : Keeps .plain .plain sort specs := .manyNext keepsSpec
  refine .ifEats (.bind specs fun _ => .pure) (.ifNext (.bind specs fun _ => ?_) (.fault (.syntaxError _)))
  exact .bind keepsImplementationBody fun _ => .pure

theorem keepsDecl : Keeps .plain .plain sort decl := by
  refine .byKind fun k _ => ?_
  split
  · exact keepsConstants
  · exact keepsFunction
  · exact keepsAxiomDecl
  · exact keepsTypeDecls
  · exact .bind (keepsVariableDecl keepsExpression) fun _ => .pure
  · refine .advance (b := .plain) (by rintro _ rfl; decide) fun _ _ => .bind keepsSignature fun _ => ?_
    exact .bind keepsContractAndBody fun _ => .spanFrom fun _ => .pure
  · refine .advance (b := .plain) (by rintro _ rfl; decide) fun _ _ => .bind keepsSignature fun _ => ?_
    exact .bind keepsImplementationBody fun _ => .spanFrom fun _ => .pure
  · exact .fault (.syntaxError _)

end Declarations

theorem keepsProgram : Keeps .plain .plain anywhere program :=
  .bind (.manyLook keepsDecl) fun _ => .pure

end Boogie.Grammar
