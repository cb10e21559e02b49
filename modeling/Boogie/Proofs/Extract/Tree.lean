import Boogie.Proofs.Tree.Rows
import Boogie.Tree.Decl
import Mathlib.Algebra.BigOperators.Group.Multiset.Basic
import Mathlib.Data.Multiset.AddSub

/-! The bitvector extracts of a tree: the bounds of each, as often as it occurs. -/
namespace Boogie

class Extracting (α : Type) where
  extracts : α → Multiset (Nat × Nat)

export Extracting (extracts)

section Plain

variable {α β : Type} [Extracting α] [Extracting β]

instance : Extracting Bool := ⟨fun _ => 0⟩
instance : Extracting String := ⟨fun _ => 0⟩
instance : Extracting Ident := ⟨fun _ => 0⟩
instance : Extracting (Option α) := ⟨fun o => (o.map extracts).getD 0⟩
instance : Extracting (List α) := ⟨fun as => (as.map extracts).sum⟩
instance : Extracting (α × β) := ⟨fun p => extracts p.1 + extracts p.2⟩

@[simp] theorem extractsBool (b : Bool) : extracts b = 0 := rfl
@[simp] theorem extractsText (text : String) : extracts text = 0 := rfl
@[simp] theorem extractsIdent (id : Ident) : extracts id = 0 := rfl
@[simp] theorem extractsNone : extracts (none : Option α) = 0 := rfl
@[simp] theorem extractsSome (a : α) : extracts (some a) = extracts a := rfl
@[simp] theorem extractsPair (a : α) (b : β) : extracts (a, b) = extracts a + extracts b := rfl
@[simp] theorem extractsNil : extracts ([] : List α) = 0 := rfl

@[simp] theorem extractsCons (a : α) (as : List α) : extracts (a :: as) = extracts a + extracts as :=
  List.sum_cons

theorem extractsRows (all : List α → Multiset (Nat × Nat)) (nil : all [] = 0)
    (cons : ∀ a as, all (a :: as) = extracts a + all as) (as : List α) : all as = extracts as :=
  rowsEq (extracts · + ·) nil cons extractsCons as

@[simp] theorem extractsAppend (as bs : List α) : extracts (as ++ bs) = extracts as + extracts bs := by
  simp [extracts]

@[simp] theorem extractsReverse (as : List α) : extracts as.reverse = extracts as := by
  simp [extracts, List.sum_reverse]

theorem extractsMap {f : α → β} (same : ∀ a, extracts (f a) = extracts a) (as : List α) :
    extracts (as.map f) = extracts as := by
  induction as with
  | nil => rfl
  | cons a rest ih => rw [List.map_cons, extractsCons, extractsCons, same, ih]

theorem extractsNoneOf (none : ∀ a : α, extracts a = 0) (as : List α) : extracts as = 0 := by
  induction as with
  | nil => rfl
  | cons a rest ih => rw [extractsCons, ih, none, add_zero]

@[simp] theorem extractsIdents (ids : List Ident) : extracts ids = 0 := extractsNoneOf extractsIdent ids

end Plain

def Operator.ranges : Operator → Multiset (Nat × Nat)
  | .extract upper lower => {(upper, lower)}
  | _ => 0

mutual

def Expr.ranges : Expr → Multiset (Nat × Nat)
  | .literal _ _ | .name _ _ => 0
  | .old _ body => Expr.ranges body
  | .apply _ op args => op.ranges + Expr.rangesAll args
  | .bind _ _ _ vars as ts body =>
    Variable.rangesAll vars + Attribute.rangesAll as + Trigger.rangesAll ts + Expr.ranges body
  | .letIn _ vars values as body =>
    LetVar.rangesAll vars + Expr.rangesAll values + Attribute.rangesAll as + Expr.ranges body
  | .code _ locals blocks => Variable.rangesAll locals + Block.rangesAll blocks

def Expr.rangesAll : List Expr → Multiset (Nat × Nat)
  | [] => 0
  | e :: rest => Expr.ranges e + Expr.rangesAll rest

def Expr.ranges? : Option Expr → Multiset (Nat × Nat)
  | none => 0
  | some e => Expr.ranges e

def AttributeParam.ranges : AttributeParam → Multiset (Nat × Nat)
  | .string _ => 0
  | .expr e => Expr.ranges e

def AttributeParam.rangesAll : List AttributeParam → Multiset (Nat × Nat)
  | [] => 0
  | p :: rest => AttributeParam.ranges p + AttributeParam.rangesAll rest

def Attribute.ranges : Attribute → Multiset (Nat × Nat)
  | ⟨_, params, _⟩ => AttributeParam.rangesAll params

def Attribute.rangesAll : List Attribute → Multiset (Nat × Nat)
  | [] => 0
  | a :: rest => Attribute.ranges a + Attribute.rangesAll rest

def Trigger.ranges : Trigger → Multiset (Nat × Nat)
  | ⟨_, exprs, _⟩ => Expr.rangesAll exprs

def Trigger.rangesAll : List Trigger → Multiset (Nat × Nat)
  | [] => 0
  | t :: rest => Trigger.ranges t + Trigger.rangesAll rest

def Variable.ranges : Variable → Multiset (Nat × Nat)
  | ⟨_, _, whereClause, as, _⟩ => Expr.ranges? whereClause + Attribute.rangesAll as

def Variable.rangesAll : List Variable → Multiset (Nat × Nat)
  | [] => 0
  | v :: rest => Variable.ranges v + Variable.rangesAll rest

def LetVar.ranges : LetVar → Multiset (Nat × Nat)
  | ⟨_, as, _⟩ => Attribute.rangesAll as

def LetVar.rangesAll : List LetVar → Multiset (Nat × Nat)
  | [] => 0
  | v :: rest => LetVar.ranges v + LetVar.rangesAll rest

def Target.ranges : Target → Multiset (Nat × Nat)
  | .name _ => 0
  | .element _ map indexes => Target.ranges map + Expr.rangesAll indexes

def Target.rangesAll : List Target → Multiset (Nat × Nat)
  | [] => 0
  | t :: rest => Target.ranges t + Target.rangesAll rest

def Call.ranges : Call → Multiset (Nat × Nat)
  | ⟨_, _, _, ins, _, as, _⟩ => Expr.rangesAll ins + Attribute.rangesAll as

def Call.rangesAll : List Call → Multiset (Nat × Nat)
  | [] => 0
  | x :: rest => Call.ranges x + Call.rangesAll rest

def Cmd.ranges : Cmd → Multiset (Nat × Nat)
  | .assign _ targets values => Target.rangesAll targets + Expr.rangesAll values
  | .assert _ as e | .assume _ as e => Attribute.rangesAll as + Expr.ranges e
  | .havoc _ _ | .yield _ => 0
  | .call _ x => Call.ranges x
  | .parallel _ calls as => Call.rangesAll calls + Attribute.rangesAll as

def Cmd.rangesAll : List Cmd → Multiset (Nat × Nat)
  | [] => 0
  | x :: rest => Cmd.ranges x + Cmd.rangesAll rest

def Transfer.ranges : Transfer → Multiset (Nat × Nat)
  | .goto _ _ | .leave _ => 0
  | .leaveWith _ value => Expr.ranges value

def Block.ranges : Block → Multiset (Nat × Nat)
  | ⟨_, cmds, transfer, _⟩ => Cmd.rangesAll cmds + Transfer.ranges transfer

def Block.rangesAll : List Block → Multiset (Nat × Nat)
  | [] => 0
  | b :: rest => Block.ranges b + Block.rangesAll rest

end

instance : Extracting Operator := ⟨Operator.ranges⟩
instance : Extracting Expr := ⟨Expr.ranges⟩
instance : Extracting AttributeParam := ⟨AttributeParam.ranges⟩
instance : Extracting Attribute := ⟨Attribute.ranges⟩
instance : Extracting Trigger := ⟨Trigger.ranges⟩
instance : Extracting Variable := ⟨Variable.ranges⟩
instance : Extracting LetVar := ⟨LetVar.ranges⟩
instance : Extracting Target := ⟨Target.ranges⟩
instance : Extracting Call := ⟨Call.ranges⟩
instance : Extracting Cmd := ⟨Cmd.ranges⟩
instance : Extracting Transfer := ⟨Transfer.ranges⟩
instance : Extracting Block := ⟨Block.ranges⟩

theorem Expr.rangesAllEq (es : List Expr) : Expr.rangesAll es = extracts es :=
  extractsRows Expr.rangesAll rfl (fun _ _ => rfl) es

theorem AttributeParam.rangesAllEq (ps : List AttributeParam) : AttributeParam.rangesAll ps = extracts ps :=
  extractsRows AttributeParam.rangesAll rfl (fun _ _ => rfl) ps

theorem Attribute.rangesAllEq (as : List Attribute) : Attribute.rangesAll as = extracts as :=
  extractsRows Attribute.rangesAll rfl (fun _ _ => rfl) as

theorem Trigger.rangesAllEq (ts : List Trigger) : Trigger.rangesAll ts = extracts ts :=
  extractsRows Trigger.rangesAll rfl (fun _ _ => rfl) ts

theorem Variable.rangesAllEq (vs : List Variable) : Variable.rangesAll vs = extracts vs :=
  extractsRows Variable.rangesAll rfl (fun _ _ => rfl) vs

theorem LetVar.rangesAllEq (vs : List LetVar) : LetVar.rangesAll vs = extracts vs :=
  extractsRows LetVar.rangesAll rfl (fun _ _ => rfl) vs

theorem Target.rangesAllEq (ts : List Target) : Target.rangesAll ts = extracts ts :=
  extractsRows Target.rangesAll rfl (fun _ _ => rfl) ts

theorem Call.rangesAllEq (xs : List Call) : Call.rangesAll xs = extracts xs :=
  extractsRows Call.rangesAll rfl (fun _ _ => rfl) xs

theorem Cmd.rangesAllEq (xs : List Cmd) : Cmd.rangesAll xs = extracts xs :=
  extractsRows Cmd.rangesAll rfl (fun _ _ => rfl) xs

theorem Block.rangesAllEq (bs : List Block) : Block.rangesAll bs = extracts bs :=
  extractsRows Block.rangesAll rfl (fun _ _ => rfl) bs

theorem Expr.rangesOption (e : Option Expr) : Expr.ranges? e = extracts e := by
  cases e <;> rfl

section Nodes

@[simp] theorem Operator.extractsExtract (upper lower : Nat) :
    extracts (Operator.extract upper lower) = {(upper, lower)} := rfl

@[simp] theorem Operator.extractsBinary (op) : extracts (.binary op : Operator) = 0 := rfl

@[simp] theorem Operator.extractsUnary (op) : extracts (.unary op : Operator) = 0 := rfl

@[simp] theorem Operator.extractsCall (function) : extracts (.call function : Operator) = 0 := rfl

@[simp] theorem Operator.extractsSelect (arity) : extracts (.select arity : Operator) = 0 := rfl

@[simp] theorem Operator.extractsStore (arity) : extracts (.store arity : Operator) = 0 := rfl

@[simp] theorem Operator.extractsIfThenElse : extracts (.ifThenElse : Operator) = 0 := rfl

@[simp] theorem Operator.extractsConvert (target) : extracts (.convert target : Operator) = 0 := rfl

@[simp] theorem Operator.extractsCoerce (type) : extracts (.coerce type : Operator) = 0 := rfl

@[simp] theorem Operator.extractsConcat : extracts (.concat : Operator) = 0 := rfl

@[simp] theorem Expr.extractsLiteral (span value) : extracts (Expr.literal span value) = 0 := rfl

@[simp] theorem Expr.extractsName (span name) : extracts (Expr.name span name) = 0 := rfl

@[simp] theorem Expr.extractsOld (span body) : extracts (Expr.old span body) = extracts body := rfl

@[simp] theorem Expr.extractsApply (span op args) :
    extracts (Expr.apply span op args) = extracts op + extracts args := by
  rw [← Expr.rangesAllEq]; rfl

@[simp] theorem Expr.extractsBind (span binder params vars as ts body) :
    extracts (Expr.bind span binder params vars as ts body) =
      extracts vars + extracts as + extracts ts + extracts body := by
  rw [← Variable.rangesAllEq, ← Attribute.rangesAllEq, ← Trigger.rangesAllEq]; rfl

@[simp] theorem Expr.extractsLetIn (span vars values as body) :
    extracts (Expr.letIn span vars values as body) =
      extracts vars + extracts values + extracts as + extracts body := by
  rw [← LetVar.rangesAllEq, ← Expr.rangesAllEq, ← Attribute.rangesAllEq]; rfl

@[simp] theorem Expr.extractsCode (span locals blocks) :
    extracts (Expr.code span locals blocks) = extracts locals + extracts blocks := by
  rw [← Variable.rangesAllEq, ← Block.rangesAllEq]; rfl

@[simp] theorem Expr.extractsPlaceholder (span) : extracts (Expr.placeholder span) = 0 := rfl

@[simp] theorem Expr.extractsBinary (op left right) :
    extracts (Expr.binary op left right) = extracts left + extracts right := by
  simp [Expr.binary]

@[simp] theorem Expr.extractsUnary (op start operand) : extracts (Expr.unary op start operand) = extracts operand := by
  simp [Expr.unary]

@[simp] theorem AttributeParam.extractsString (content) : extracts (AttributeParam.string content) = 0 := rfl

@[simp] theorem AttributeParam.extractsExpr (e) : extracts (AttributeParam.expr e) = extracts e := rfl

@[simp] theorem Attribute.extractsMk (key params span) :
    extracts (⟨key, params, span⟩ : Attribute) = extracts params := by
  rw [← AttributeParam.rangesAllEq]; rfl

@[simp] theorem Trigger.extractsMk (positive exprs span) :
    extracts (⟨positive, exprs, span⟩ : Trigger) = extracts exprs := by
  rw [← Expr.rangesAllEq]; rfl

@[simp] theorem Variable.extractsMk (name type whereClause as span) :
    extracts (⟨name, type, whereClause, as, span⟩ : Variable) = extracts whereClause + extracts as := by
  rw [← Expr.rangesOption, ← Attribute.rangesAllEq]; rfl

@[simp] theorem LetVar.extractsMk (name as span) : extracts (⟨name, as, span⟩ : LetVar) = extracts as := by
  rw [← Attribute.rangesAllEq]; rfl

@[simp] theorem Target.extractsName (id) : extracts (Target.name id) = 0 := rfl

@[simp] theorem Target.extractsElement (span map indexes) :
    extracts (Target.element span map indexes) = extracts map + extracts indexes := by
  rw [← Expr.rangesAllEq]; rfl

@[simp] theorem Call.extractsMk (isAsync isFree callee ins outs as span) :
    extracts (⟨isAsync, isFree, callee, ins, outs, as, span⟩ : Call) = extracts ins + extracts as := by
  rw [← Expr.rangesAllEq, ← Attribute.rangesAllEq]; rfl

@[simp] theorem Cmd.extractsAssign (span targets values) :
    extracts (Cmd.assign span targets values) = extracts targets + extracts values := by
  rw [← Target.rangesAllEq, ← Expr.rangesAllEq]; rfl

@[simp] theorem Cmd.extractsAssert (span as e) : extracts (Cmd.assert span as e) = extracts as + extracts e := by
  rw [← Attribute.rangesAllEq]; rfl

@[simp] theorem Cmd.extractsAssume (span as e) : extracts (Cmd.assume span as e) = extracts as + extracts e := by
  rw [← Attribute.rangesAllEq]; rfl

@[simp] theorem Cmd.extractsHavoc (span vars) : extracts (Cmd.havoc span vars) = 0 := rfl

@[simp] theorem Cmd.extractsYield (span) : extracts (Cmd.yield span) = 0 := rfl

@[simp] theorem Cmd.extractsCall (span x) : extracts (Cmd.call span x) = extracts x := rfl

@[simp] theorem Cmd.extractsParallel (span calls as) :
    extracts (Cmd.parallel span calls as) = extracts calls + extracts as := by
  rw [← Call.rangesAllEq, ← Attribute.rangesAllEq]; rfl

@[simp] theorem Transfer.extractsGoto (span labels) : extracts (Transfer.goto span labels) = 0 := rfl

@[simp] theorem Transfer.extractsLeave (span) : extracts (Transfer.leave span) = 0 := rfl

@[simp] theorem Transfer.extractsLeaveWith (span value) :
    extracts (Transfer.leaveWith span value) = extracts value := rfl

@[simp] theorem Block.extractsMk (label cmds transfer span) :
    extracts (⟨label, cmds, transfer, span⟩ : Block) = extracts cmds + extracts transfer := by
  rw [← Cmd.rangesAllEq]; rfl

end Nodes

instance : Extracting Clause := ⟨fun x => extracts x.attributes + extracts x.condition⟩

@[simp] theorem Clause.extractsMk (free condition as span) :
    extracts (⟨free, condition, as, span⟩ : Clause) = extracts as + extracts condition := rfl

mutual

def StmtList.ranges : StmtList → Multiset (Nat × Nat)
  | ⟨blocks, _⟩ => BigBlock.rangesAll blocks

def BigBlock.ranges : BigBlock → Multiset (Nat × Nat)
  | ⟨_, _, cmds, tail⟩ => extracts cmds + Tail.ranges? tail

def BigBlock.rangesAll : List BigBlock → Multiset (Nat × Nat)
  | [] => 0
  | b :: rest => BigBlock.ranges b + BigBlock.rangesAll rest

def Tail.ranges? : Option Tail → Multiset (Nat × Nat)
  | none => 0
  | some t => Tail.ranges t

def Tail.ranges : Tail → Multiset (Nat × Nat)
  | .branch command => IfCmd.ranges command
  | .loop command => WhileCmd.ranges command
  | .break _ _ => 0
  | .transfer command => extracts command

def IfCmd.ranges : IfCmd → Multiset (Nat × Nat)
  | ⟨guard, thenBranch, elseBranch, _⟩ =>
    extracts guard + StmtList.ranges thenBranch + ElseBranch.ranges? elseBranch

def ElseBranch.ranges? : Option ElseBranch → Multiset (Nat × Nat)
  | none => 0
  | some b => ElseBranch.ranges b

def ElseBranch.ranges : ElseBranch → Multiset (Nat × Nat)
  | .elseIf command => IfCmd.ranges command
  | .block body => StmtList.ranges body

def WhileCmd.ranges : WhileCmd → Multiset (Nat × Nat)
  | ⟨guard, invariants, body, _⟩ =>
    extracts guard + extracts invariants + StmtList.ranges body

end

instance : Extracting StmtList := ⟨StmtList.ranges⟩
instance : Extracting BigBlock := ⟨BigBlock.ranges⟩
instance : Extracting Tail := ⟨Tail.ranges⟩
instance : Extracting IfCmd := ⟨IfCmd.ranges⟩
instance : Extracting ElseBranch := ⟨ElseBranch.ranges⟩
instance : Extracting WhileCmd := ⟨WhileCmd.ranges⟩

theorem BigBlock.rangesAllEq (bs : List BigBlock) : BigBlock.rangesAll bs = extracts bs :=
  extractsRows BigBlock.rangesAll rfl (fun _ _ => rfl) bs

theorem Tail.rangesOption (t : Option Tail) : Tail.ranges? t = extracts t := by
  cases t <;> rfl

theorem ElseBranch.rangesOption (e : Option ElseBranch) : ElseBranch.ranges? e = extracts e := by
  cases e <;> rfl

section Statements

@[simp] theorem StmtList.extractsMk (blocks closing) :
    extracts (⟨blocks, closing⟩ : StmtList) = extracts blocks := by
  rw [← BigBlock.rangesAllEq]; rfl

@[simp] theorem BigBlock.extractsMk (span label cmds tail) :
    extracts (⟨span, label, cmds, tail⟩ : BigBlock) = extracts cmds + extracts tail := by
  rw [← Tail.rangesOption]; rfl

@[simp] theorem Tail.extractsBranch (command) : extracts (Tail.branch command) = extracts command := rfl

@[simp] theorem Tail.extractsLoop (command) : extracts (Tail.loop command) = extracts command := rfl

@[simp] theorem Tail.extractsBreak (span label) : extracts (Tail.break span label) = 0 := rfl

@[simp] theorem Tail.extractsTransfer (command) : extracts (Tail.transfer command) = extracts command := rfl

@[simp] theorem IfCmd.extractsMk (guard thenBranch elseBranch span) :
    extracts (⟨guard, thenBranch, elseBranch, span⟩ : IfCmd) =
      extracts guard + extracts thenBranch + extracts elseBranch := by
  rw [← ElseBranch.rangesOption]; rfl

@[simp] theorem ElseBranch.extractsElseIf (command) : extracts (ElseBranch.elseIf command) = extracts command := rfl

@[simp] theorem ElseBranch.extractsBlock (body) : extracts (ElseBranch.block body) = extracts body := rfl

@[simp] theorem WhileCmd.extractsMk (guard invariants body span) :
    extracts (⟨guard, invariants, body, span⟩ : WhileCmd) =
      extracts guard + extracts invariants + extracts body := rfl

end Statements

instance : Extracting Parent := ⟨fun _ => 0⟩

@[simp] theorem extractsParents (parents : List Parent) : extracts parents = 0 := extractsNoneOf (fun _ => rfl) parents

@[simp] theorem extractsExtended (parents : Option (List Parent)) : extracts parents = 0 := by
  cases parents <;> simp

instance : Extracting Formal := ⟨fun f => extracts f.attributes + extracts f.whereClause⟩

instance : Extracting Function :=
  ⟨fun f => extracts f.attributes + extracts f.formals + extracts f.result + extracts f.body⟩

instance : Extracting Axiom := ⟨fun a => extracts a.attributes + extracts a.condition⟩

instance : Extracting Procedure :=
  ⟨fun p => extracts p.attributes + extracts p.ins + extracts p.outs + extracts p.requires + extracts p.ensures⟩

instance : Extracting Implementation :=
  ⟨fun i => extracts i.attributes + extracts i.ins + extracts i.outs + extracts i.locals + extracts i.body⟩

instance : Extracting Decl where
  extracts
    | .constant c => extracts c.attributes
    | .typeConstructor t => extracts t.attributes
    | .typeSynonym t => extracts t.attributes
    | .function f => extracts f
    | .axiomatic a => extracts a
    | .global v => extracts v
    | .procedure p => extracts p
    | .implementation i => extracts i

instance : Extracting Program := ⟨fun p => extracts p.decls⟩

section Declarations

@[simp] theorem Formal.extractsMk (name type whereClause incoming as span) :
    extracts (⟨name, type, whereClause, incoming, as, span⟩ : Formal) = extracts as + extracts whereClause := rfl

@[simp] theorem Function.extractsMk (name params formals result body as span) :
    extracts (⟨name, params, formals, result, body, as, span⟩ : Function) =
      extracts as + extracts formals + extracts result + extracts body := rfl

@[simp] theorem Axiom.extractsMk (condition as span) :
    extracts (⟨condition, as, span⟩ : Axiom) = extracts as + extracts condition := rfl

@[simp] theorem Procedure.extractsMk (name params ins outs requires modifies ensures as span) :
    extracts (⟨name, params, ins, outs, requires, modifies, ensures, as, span⟩ : Procedure) =
      extracts as + extracts ins + extracts outs + extracts requires + extracts ensures := rfl

@[simp] theorem Implementation.extractsMk (name params ins outs locals body as span) :
    extracts (⟨name, params, ins, outs, locals, body, as, span⟩ : Implementation) =
      extracts as + extracts ins + extracts outs + extracts locals + extracts body := rfl

@[simp] theorem Decl.extractsConstant (c) : extracts (Decl.constant c) = extracts c.attributes := rfl

@[simp] theorem Decl.extractsTypeConstructor (t) : extracts (Decl.typeConstructor t) = extracts t.attributes := rfl

@[simp] theorem Decl.extractsTypeSynonym (t) : extracts (Decl.typeSynonym t) = extracts t.attributes := rfl

@[simp] theorem Decl.extractsFunction (f) : extracts (Decl.function f) = extracts f := rfl

@[simp] theorem Decl.extractsAxiomatic (a) : extracts (Decl.axiomatic a) = extracts a := rfl

@[simp] theorem Decl.extractsGlobal (v) : extracts (Decl.global v) = extracts v := rfl

@[simp] theorem Decl.extractsProcedure (p) : extracts (Decl.procedure p) = extracts p := rfl

@[simp] theorem Decl.extractsImplementation (i) : extracts (Decl.implementation i) = extracts i := rfl

@[simp] theorem Program.extractsMk (decls) : extracts (⟨decls⟩ : Program) = extracts decls := rfl

end Declarations

end Boogie
