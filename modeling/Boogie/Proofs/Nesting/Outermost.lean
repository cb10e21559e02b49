import Boogie.Tree.Decl

/-! The outermost expressions of a node: those that it holds, but for what is within another expression of it. -/
namespace Boogie

class Outermost (α : Type) where
  outermost : α → List Expr

export Outermost (outermost)

section Plain

variable {α β : Type} [Outermost α] [Outermost β]

instance : Outermost Ident := ⟨fun _ => []⟩
instance : Outermost Expr := ⟨fun e => [e]⟩
instance : Outermost (Option α) := ⟨fun o => (o.map outermost).getD []⟩
instance : Outermost (List α) := ⟨fun as => as.flatMap outermost⟩
instance : Outermost (α × β) := ⟨fun p => outermost p.1 ++ outermost p.2⟩

@[simp] theorem outermostIdent (id : Ident) : outermost id = [] := rfl
@[simp] theorem outermostExpr (e : Expr) : outermost e = [e] := rfl
@[simp] theorem outermostNone : outermost (none : Option α) = [] := rfl
@[simp] theorem outermostSome (a : α) : outermost (some a) = outermost a := rfl
@[simp] theorem outermostPair (a : α) (b : β) : outermost (a, b) = outermost a ++ outermost b := rfl
@[simp] theorem outermostNil : outermost ([] : List α) = [] := rfl

@[simp] theorem outermostCons (a : α) (as : List α) : outermost (a :: as) = outermost a ++ outermost as :=
  List.flatMap_cons

@[simp] theorem outermostAppend (as bs : List α) : outermost (as ++ bs) = outermost as ++ outermost bs :=
  List.flatMap_append

@[simp] theorem outermostFlatten (groups : List (List α)) : outermost groups.flatten = outermost groups := by
  induction groups with
  | nil => rfl
  | cons g rest ih => rw [List.flatten_cons, outermostAppend, ih, outermostCons]

theorem memOutermost {as : List α} {e : Expr} : e ∈ outermost as ↔ ∃ a ∈ as, e ∈ outermost a := List.mem_flatMap

theorem outermostMap {f : α → β} (same : ∀ a, outermost (f a) = outermost a) (as : List α) :
    outermost (as.map f) = outermost as := by
  simp [outermost, List.flatMap_map, same]

@[simp] theorem memReverse {as : List α} {e : Expr} : e ∈ outermost as.reverse ↔ e ∈ outermost as := by
  simp [memOutermost]

@[simp] theorem outermostExprs (es : List Expr) : outermost es = es := by
  induction es with
  | nil => rfl
  | cons e rest ih => rw [outermostCons, ih]; rfl

@[simp] theorem outermostIdents (ids : List Ident) : outermost ids = [] :=
  List.flatMap_eq_nil_iff.mpr fun _ _ => rfl

end Plain

instance : Outermost AttributeParam where
  outermost
    | .string _ => []
    | .expr e => [e]

instance : Outermost Attribute := ⟨fun a => outermost a.params⟩
instance : Outermost Trigger := ⟨fun t => t.exprs⟩
instance : Outermost Variable := ⟨fun v => outermost v.whereClause ++ outermost v.attributes⟩
instance : Outermost LetVar := ⟨fun v => outermost v.attributes⟩

def Target.exprs : Target → List Expr
  | .name _ => []
  | .element _ map indexes => map.exprs ++ indexes

instance : Outermost Target := ⟨Target.exprs⟩
instance : Outermost Call := ⟨fun c => c.ins ++ outermost c.attributes⟩

instance : Outermost Cmd where
  outermost
    | .assign _ targets values => outermost targets ++ values
    | .assert _ as condition | .assume _ as condition => outermost as ++ [condition]
    | .havoc _ _ | .yield _ => []
    | .call _ call => outermost call
    | .parallel _ calls as => outermost calls ++ outermost as

instance : Outermost Transfer where
  outermost
    | .goto _ _ | .leave _ => []
    | .leaveWith _ value => [value]

instance : Outermost Block := ⟨fun b => outermost b.cmds ++ outermost b.transfer⟩

section Nodes

@[simp] theorem AttributeParam.outermostString (content) : outermost (AttributeParam.string content) = [] := rfl

@[simp] theorem AttributeParam.outermostExpr (e) : outermost (AttributeParam.expr e) = [e] := rfl

@[simp] theorem Attribute.outermostMk (key params span) :
    outermost (⟨key, params, span⟩ : Attribute) = outermost params := rfl

@[simp] theorem Trigger.outermostMk (positive exprs span) :
    outermost (⟨positive, exprs, span⟩ : Trigger) = exprs := rfl

@[simp] theorem Variable.outermostMk (name type whereClause as span) :
    outermost (⟨name, type, whereClause, as, span⟩ : Variable) = outermost whereClause ++ outermost as := rfl

@[simp] theorem LetVar.outermostMk (name as span) : outermost (⟨name, as, span⟩ : LetVar) = outermost as := rfl

@[simp] theorem Target.outermostName (id) : outermost (Target.name id) = [] := rfl

@[simp] theorem Target.outermostElement (span map indexes) :
    outermost (Target.element span map indexes) = outermost map ++ indexes := rfl

@[simp] theorem Call.outermostMk (isAsync isFree callee ins outs as span) :
    outermost (⟨isAsync, isFree, callee, ins, outs, as, span⟩ : Call) = ins ++ outermost as := rfl

@[simp] theorem Cmd.outermostAssign (span targets values) :
    outermost (Cmd.assign span targets values) = outermost targets ++ values := rfl

@[simp] theorem Cmd.outermostAssert (span as e) : outermost (Cmd.assert span as e) = outermost as ++ [e] := rfl

@[simp] theorem Cmd.outermostAssume (span as e) : outermost (Cmd.assume span as e) = outermost as ++ [e] := rfl

@[simp] theorem Cmd.outermostHavoc (span vars) : outermost (Cmd.havoc span vars) = [] := rfl

@[simp] theorem Cmd.outermostYield (span) : outermost (Cmd.yield span) = [] := rfl

@[simp] theorem Cmd.outermostCall (span call) : outermost (Cmd.call span call) = outermost call := rfl

@[simp] theorem Cmd.outermostParallel (span calls as) :
    outermost (Cmd.parallel span calls as) = outermost calls ++ outermost as := rfl

@[simp] theorem Transfer.outermostGoto (span labels) : outermost (Transfer.goto span labels) = [] := rfl

@[simp] theorem Transfer.outermostLeave (span) : outermost (Transfer.leave span) = [] := rfl

@[simp] theorem Transfer.outermostLeaveWith (span value) : outermost (Transfer.leaveWith span value) = [value] := rfl

@[simp] theorem Block.outermostMk (label cmds transfer span) :
    outermost (⟨label, cmds, transfer, span⟩ : Block) = outermost cmds ++ outermost transfer := rfl

end Nodes

def Expr.children : Expr → List Expr
  | .literal _ _ | .name _ _ => []
  | .old _ body => [body]
  | .apply _ _ args => args
  | .bind _ _ _ vars as ts body => outermost vars ++ outermost as ++ outermost ts ++ [body]
  | .letIn _ vars values as body => outermost vars ++ values ++ outermost as ++ [body]
  | .code _ locals blocks => outermost locals ++ outermost blocks

instance : Outermost Clause := ⟨fun c => outermost c.attributes ++ [c.condition]⟩

@[simp] theorem Clause.outermostMk (free condition as span) :
    outermost (⟨free, condition, as, span⟩ : Clause) = outermost as ++ [condition] := rfl

mutual

def StmtList.exprs : StmtList → List Expr
  | ⟨blocks, _⟩ => BigBlock.exprsAll blocks

def BigBlock.exprs : BigBlock → List Expr
  | ⟨_, _, cmds, tail⟩ => outermost cmds ++ Tail.exprs? tail

def BigBlock.exprsAll : List BigBlock → List Expr
  | [] => []
  | b :: rest => BigBlock.exprs b ++ BigBlock.exprsAll rest

def Tail.exprs? : Option Tail → List Expr
  | none => []
  | some t => Tail.exprs t

def Tail.exprs : Tail → List Expr
  | .branch command => IfCmd.exprs command
  | .loop command => WhileCmd.exprs command
  | .break _ _ => []
  | .transfer command => outermost command

def IfCmd.exprs : IfCmd → List Expr
  | ⟨guard, thenBranch, elseBranch, _⟩ =>
    outermost guard ++ StmtList.exprs thenBranch ++ ElseBranch.exprs? elseBranch

def ElseBranch.exprs? : Option ElseBranch → List Expr
  | none => []
  | some b => ElseBranch.exprs b

def ElseBranch.exprs : ElseBranch → List Expr
  | .elseIf command => IfCmd.exprs command
  | .block body => StmtList.exprs body

def WhileCmd.exprs : WhileCmd → List Expr
  | ⟨guard, invariants, body, _⟩ =>
    outermost guard ++ outermost invariants ++ StmtList.exprs body

end

instance : Outermost StmtList := ⟨StmtList.exprs⟩
instance : Outermost BigBlock := ⟨BigBlock.exprs⟩
instance : Outermost Tail := ⟨Tail.exprs⟩
instance : Outermost IfCmd := ⟨IfCmd.exprs⟩
instance : Outermost ElseBranch := ⟨ElseBranch.exprs⟩
instance : Outermost WhileCmd := ⟨WhileCmd.exprs⟩

theorem BigBlock.exprsAllEq (bs : List BigBlock) : BigBlock.exprsAll bs = outermost bs := by
  induction bs with
  | nil => rfl
  | cons b rest ih => rw [BigBlock.exprsAll, ih, outermostCons]; rfl

theorem Tail.exprsOption (t : Option Tail) : Tail.exprs? t = outermost t := by
  cases t <;> rfl

theorem ElseBranch.exprsOption (e : Option ElseBranch) : ElseBranch.exprs? e = outermost e := by
  cases e <;> rfl

section Statements

@[simp] theorem StmtList.outermostMk (blocks closing) :
    outermost (⟨blocks, closing⟩ : StmtList) = outermost blocks := by
  rw [← BigBlock.exprsAllEq]; rfl

@[simp] theorem BigBlock.outermostMk (span label cmds tail) :
    outermost (⟨span, label, cmds, tail⟩ : BigBlock) = outermost cmds ++ outermost tail := by
  rw [← Tail.exprsOption]; rfl

@[simp] theorem Tail.outermostBranch (command) :
    outermost (Tail.branch command) = outermost command := rfl

@[simp] theorem Tail.outermostLoop (command) :
    outermost (Tail.loop command) = outermost command := rfl

@[simp] theorem Tail.outermostBreak (span label) : outermost (Tail.break span label) = [] := rfl

@[simp] theorem Tail.outermostTransfer (command) :
    outermost (Tail.transfer command) = outermost command := rfl

@[simp] theorem IfCmd.outermostMk (guard thenBranch elseBranch span) :
    outermost (⟨guard, thenBranch, elseBranch, span⟩ : IfCmd) =
      outermost guard ++ outermost thenBranch ++ outermost elseBranch := by
  rw [← ElseBranch.exprsOption]; rfl

@[simp] theorem ElseBranch.outermostElseIf (command) :
    outermost (ElseBranch.elseIf command) = outermost command := rfl

@[simp] theorem ElseBranch.outermostBlock (body) :
    outermost (ElseBranch.block body) = outermost body := rfl

@[simp] theorem WhileCmd.outermostMk (guard invariants body span) :
    outermost (⟨guard, invariants, body, span⟩ : WhileCmd) =
      outermost guard ++ outermost invariants ++ outermost body := rfl

end Statements

instance : Outermost Formal := ⟨fun f => outermost f.whereClause ++ outermost f.attributes⟩

instance : Outermost Function :=
  ⟨fun f => outermost f.attributes ++ outermost f.formals ++ outermost f.result ++ outermost f.body⟩

instance : Outermost Axiom := ⟨fun a => outermost a.attributes ++ [a.condition]⟩

instance : Outermost Procedure :=
  ⟨fun p => outermost p.attributes ++ outermost p.ins ++ outermost p.outs ++ outermost p.requires ++
    outermost p.ensures⟩

instance : Outermost Implementation :=
  ⟨fun i => outermost i.attributes ++ outermost i.ins ++ outermost i.outs ++ outermost i.locals ++ outermost i.body⟩

instance : Outermost Decl where
  outermost
    | .constant c => outermost c.attributes
    | .typeConstructor t => outermost t.attributes
    | .typeSynonym t => outermost t.attributes
    | .function f => outermost f
    | .axiomatic a => outermost a
    | .global v => outermost v
    | .procedure p => outermost p
    | .implementation i => outermost i

section Declarations

@[simp] theorem Formal.outermostMk (name type whereClause incoming as span) :
    outermost (⟨name, type, whereClause, incoming, as, span⟩ : Formal) = outermost whereClause ++ outermost as := rfl

@[simp] theorem Function.outermostMk (name params formals result body as span) :
    outermost (⟨name, params, formals, result, body, as, span⟩ : Function) =
      outermost as ++ outermost formals ++ outermost result ++ outermost body := rfl

@[simp] theorem Axiom.outermostMk (condition as span) :
    outermost (⟨condition, as, span⟩ : Axiom) = outermost as ++ [condition] := rfl

@[simp] theorem Procedure.outermostMk (name params ins outs requires modifies ensures as span) :
    outermost (⟨name, params, ins, outs, requires, modifies, ensures, as, span⟩ : Procedure) =
      outermost as ++ outermost ins ++ outermost outs ++ outermost requires ++ outermost ensures := rfl

@[simp] theorem Implementation.outermostMk (name params ins outs locals body as span) :
    outermost (⟨name, params, ins, outs, locals, body, as, span⟩ : Implementation) =
      outermost as ++ outermost ins ++ outermost outs ++ outermost locals ++ outermost body := rfl

@[simp] theorem Decl.outermostConstant (c) : outermost (Decl.constant c) = outermost c.attributes := rfl

@[simp] theorem Decl.outermostTypeConstructor (t) : outermost (Decl.typeConstructor t) = outermost t.attributes := rfl

@[simp] theorem Decl.outermostTypeSynonym (t) : outermost (Decl.typeSynonym t) = outermost t.attributes := rfl

@[simp] theorem Decl.outermostFunction (f) : outermost (Decl.function f) = outermost f := rfl

@[simp] theorem Decl.outermostAxiomatic (a) : outermost (Decl.axiomatic a) = outermost a := rfl

@[simp] theorem Decl.outermostGlobal (v) : outermost (Decl.global v) = outermost v := rfl

@[simp] theorem Decl.outermostProcedure (p) : outermost (Decl.procedure p) = outermost p := rfl

@[simp] theorem Decl.outermostImplementation (i) : outermost (Decl.implementation i) = outermost i := rfl

end Declarations

end Boogie
