import Boogie.Proofs.Tree.Rows
import Boogie.Tree.Decl

/-! What holds at every node of a tree. `Checks` names a property for each sort of node; a tree passes
them when every node in it does, and every name passes that of names. -/
namespace Boogie

structure Checks where
  name : String → Prop
  ty : Ty → Prop
  expr : Expr → Prop
  attr : Attribute → Prop
  trigger : Trigger → Prop
  cmd : Cmd → Prop
  block : Block → Prop
  tail : Tail → Prop
  stmtList : StmtList → Prop
  decl : Decl → Prop

class Inspected (α : Type) where
  every : Checks → α → Prop

export Inspected (every)

section Plain

variable {α β : Type} [Inspected α] [Inspected β]

instance : Inspected Bool := ⟨fun _ _ => True⟩
instance : Inspected String := ⟨fun c n => c.name n⟩
instance : Inspected (Option α) := ⟨fun c o => ∀ a ∈ o, every c a⟩
instance : Inspected (List α) := ⟨fun c as => ∀ a ∈ as, every c a⟩
instance : Inspected (α × β) := ⟨fun c p => every c p.1 ∧ every c p.2⟩

variable {c : Checks}

@[simp] theorem everyBool (b : Bool) : every c b := trivial
@[simp] theorem everyString (n : String) : every c n ↔ c.name n := Iff.rfl
@[simp] theorem everyNone : every c (none : Option α) := nofun
@[simp] theorem everySome (a : α) : every c (some a) ↔ every c a := by simp [every]
@[simp] theorem everyPair (a : α) (b : β) : every c (a, b) ↔ every c a ∧ every c b := Iff.rfl
@[simp] theorem everyNil : every c ([] : List α) := nofun

@[simp] theorem everyCons (a : α) (as : List α) : every c (a :: as) ↔ every c a ∧ every c as := by
  simp [every]

theorem everyRows {all : List α → Prop} (nil : all [] ↔ True) (cons : ∀ a as, all (a :: as) ↔ every c a ∧ all as)
    (as : List α) : all as ↔ every c as :=
  Iff.of_eq (rowsEq (every c · ∧ ·) (propext (nil.trans (iff_true_intro everyNil).symm))
    (fun a as => propext (cons a as)) (fun a as => propext (everyCons a as)) as)

@[simp] theorem everyAppend (as bs : List α) : every c (as ++ bs) ↔ every c as ∧ every c bs := by
  simp [every, or_imp, forall_and]

@[simp] theorem everyReverse (as : List α) : every c as.reverse ↔ every c as := by simp [every]

theorem everyFlatten {as : List (List α)} (h : every c as) : every c as.flatten := by
  intro a mem
  obtain ⟨part, inside, found⟩ := List.mem_flatten.mp mem
  exact h part inside a found

theorem everyFilterMap {as : List α} {f : α → Option β} (h : every c as)
    (kept : ∀ a b, f a = some b → every c a → every c b) : every c (as.filterMap f) := by
  intro b mem
  obtain ⟨a, inside, found⟩ := List.mem_filterMap.mp mem
  exact kept a b found (h a inside)

theorem everyMap {as : List α} {f : α → β} (h : every c as) (kept : ∀ a, every c a → every c (f a)) :
    every c (as.map f) := by
  intro b mem
  obtain ⟨a, inside, rfl⟩ := List.mem_map.mp mem
  exact kept a (h a inside)

end Plain

instance : Inspected Ident := ⟨fun c id => c.name id.name⟩

mutual

def Ty.passes (c : Checks) : Ty → Prop
  | .basic span b => c.ty (.basic span b)
  | .bitVector span width => c.ty (.bitVector span width)
  | .map span ps args result =>
    c.ty (.map span ps args result) ∧ every c ps ∧ Ty.allPass c args ∧ Ty.passes c result
  | .param span n => c.ty (.param span n) ∧ c.name n
  | .named span n args => c.ty (.named span n args) ∧ c.name n ∧ Ty.allPass c args

def Ty.allPass (c : Checks) : List Ty → Prop
  | [] => True
  | t :: rest => Ty.passes c t ∧ Ty.allPass c rest

end

instance : Inspected Ty := ⟨Ty.passes⟩

theorem Ty.allPassIff (c : Checks) (ts : List Ty) : Ty.allPass c ts ↔ every c ts :=
  everyRows Iff.rfl (fun _ _ => Iff.rfl) ts

def Operator.passes (c : Checks) : Operator → Prop
  | .coerce type => every c type
  | .call function => c.name function
  | _ => True

instance : Inspected Operator := ⟨Operator.passes⟩

mutual

def Expr.passes (c : Checks) : Expr → Prop
  | .literal span v => c.expr (.literal span v)
  | .name span n => c.expr (.name span n) ∧ c.name n
  | .old span body => c.expr (.old span body) ∧ Expr.passes c body
  | .apply span op args => c.expr (.apply span op args) ∧ op.passes c ∧ Expr.allPass c args
  | .bind span binder ps vars as ts body =>
    c.expr (.bind span binder ps vars as ts body) ∧ every c ps ∧ Variable.allPass c vars ∧
      Attribute.allPass c as ∧ Trigger.allPass c ts ∧ Expr.passes c body
  | .letIn span vars values as body =>
    c.expr (.letIn span vars values as body) ∧ LetVar.allPass c vars ∧ Expr.allPass c values ∧
      Attribute.allPass c as ∧ Expr.passes c body
  | .code span locals blocks =>
    c.expr (.code span locals blocks) ∧ Variable.allPass c locals ∧ Block.allPass c blocks

def Expr.allPass (c : Checks) : List Expr → Prop
  | [] => True
  | e :: rest => Expr.passes c e ∧ Expr.allPass c rest

def Expr.optionPasses (c : Checks) : Option Expr → Prop
  | none => True
  | some e => Expr.passes c e

def AttributeParam.passes (c : Checks) : AttributeParam → Prop
  | .string _ => True
  | .expr e => Expr.passes c e

def AttributeParam.allPass (c : Checks) : List AttributeParam → Prop
  | [] => True
  | p :: rest => AttributeParam.passes c p ∧ AttributeParam.allPass c rest

def Attribute.passes (c : Checks) : Attribute → Prop
  | ⟨key, params, span⟩ => c.attr ⟨key, params, span⟩ ∧ c.name key ∧ AttributeParam.allPass c params

def Attribute.allPass (c : Checks) : List Attribute → Prop
  | [] => True
  | a :: rest => Attribute.passes c a ∧ Attribute.allPass c rest

def Trigger.passes (c : Checks) : Trigger → Prop
  | ⟨positive, exprs, span⟩ => c.trigger ⟨positive, exprs, span⟩ ∧ Expr.allPass c exprs

def Trigger.allPass (c : Checks) : List Trigger → Prop
  | [] => True
  | t :: rest => Trigger.passes c t ∧ Trigger.allPass c rest

def Variable.passes (c : Checks) : Variable → Prop
  | ⟨n, type, whereClause, as, _⟩ =>
    c.name n ∧ every c type ∧ Expr.optionPasses c whereClause ∧ Attribute.allPass c as

def Variable.allPass (c : Checks) : List Variable → Prop
  | [] => True
  | v :: rest => Variable.passes c v ∧ Variable.allPass c rest

def LetVar.passes (c : Checks) : LetVar → Prop
  | ⟨n, as, _⟩ => c.name n ∧ Attribute.allPass c as

def LetVar.allPass (c : Checks) : List LetVar → Prop
  | [] => True
  | v :: rest => LetVar.passes c v ∧ LetVar.allPass c rest

def Target.passes (c : Checks) : Target → Prop
  | .name id => every c id
  | .element _ map indexes => Target.passes c map ∧ Expr.allPass c indexes

def Target.allPass (c : Checks) : List Target → Prop
  | [] => True
  | t :: rest => Target.passes c t ∧ Target.allPass c rest

def Call.passes (c : Checks) : Call → Prop
  | ⟨_, _, callee, ins, outs, as, _⟩ =>
    every c callee ∧ Expr.allPass c ins ∧ every c outs ∧ Attribute.allPass c as

def Call.allPass (c : Checks) : List Call → Prop
  | [] => True
  | x :: rest => Call.passes c x ∧ Call.allPass c rest

def Cmd.passes (c : Checks) : Cmd → Prop
  | .assign span targets values =>
    c.cmd (.assign span targets values) ∧ Target.allPass c targets ∧ Expr.allPass c values
  | .assert span as e => c.cmd (.assert span as e) ∧ Attribute.allPass c as ∧ Expr.passes c e
  | .assume span as e => c.cmd (.assume span as e) ∧ Attribute.allPass c as ∧ Expr.passes c e
  | .havoc span vars => c.cmd (.havoc span vars) ∧ every c vars
  | .call span x => c.cmd (.call span x) ∧ Call.passes c x
  | .parallel span calls as =>
    c.cmd (.parallel span calls as) ∧ Call.allPass c calls ∧ Attribute.allPass c as
  | .yield span => c.cmd (.yield span)

def Cmd.allPass (c : Checks) : List Cmd → Prop
  | [] => True
  | x :: rest => Cmd.passes c x ∧ Cmd.allPass c rest

def Transfer.passes (c : Checks) : Transfer → Prop
  | .goto _ labels => every c labels
  | .leave _ => True
  | .leaveWith _ value => Expr.passes c value

def Block.passes (c : Checks) : Block → Prop
  | ⟨label, cmds, transfer, span⟩ =>
    c.block ⟨label, cmds, transfer, span⟩ ∧ c.name label ∧ Cmd.allPass c cmds ∧
      Transfer.passes c transfer

def Block.allPass (c : Checks) : List Block → Prop
  | [] => True
  | b :: rest => Block.passes c b ∧ Block.allPass c rest

end

instance : Inspected Expr := ⟨Expr.passes⟩
instance : Inspected AttributeParam := ⟨AttributeParam.passes⟩
instance : Inspected Attribute := ⟨Attribute.passes⟩
instance : Inspected Trigger := ⟨Trigger.passes⟩
instance : Inspected Variable := ⟨Variable.passes⟩
instance : Inspected LetVar := ⟨LetVar.passes⟩
instance : Inspected Target := ⟨Target.passes⟩
instance : Inspected Call := ⟨Call.passes⟩
instance : Inspected Cmd := ⟨Cmd.passes⟩
instance : Inspected Transfer := ⟨Transfer.passes⟩
instance : Inspected Block := ⟨Block.passes⟩

theorem Expr.allPassIff (c : Checks) (es : List Expr) : Expr.allPass c es ↔ every c es :=
  everyRows Iff.rfl (fun _ _ => Iff.rfl) es

theorem AttributeParam.allPassIff (c : Checks) (ps : List AttributeParam) : AttributeParam.allPass c ps ↔ every c ps :=
  everyRows Iff.rfl (fun _ _ => Iff.rfl) ps

theorem Attribute.allPassIff (c : Checks) (as : List Attribute) : Attribute.allPass c as ↔ every c as :=
  everyRows Iff.rfl (fun _ _ => Iff.rfl) as

theorem Trigger.allPassIff (c : Checks) (ts : List Trigger) : Trigger.allPass c ts ↔ every c ts :=
  everyRows Iff.rfl (fun _ _ => Iff.rfl) ts

theorem Variable.allPassIff (c : Checks) (vs : List Variable) : Variable.allPass c vs ↔ every c vs :=
  everyRows Iff.rfl (fun _ _ => Iff.rfl) vs

theorem LetVar.allPassIff (c : Checks) (vs : List LetVar) : LetVar.allPass c vs ↔ every c vs :=
  everyRows Iff.rfl (fun _ _ => Iff.rfl) vs

theorem Target.allPassIff (c : Checks) (ts : List Target) : Target.allPass c ts ↔ every c ts :=
  everyRows Iff.rfl (fun _ _ => Iff.rfl) ts

theorem Call.allPassIff (c : Checks) (xs : List Call) : Call.allPass c xs ↔ every c xs :=
  everyRows Iff.rfl (fun _ _ => Iff.rfl) xs

theorem Cmd.allPassIff (c : Checks) (xs : List Cmd) : Cmd.allPass c xs ↔ every c xs :=
  everyRows Iff.rfl (fun _ _ => Iff.rfl) xs

theorem Block.allPassIff (c : Checks) (bs : List Block) : Block.allPass c bs ↔ every c bs :=
  everyRows Iff.rfl (fun _ _ => Iff.rfl) bs

theorem Expr.optionPassesIff (c : Checks) (e : Option Expr) : Expr.optionPasses c e ↔ every c e := by
  cases e with
  | none => simp [Expr.optionPasses]
  | some e => rw [everySome]; rfl

section Nodes

variable {c : Checks}

@[simp] theorem everyIdent (n : String) (span : Span) : every c (⟨n, span⟩ : Ident) ↔ c.name n := Iff.rfl

@[simp] theorem Ty.everyBasic {span b} : every c (Ty.basic span b) ↔ c.ty (.basic span b) := Iff.rfl

@[simp] theorem Ty.everyBitVector {span width} :
    every c (Ty.bitVector span width) ↔ c.ty (.bitVector span width) := Iff.rfl

@[simp] theorem Ty.everyMap {span ps args result} :
    every c (Ty.map span ps args result) ↔
      c.ty (.map span ps args result) ∧ every c ps ∧ every c args ∧ every c result := by
  rw [← Ty.allPassIff]; rfl

@[simp] theorem Ty.everyParam {span n} :
    every c (Ty.param span n) ↔ c.ty (.param span n) ∧ c.name n := Iff.rfl

@[simp] theorem Ty.everyNamed {span n args} :
    every c (Ty.named span n args) ↔ c.ty (.named span n args) ∧ c.name n ∧ every c args := by
  rw [← Ty.allPassIff]; rfl

@[simp] theorem Operator.everyCoerce {type : Ty} : every c (Operator.coerce type) ↔ every c type := Iff.rfl

@[simp] theorem Operator.everyCall {n} : every c (Operator.call n) ↔ c.name n := Iff.rfl

theorem Operator.everyOther {op : Operator} (h : ∀ type, op ≠ .coerce type) (h' : ∀ n, op ≠ .call n) :
    every c op := by
  cases op with
  | coerce type => exact absurd rfl (h type)
  | call n => exact absurd rfl (h' n)
  | _ => trivial

@[simp] theorem Expr.everyLiteral {span v} : every c (Expr.literal span v) ↔ c.expr (.literal span v) := Iff.rfl

@[simp] theorem Expr.everyName {span n} :
    every c (Expr.name span n) ↔ c.expr (.name span n) ∧ c.name n := Iff.rfl

@[simp] theorem Expr.everyOld {span body} :
    every c (Expr.old span body) ↔ c.expr (.old span body) ∧ every c body := Iff.rfl

@[simp] theorem Expr.everyApply {span op args} :
    every c (Expr.apply span op args) ↔ c.expr (.apply span op args) ∧ every c op ∧ every c args := by
  rw [← Expr.allPassIff]; rfl

@[simp] theorem Expr.everyBind {span binder ps vars as ts body} :
    every c (Expr.bind span binder ps vars as ts body) ↔
      c.expr (.bind span binder ps vars as ts body) ∧ every c ps ∧ every c vars ∧ every c as ∧
        every c ts ∧ every c body := by
  rw [← Variable.allPassIff, ← Attribute.allPassIff, ← Trigger.allPassIff]; rfl

@[simp] theorem Expr.everyLetIn {span vars values as body} :
    every c (Expr.letIn span vars values as body) ↔
      c.expr (.letIn span vars values as body) ∧ every c vars ∧ every c values ∧ every c as ∧
        every c body := by
  rw [← LetVar.allPassIff, ← Expr.allPassIff, ← Attribute.allPassIff]; rfl

@[simp] theorem Expr.everyCode {span locals blocks} :
    every c (Expr.code span locals blocks) ↔
      c.expr (.code span locals blocks) ∧ every c locals ∧ every c blocks := by
  rw [← Variable.allPassIff, ← Block.allPassIff]; rfl

@[simp] theorem AttributeParam.everyString {content} : every c (AttributeParam.string content) := trivial

@[simp] theorem AttributeParam.everyExpr {e} : every c (AttributeParam.expr e) ↔ every c e := Iff.rfl

@[simp] theorem Attribute.everyMk {key params span} :
    every c (⟨key, params, span⟩ : Attribute) ↔
      c.attr ⟨key, params, span⟩ ∧ c.name key ∧ every c params := by
  rw [← AttributeParam.allPassIff]; rfl

@[simp] theorem Trigger.everyMk {positive exprs span} :
    every c (⟨positive, exprs, span⟩ : Trigger) ↔
      c.trigger ⟨positive, exprs, span⟩ ∧ every c exprs := by
  rw [← Expr.allPassIff]; rfl

@[simp] theorem Variable.everyMk {n type whereClause as span} :
    every c (⟨n, type, whereClause, as, span⟩ : Variable) ↔
      c.name n ∧ every c type ∧ every c whereClause ∧ every c as := by
  rw [← Expr.optionPassesIff, ← Attribute.allPassIff]; rfl

@[simp] theorem LetVar.everyMk {n as span} :
    every c (⟨n, as, span⟩ : LetVar) ↔ c.name n ∧ every c as := by
  rw [← Attribute.allPassIff]; rfl

@[simp] theorem Target.everyName {id} : every c (Target.name id) ↔ every c id := Iff.rfl

@[simp] theorem Target.everyElement {span map indexes} :
    every c (Target.element span map indexes) ↔ every c map ∧ every c indexes := by
  rw [← Expr.allPassIff]; rfl

@[simp] theorem Call.everyMk {isAsync isFree callee ins outs as span} :
    every c (⟨isAsync, isFree, callee, ins, outs, as, span⟩ : Call) ↔
      every c callee ∧ every c ins ∧ every c outs ∧ every c as := by
  rw [← Expr.allPassIff, ← Attribute.allPassIff]; rfl

@[simp] theorem Cmd.everyAssign {span targets values} :
    every c (Cmd.assign span targets values) ↔
      c.cmd (.assign span targets values) ∧ every c targets ∧ every c values := by
  rw [← Target.allPassIff, ← Expr.allPassIff]; rfl

@[simp] theorem Cmd.everyAssert {span as e} :
    every c (Cmd.assert span as e) ↔ c.cmd (.assert span as e) ∧ every c as ∧ every c e := by
  rw [← Attribute.allPassIff]; rfl

@[simp] theorem Cmd.everyAssume {span as e} :
    every c (Cmd.assume span as e) ↔ c.cmd (.assume span as e) ∧ every c as ∧ every c e := by
  rw [← Attribute.allPassIff]; rfl

@[simp] theorem Cmd.everyHavoc {span vars} :
    every c (Cmd.havoc span vars) ↔ c.cmd (.havoc span vars) ∧ every c vars := Iff.rfl

@[simp] theorem Cmd.everyCall {span x} :
    every c (Cmd.call span x) ↔ c.cmd (.call span x) ∧ every c x := Iff.rfl

@[simp] theorem Cmd.everyParallel {span calls as} :
    every c (Cmd.parallel span calls as) ↔ c.cmd (.parallel span calls as) ∧ every c calls ∧ every c as := by
  rw [← Call.allPassIff, ← Attribute.allPassIff]; rfl

@[simp] theorem Cmd.everyYield {span} : every c (Cmd.yield span) ↔ c.cmd (.yield span) := Iff.rfl

@[simp] theorem Transfer.everyGoto {span labels} :
    every c (Transfer.goto span labels) ↔ every c labels := Iff.rfl

@[simp] theorem Transfer.everyLeave {span} : every c (Transfer.leave span) := trivial

@[simp] theorem Transfer.everyLeaveWith {span value} :
    every c (Transfer.leaveWith span value) ↔ every c value := Iff.rfl

@[simp] theorem Block.everyMk {label cmds transfer span} :
    every c (⟨label, cmds, transfer, span⟩ : Block) ↔
      c.block ⟨label, cmds, transfer, span⟩ ∧ c.name label ∧ every c cmds ∧ every c transfer := by
  rw [← Cmd.allPassIff]; rfl

end Nodes

instance : Inspected Clause := ⟨fun c x => every c x.condition ∧ every c x.attributes⟩

mutual

def StmtList.passes (c : Checks) : StmtList → Prop
  | ⟨blocks, closing⟩ => c.stmtList ⟨blocks, closing⟩ ∧ BigBlock.allPass c blocks

def BigBlock.passes (c : Checks) : BigBlock → Prop
  | ⟨_, label, cmds, tail⟩ => every c label ∧ every c cmds ∧ Tail.optionPasses c tail

def BigBlock.allPass (c : Checks) : List BigBlock → Prop
  | [] => True
  | b :: rest => BigBlock.passes c b ∧ BigBlock.allPass c rest

def Tail.optionPasses (c : Checks) : Option Tail → Prop
  | none => True
  | some t => Tail.passes c t

def Tail.passes (c : Checks) : Tail → Prop
  | .branch command => c.tail (.branch command) ∧ IfCmd.passes c command
  | .loop command => c.tail (.loop command) ∧ WhileCmd.passes c command
  | .break span label => c.tail (.break span label) ∧ every c label
  | .transfer command => c.tail (.transfer command) ∧ every c command

def IfCmd.passes (c : Checks) : IfCmd → Prop
  | ⟨guard, thenBranch, elseBranch, _⟩ =>
    every c guard ∧ StmtList.passes c thenBranch ∧ ElseBranch.optionPasses c elseBranch

def ElseBranch.optionPasses (c : Checks) : Option ElseBranch → Prop
  | none => True
  | some b => ElseBranch.passes c b

def ElseBranch.passes (c : Checks) : ElseBranch → Prop
  | .elseIf command => IfCmd.passes c command
  | .block body => StmtList.passes c body

def WhileCmd.passes (c : Checks) : WhileCmd → Prop
  | ⟨guard, invariants, body, _⟩ => every c guard ∧ every c invariants ∧ StmtList.passes c body

end

instance : Inspected StmtList := ⟨StmtList.passes⟩
instance : Inspected BigBlock := ⟨BigBlock.passes⟩
instance : Inspected Tail := ⟨Tail.passes⟩
instance : Inspected IfCmd := ⟨IfCmd.passes⟩
instance : Inspected ElseBranch := ⟨ElseBranch.passes⟩
instance : Inspected WhileCmd := ⟨WhileCmd.passes⟩

theorem BigBlock.allPassIff (c : Checks) (bs : List BigBlock) : BigBlock.allPass c bs ↔ every c bs :=
  everyRows Iff.rfl (fun _ _ => Iff.rfl) bs

theorem Tail.optionPassesIff (c : Checks) (t : Option Tail) : Tail.optionPasses c t ↔ every c t := by
  cases t with
  | none => simp [Tail.optionPasses]
  | some t => rw [everySome]; rfl

theorem ElseBranch.optionPassesIff (c : Checks) (b : Option ElseBranch) :
    ElseBranch.optionPasses c b ↔ every c b := by
  cases b with
  | none => simp [ElseBranch.optionPasses]
  | some b => rw [everySome]; rfl

section Statements

variable {c : Checks}

@[simp] theorem Clause.everyMk {free condition as span} :
    every c (⟨free, condition, as, span⟩ : Clause) ↔ every c condition ∧ every c as := Iff.rfl

@[simp] theorem StmtList.everyMk {blocks closing} :
    every c (⟨blocks, closing⟩ : StmtList) ↔ c.stmtList ⟨blocks, closing⟩ ∧ every c blocks := by
  rw [← BigBlock.allPassIff]; rfl

@[simp] theorem BigBlock.everyMk {span label cmds tail} :
    every c (⟨span, label, cmds, tail⟩ : BigBlock) ↔ every c label ∧ every c cmds ∧ every c tail := by
  rw [← Tail.optionPassesIff]; rfl

@[simp] theorem Tail.everyBranch {command} :
    every c (Tail.branch command) ↔ c.tail (.branch command) ∧ every c command := Iff.rfl

@[simp] theorem Tail.everyLoop {command} :
    every c (Tail.loop command) ↔ c.tail (.loop command) ∧ every c command := Iff.rfl

@[simp] theorem Tail.everyBreak {span label} :
    every c (Tail.break span label) ↔ c.tail (.break span label) ∧ every c label := Iff.rfl

@[simp] theorem Tail.everyTransfer {command} :
    every c (Tail.transfer command) ↔ c.tail (.transfer command) ∧ every c command := Iff.rfl

@[simp] theorem IfCmd.everyMk {guard thenBranch elseBranch span} :
    every c (⟨guard, thenBranch, elseBranch, span⟩ : IfCmd) ↔
      every c guard ∧ every c thenBranch ∧ every c elseBranch := by
  rw [← ElseBranch.optionPassesIff]; rfl

@[simp] theorem ElseBranch.everyElseIf {command} :
    every c (ElseBranch.elseIf command) ↔ every c command := Iff.rfl

@[simp] theorem ElseBranch.everyBlock {body} : every c (ElseBranch.block body) ↔ every c body := Iff.rfl

@[simp] theorem WhileCmd.everyMk {guard invariants body span} :
    every c (⟨guard, invariants, body, span⟩ : WhileCmd) ↔
      every c guard ∧ every c invariants ∧ every c body := Iff.rfl

end Statements

instance : Inspected Formal :=
  ⟨fun c f => every c f.name ∧ every c f.type ∧ every c f.whereClause ∧ every c f.attributes⟩

instance : Inspected Parent := ⟨fun c p => every c p.ident⟩

instance : Inspected Constant :=
  ⟨fun c x => c.name x.name ∧ every c x.type ∧ every c x.parents ∧ every c x.attributes⟩

instance : Inspected TypeConstructor := ⟨fun c t => c.name t.name ∧ every c t.attributes⟩

instance : Inspected TypeSynonym :=
  ⟨fun c t => c.name t.name ∧ every c t.params ∧ every c t.body ∧ every c t.attributes⟩

instance : Inspected Function :=
  ⟨fun c f => c.name f.name ∧ every c f.params ∧ every c f.formals ∧ every c f.result ∧
    every c f.body ∧ every c f.attributes⟩

instance : Inspected Axiom := ⟨fun c a => every c a.condition ∧ every c a.attributes⟩

instance : Inspected Procedure :=
  ⟨fun c p => c.name p.name ∧ every c p.params ∧ every c p.ins ∧ every c p.outs ∧ every c p.requires ∧
    every c p.modifies ∧ every c p.ensures ∧ every c p.attributes⟩

instance : Inspected Implementation :=
  ⟨fun c i => c.name i.name ∧ every c i.params ∧ every c i.ins ∧ every c i.outs ∧ every c i.locals ∧
    every c i.body ∧ every c i.attributes⟩

def Decl.passes (c : Checks) : Decl → Prop
  | .constant x => every c x
  | .typeConstructor t => every c t
  | .typeSynonym t => every c t
  | .function f => every c f
  | .axiomatic a => every c a
  | .global v => every c v
  | .procedure p => every c p
  | .implementation i => every c i

instance : Inspected Decl := ⟨fun c d => c.decl d ∧ d.passes c⟩

instance : Inspected Program := ⟨fun c p => every c p.decls⟩

section Declarations

variable {c : Checks}

@[simp] theorem everyFormal {n type whereClause incoming as span} :
    every c (⟨n, type, whereClause, incoming, as, span⟩ : Formal) ↔
      every c n ∧ every c type ∧ every c whereClause ∧ every c as := Iff.rfl

@[simp] theorem everyParent {id unique} : every c (⟨id, unique⟩ : Parent) ↔ every c id := Iff.rfl

end Declarations

def Ty.parts (c : Checks) : Ty → Prop
  | .basic _ _ | .bitVector _ _ => True
  | .map _ ps args result => every c ps ∧ every c args ∧ every c result
  | .param _ n => c.name n
  | .named _ n args => c.name n ∧ every c args

def Expr.parts (c : Checks) : Expr → Prop
  | .literal _ _ => True
  | .name _ n => c.name n
  | .old _ body => every c body
  | .apply _ op args => every c op ∧ every c args
  | .bind _ _ ps vars as ts body => every c ps ∧ every c vars ∧ every c as ∧ every c ts ∧ every c body
  | .letIn _ vars values as body => every c vars ∧ every c values ∧ every c as ∧ every c body
  | .code _ locals blocks => every c locals ∧ every c blocks

structure Checks.Together (c c' d : Checks) : Prop where
  name : ∀ n, c.name n → c'.name n → d.name n
  ty : ∀ t, c.ty t → c'.ty t → t.parts d → d.ty t
  expr : ∀ e, c.expr e → c'.expr e → e.parts d → d.expr e
  attr : ∀ a, every c a → every c' a → d.attr a
  trigger : ∀ t, every c t → every c' t → d.trigger t
  cmd : ∀ x, c.cmd x → c'.cmd x → d.cmd x
  block : ∀ b, c.block b → c'.block b → d.block b
  tail : ∀ t, c.tail t → c'.tail t → d.tail t
  stmtList : ∀ l, c.stmtList l → c'.stmtList l → d.stmtList l
  decl : ∀ x, c.decl x → c'.decl x → d.decl x

section Together

variable {c c' d : Checks}

theorem everyListBoth {α : Type} [Inspected α] (h : ∀ a : α, every c a → every c' a → every d a) {as : List α}
    (pass : every c as) (pass' : every c' as) : every d as := fun a mem => h a (pass a mem) (pass' a mem)

theorem everyOptionBoth {α : Type} [Inspected α] (h : ∀ a : α, every c a → every c' a → every d a) {o : Option α}
    (pass : every c o) (pass' : every c' o) : every d o := fun a mem => h a (pass a mem) (pass' a mem)

theorem Ident.both (h : c.Together c' d) (id : Ident) (pass : every c id) (pass' : every c' id) : every d id :=
  h.name _ pass pass'

mutual

theorem Ty.both (h : c.Together c' d) : ∀ t, Ty.passes c t → Ty.passes c' t → Ty.passes d t
  | .basic _ _, pass, pass' => h.ty _ pass pass' trivial
  | .bitVector _ _, pass, pass' => h.ty _ pass pass' trivial
  | .map _ _ args result, ⟨here, ps, rest, last⟩, ⟨here', ps', rest', last'⟩ =>
    have ofPs := everyListBoth (Ident.both h) ps ps'
    have ofArgs := Ty.allBoth h args rest rest'
    have ofResult := Ty.both h result last last'
    ⟨h.ty _ here here' ⟨ofPs, (Ty.allPassIff d args).mp ofArgs, ofResult⟩, ofPs, ofArgs, ofResult⟩
  | .param _ _, ⟨here, n⟩, ⟨here', n'⟩ => ⟨h.ty _ here here' (h.name _ n n'), h.name _ n n'⟩
  | .named _ _ args, ⟨here, n, rest⟩, ⟨here', n', rest'⟩ =>
    have ofArgs := Ty.allBoth h args rest rest'
    ⟨h.ty _ here here' ⟨h.name _ n n', (Ty.allPassIff d args).mp ofArgs⟩, h.name _ n n', ofArgs⟩

theorem Ty.allBoth (h : c.Together c' d) : ∀ ts, Ty.allPass c ts → Ty.allPass c' ts → Ty.allPass d ts
  | [], _, _ => trivial
  | t :: rest, ⟨first, more⟩, ⟨first', more'⟩ => ⟨Ty.both h t first first', Ty.allBoth h rest more more'⟩

end

theorem Operator.both (h : c.Together c' d) : ∀ op : Operator, op.passes c → op.passes c' → op.passes d
  | .coerce type, pass, pass' => Ty.both h type pass pass'
  | .call _, pass, pass' => h.name _ pass pass'
  | .binary _, _, _ | .unary _, _, _ | .select _, _, _ | .store _, _, _ | .ifThenElse, _, _ | .convert _, _, _
  | .concat, _, _ | .extract _ _, _, _ => trivial

mutual

theorem Expr.both (h : c.Together c' d) : ∀ e, Expr.passes c e → Expr.passes c' e → Expr.passes d e
  | .literal _ _, pass, pass' => h.expr _ pass pass' trivial
  | .name _ _, ⟨here, n⟩, ⟨here', n'⟩ => ⟨h.expr _ here here' (h.name _ n n'), h.name _ n n'⟩
  | .old _ body, ⟨here, rest⟩, ⟨here', rest'⟩ =>
    have ofBody := Expr.both h body rest rest'
    ⟨h.expr _ here here' ofBody, ofBody⟩
  | .apply _ op args, ⟨here, ofOp, rest⟩, ⟨here', ofOp', rest'⟩ =>
    have ofOp := op.both h ofOp ofOp'
    have ofArgs := Expr.allBoth h args rest rest'
    ⟨h.expr _ here here' ⟨ofOp, (Expr.allPassIff d args).mp ofArgs⟩, ofOp, ofArgs⟩
  | .bind _ _ _ vars as ts body, ⟨here, ps, ofVars, ofAs, ofTs, rest⟩, ⟨here', ps', ofVars', ofAs', ofTs', rest'⟩ =>
    have ofPs := everyListBoth (Ident.both h) ps ps'
    have ofVars := Variable.allBoth h vars ofVars ofVars'
    have ofAs := Attribute.allBoth h as ofAs ofAs'
    have ofTs := Trigger.allBoth h ts ofTs ofTs'
    have ofBody := Expr.both h body rest rest'
    have parts := ⟨ofPs, (Variable.allPassIff d vars).mp ofVars, (Attribute.allPassIff d as).mp ofAs,
      (Trigger.allPassIff d ts).mp ofTs, ofBody⟩
    ⟨h.expr _ here here' parts, ofPs, ofVars, ofAs, ofTs, ofBody⟩
  | .letIn _ vars values as body, ⟨here, ofVars, ofValues, ofAs, rest⟩, ⟨here', ofVars', ofValues', ofAs', rest'⟩ =>
    have ofVars := LetVar.allBoth h vars ofVars ofVars'
    have ofValues := Expr.allBoth h values ofValues ofValues'
    have ofAs := Attribute.allBoth h as ofAs ofAs'
    have ofBody := Expr.both h body rest rest'
    have parts := ⟨(LetVar.allPassIff d vars).mp ofVars, (Expr.allPassIff d values).mp ofValues,
      (Attribute.allPassIff d as).mp ofAs, ofBody⟩
    ⟨h.expr _ here here' parts, ofVars, ofValues, ofAs, ofBody⟩
  | .code _ locals blocks, ⟨here, ofLocals, rest⟩, ⟨here', ofLocals', rest'⟩ =>
    have ofLocals := Variable.allBoth h locals ofLocals ofLocals'
    have ofBlocks := Block.allBoth h blocks rest rest'
    have parts := ⟨(Variable.allPassIff d locals).mp ofLocals, (Block.allPassIff d blocks).mp ofBlocks⟩
    ⟨h.expr _ here here' parts, ofLocals, ofBlocks⟩

theorem Expr.allBoth (h : c.Together c' d) : ∀ es, Expr.allPass c es → Expr.allPass c' es → Expr.allPass d es
  | [], _, _ => trivial
  | e :: rest, ⟨first, more⟩, ⟨first', more'⟩ => ⟨Expr.both h e first first', Expr.allBoth h rest more more'⟩

theorem Expr.optionBoth (h : c.Together c' d) :
    ∀ e, Expr.optionPasses c e → Expr.optionPasses c' e → Expr.optionPasses d e
  | none, _, _ => trivial
  | some e, pass, pass' => Expr.both h e pass pass'

theorem AttributeParam.both (h : c.Together c' d) :
    ∀ p, AttributeParam.passes c p → AttributeParam.passes c' p → AttributeParam.passes d p
  | .string _, _, _ => trivial
  | .expr e, pass, pass' => Expr.both h e pass pass'

theorem AttributeParam.allBoth (h : c.Together c' d) :
    ∀ ps, AttributeParam.allPass c ps → AttributeParam.allPass c' ps → AttributeParam.allPass d ps
  | [], _, _ => trivial
  | p :: rest, ⟨first, more⟩, ⟨first', more'⟩ =>
    ⟨AttributeParam.both h p first first', AttributeParam.allBoth h rest more more'⟩

theorem Attribute.both (h : c.Together c' d) :
    ∀ a, Attribute.passes c a → Attribute.passes c' a → Attribute.passes d a
  | ⟨_, params, _⟩, pass, pass' =>
    have ⟨_, n, rest⟩ := pass
    have ⟨_, n', rest'⟩ := pass'
    ⟨h.attr _ pass pass', h.name _ n n', AttributeParam.allBoth h params rest rest'⟩

theorem Attribute.allBoth (h : c.Together c' d) :
    ∀ as, Attribute.allPass c as → Attribute.allPass c' as → Attribute.allPass d as
  | [], _, _ => trivial
  | a :: rest, ⟨first, more⟩, ⟨first', more'⟩ =>
    ⟨Attribute.both h a first first', Attribute.allBoth h rest more more'⟩

theorem Trigger.both (h : c.Together c' d) : ∀ t, Trigger.passes c t → Trigger.passes c' t → Trigger.passes d t
  | ⟨_, exprs, _⟩, pass, pass' => ⟨h.trigger _ pass pass', Expr.allBoth h exprs pass.2 pass'.2⟩

theorem Trigger.allBoth (h : c.Together c' d) :
    ∀ ts, Trigger.allPass c ts → Trigger.allPass c' ts → Trigger.allPass d ts
  | [], _, _ => trivial
  | t :: rest, ⟨first, more⟩, ⟨first', more'⟩ => ⟨Trigger.both h t first first', Trigger.allBoth h rest more more'⟩

theorem Variable.both (h : c.Together c' d) : ∀ v, Variable.passes c v → Variable.passes c' v → Variable.passes d v
  | ⟨_, type, whereClause, as, _⟩, ⟨n, ofType, ofWhere, ofAs⟩, ⟨n', ofType', ofWhere', ofAs'⟩ =>
    ⟨h.name _ n n', type.both h ofType ofType', Expr.optionBoth h whereClause ofWhere ofWhere',
      Attribute.allBoth h as ofAs ofAs'⟩

theorem Variable.allBoth (h : c.Together c' d) :
    ∀ vs, Variable.allPass c vs → Variable.allPass c' vs → Variable.allPass d vs
  | [], _, _ => trivial
  | v :: rest, ⟨first, more⟩, ⟨first', more'⟩ => ⟨Variable.both h v first first', Variable.allBoth h rest more more'⟩

theorem LetVar.both (h : c.Together c' d) : ∀ v, LetVar.passes c v → LetVar.passes c' v → LetVar.passes d v
  | ⟨_, as, _⟩, ⟨n, ofAs⟩, ⟨n', ofAs'⟩ => ⟨h.name _ n n', Attribute.allBoth h as ofAs ofAs'⟩

theorem LetVar.allBoth (h : c.Together c' d) : ∀ vs, LetVar.allPass c vs → LetVar.allPass c' vs → LetVar.allPass d vs
  | [], _, _ => trivial
  | v :: rest, ⟨first, more⟩, ⟨first', more'⟩ => ⟨LetVar.both h v first first', LetVar.allBoth h rest more more'⟩

theorem Target.both (h : c.Together c' d) : ∀ t, Target.passes c t → Target.passes c' t → Target.passes d t
  | .name id, pass, pass' => id.both h pass pass'
  | .element _ map indexes, ⟨ofMap, rest⟩, ⟨ofMap', rest'⟩ =>
    ⟨Target.both h map ofMap ofMap', Expr.allBoth h indexes rest rest'⟩

theorem Target.allBoth (h : c.Together c' d) : ∀ ts, Target.allPass c ts → Target.allPass c' ts → Target.allPass d ts
  | [], _, _ => trivial
  | t :: rest, ⟨first, more⟩, ⟨first', more'⟩ => ⟨Target.both h t first first', Target.allBoth h rest more more'⟩

theorem Call.both (h : c.Together c' d) : ∀ x, Call.passes c x → Call.passes c' x → Call.passes d x
  | ⟨_, _, callee, ins, _, as, _⟩, ⟨ofCallee, ofIns, ofOuts, ofAs⟩, ⟨ofCallee', ofIns', ofOuts', ofAs'⟩ =>
    ⟨callee.both h ofCallee ofCallee', Expr.allBoth h ins ofIns ofIns', everyListBoth (Ident.both h) ofOuts ofOuts',
      Attribute.allBoth h as ofAs ofAs'⟩

theorem Call.allBoth (h : c.Together c' d) : ∀ xs, Call.allPass c xs → Call.allPass c' xs → Call.allPass d xs
  | [], _, _ => trivial
  | x :: rest, ⟨first, more⟩, ⟨first', more'⟩ => ⟨Call.both h x first first', Call.allBoth h rest more more'⟩

theorem Cmd.both (h : c.Together c' d) : ∀ x, Cmd.passes c x → Cmd.passes c' x → Cmd.passes d x
  | .assign _ targets values, ⟨here, ofTargets, rest⟩, ⟨here', ofTargets', rest'⟩ =>
    ⟨h.cmd _ here here', Target.allBoth h targets ofTargets ofTargets', Expr.allBoth h values rest rest'⟩
  | .assert _ as e, ⟨here, ofAs, rest⟩, ⟨here', ofAs', rest'⟩ =>
    ⟨h.cmd _ here here', Attribute.allBoth h as ofAs ofAs', Expr.both h e rest rest'⟩
  | .assume _ as e, ⟨here, ofAs, rest⟩, ⟨here', ofAs', rest'⟩ =>
    ⟨h.cmd _ here here', Attribute.allBoth h as ofAs ofAs', Expr.both h e rest rest'⟩
  | .havoc _ _, ⟨here, vars⟩, ⟨here', vars'⟩ => ⟨h.cmd _ here here', everyListBoth (Ident.both h) vars vars'⟩
  | .call _ x, ⟨here, rest⟩, ⟨here', rest'⟩ => ⟨h.cmd _ here here', Call.both h x rest rest'⟩
  | .parallel _ calls as, ⟨here, ofCalls, ofAs⟩, ⟨here', ofCalls', ofAs'⟩ =>
    ⟨h.cmd _ here here', Call.allBoth h calls ofCalls ofCalls', Attribute.allBoth h as ofAs ofAs'⟩
  | .yield _, pass, pass' => h.cmd _ pass pass'

theorem Cmd.allBoth (h : c.Together c' d) : ∀ xs, Cmd.allPass c xs → Cmd.allPass c' xs → Cmd.allPass d xs
  | [], _, _ => trivial
  | x :: rest, ⟨first, more⟩, ⟨first', more'⟩ => ⟨Cmd.both h x first first', Cmd.allBoth h rest more more'⟩

theorem Transfer.both (h : c.Together c' d) : ∀ t, Transfer.passes c t → Transfer.passes c' t → Transfer.passes d t
  | .goto _ _, labels, labels' => everyListBoth (Ident.both h) labels labels'
  | .leave _, _, _ => trivial
  | .leaveWith _ value, pass, pass' => Expr.both h value pass pass'

theorem Block.both (h : c.Together c' d) : ∀ b, Block.passes c b → Block.passes c' b → Block.passes d b
  | ⟨_, cmds, transfer, _⟩, ⟨here, n, ofCmds, rest⟩, ⟨here', n', ofCmds', rest'⟩ =>
    ⟨h.block _ here here', h.name _ n n', Cmd.allBoth h cmds ofCmds ofCmds', Transfer.both h transfer rest rest'⟩

theorem Block.allBoth (h : c.Together c' d) : ∀ bs, Block.allPass c bs → Block.allPass c' bs → Block.allPass d bs
  | [], _, _ => trivial
  | b :: rest, ⟨first, more⟩, ⟨first', more'⟩ => ⟨Block.both h b first first', Block.allBoth h rest more more'⟩

end

theorem attributesBoth (h : c.Together c' d) {as : List Attribute} (pass : every c as) (pass' : every c' as) :
    every d as :=
  everyListBoth (Attribute.both h) pass pass'

theorem Clause.both (h : c.Together c' d) (x : Clause) (pass : every c x) (pass' : every c' x) : every d x :=
  ⟨Expr.both h _ pass.1 pass'.1, attributesBoth h pass.2 pass'.2⟩

theorem everyLabelBoth (h : c.Together c' d) {label : Option String} (pass : every c label) (pass' : every c' label) :
    every d label :=
  everyOptionBoth h.name pass pass'

mutual

theorem StmtList.both (h : c.Together c' d) : ∀ l, StmtList.passes c l → StmtList.passes c' l → StmtList.passes d l
  | ⟨blocks, _⟩, ⟨here, rest⟩, ⟨here', rest'⟩ => ⟨h.stmtList _ here here', BigBlock.allBoth h blocks rest rest'⟩

theorem BigBlock.both (h : c.Together c' d) : ∀ b, BigBlock.passes c b → BigBlock.passes c' b → BigBlock.passes d b
  | ⟨_, _, _, tail⟩, ⟨label, cmds, rest⟩, ⟨label', cmds', rest'⟩ =>
    ⟨everyLabelBoth h label label', everyListBoth (Cmd.both h) cmds cmds', Tail.optionBoth h tail rest rest'⟩

theorem BigBlock.allBoth (h : c.Together c' d) :
    ∀ bs, BigBlock.allPass c bs → BigBlock.allPass c' bs → BigBlock.allPass d bs
  | [], _, _ => trivial
  | b :: rest, ⟨first, more⟩, ⟨first', more'⟩ => ⟨BigBlock.both h b first first', BigBlock.allBoth h rest more more'⟩

theorem Tail.optionBoth (h : c.Together c' d) :
    ∀ t, Tail.optionPasses c t → Tail.optionPasses c' t → Tail.optionPasses d t
  | none, _, _ => trivial
  | some t, pass, pass' => Tail.both h t pass pass'

theorem Tail.both (h : c.Together c' d) : ∀ t, Tail.passes c t → Tail.passes c' t → Tail.passes d t
  | .branch command, ⟨here, rest⟩, ⟨here', rest'⟩ => ⟨h.tail _ here here', IfCmd.both h command rest rest'⟩
  | .loop command, ⟨here, rest⟩, ⟨here', rest'⟩ => ⟨h.tail _ here here', WhileCmd.both h command rest rest'⟩
  | .break _ _, ⟨here, label⟩, ⟨here', label'⟩ => ⟨h.tail _ here here', everyLabelBoth h label label'⟩
  | .transfer command, ⟨here, rest⟩, ⟨here', rest'⟩ => ⟨h.tail _ here here', Transfer.both h command rest rest'⟩

theorem IfCmd.both (h : c.Together c' d) : ∀ x, IfCmd.passes c x → IfCmd.passes c' x → IfCmd.passes d x
  | ⟨_, thenBranch, elseBranch, _⟩, ⟨guard, ofThen, ofElse⟩, ⟨guard', ofThen', ofElse'⟩ =>
    ⟨everyOptionBoth (Expr.both h) guard guard', StmtList.both h thenBranch ofThen ofThen',
      ElseBranch.optionBoth h elseBranch ofElse ofElse'⟩

theorem ElseBranch.optionBoth (h : c.Together c' d) :
    ∀ b, ElseBranch.optionPasses c b → ElseBranch.optionPasses c' b → ElseBranch.optionPasses d b
  | none, _, _ => trivial
  | some b, pass, pass' => ElseBranch.both h b pass pass'

theorem ElseBranch.both (h : c.Together c' d) :
    ∀ b, ElseBranch.passes c b → ElseBranch.passes c' b → ElseBranch.passes d b
  | .elseIf command, pass, pass' => IfCmd.both h command pass pass'
  | .block body, pass, pass' => StmtList.both h body pass pass'

theorem WhileCmd.both (h : c.Together c' d) : ∀ x, WhileCmd.passes c x → WhileCmd.passes c' x → WhileCmd.passes d x
  | ⟨_, _, body, _⟩, ⟨guard, invariants, rest⟩, ⟨guard', invariants', rest'⟩ =>
    ⟨everyOptionBoth (Expr.both h) guard guard', everyListBoth (Clause.both h) invariants invariants',
      StmtList.both h body rest rest'⟩

end

theorem Formal.both (h : c.Together c' d) (f : Formal) (pass : every c f) (pass' : every c' f) : every d f := by
  obtain ⟨n, type, whereClause, as⟩ := pass
  obtain ⟨n', type', whereClause', as'⟩ := pass'
  exact ⟨everyLabelBoth h n n', f.type.both h type type', everyOptionBoth (Expr.both h) whereClause whereClause',
    attributesBoth h as as'⟩

theorem Decl.both (h : c.Together c' d) (x : Decl) (pass : every c x) (pass' : every c' x) : every d x := by
  have names {ps : List Ident} : every c ps → every c' ps → every d ps := everyListBoth (Ident.both h)
  have formals {fs : List Formal} : every c fs → every c' fs → every d fs := everyListBoth (Formal.both h)
  refine ⟨h.decl _ pass.1 pass'.1, ?_⟩
  have rest := pass.2
  have rest' := pass'.2
  cases x with
  | constant x =>
    obtain ⟨n, type, parents, as⟩ := rest
    obtain ⟨n', type', parents', as'⟩ := rest'
    exact ⟨h.name _ n n', x.type.both h type type',
      everyOptionBoth (fun _ => everyListBoth fun p => p.ident.both h) parents parents', attributesBoth h as as'⟩
  | typeConstructor t => exact ⟨h.name _ rest.1 rest'.1, attributesBoth h rest.2 rest'.2⟩
  | typeSynonym t =>
    obtain ⟨n, ps, body, as⟩ := rest
    obtain ⟨n', ps', body', as'⟩ := rest'
    exact ⟨h.name _ n n', names ps ps', t.body.both h body body', attributesBoth h as as'⟩
  | function f =>
    obtain ⟨n, ps, fs, result, body, as⟩ := rest
    obtain ⟨n', ps', fs', result', body', as'⟩ := rest'
    exact ⟨h.name _ n n', names ps ps', formals fs fs', f.result.both h result result',
      everyOptionBoth (Expr.both h) body body', attributesBoth h as as'⟩
  | axiomatic a => exact ⟨Expr.both h _ rest.1 rest'.1, attributesBoth h rest.2 rest'.2⟩
  | global v => exact Variable.both h v rest rest'
  | procedure p =>
    obtain ⟨n, ps, ins, outs, requires, modifies, ensures, as⟩ := rest
    obtain ⟨n', ps', ins', outs', requires', modifies', ensures', as'⟩ := rest'
    exact ⟨h.name _ n n', names ps ps', formals ins ins', formals outs outs',
      everyListBoth (Clause.both h) requires requires',
      names modifies modifies', everyListBoth (Clause.both h) ensures ensures', attributesBoth h as as'⟩
  | implementation i =>
    obtain ⟨n, ps, ins, outs, locals, body, as⟩ := rest
    obtain ⟨n', ps', ins', outs', locals', body', as'⟩ := rest'
    exact ⟨h.name _ n n', names ps ps', formals ins ins', formals outs outs',
      everyListBoth (Variable.both h) locals locals',
      i.body.both h body body', attributesBoth h as as'⟩

theorem Program.both (h : c.Together c' d) (p : Program) (pass : every c p) (pass' : every c' p) : every d p :=
  everyListBoth (Decl.both h) pass pass'

end Together

structure Checks.Implies (c d : Checks) : Prop where
  name : ∀ n, c.name n → d.name n
  ty : ∀ t, c.ty t → t.parts d → d.ty t
  expr : ∀ e, c.expr e → e.parts d → d.expr e
  attr : ∀ a, c.attr a → d.attr a
  trigger : ∀ t, c.trigger t → d.trigger t
  cmd : ∀ x, c.cmd x → d.cmd x
  block : ∀ b, c.block b → d.block b
  tail : ∀ t, c.tail t → d.tail t
  stmtList : ∀ l, c.stmtList l → d.stmtList l
  decl : ∀ x, c.decl x → d.decl x

section Weaker

variable {c d : Checks}

theorem Checks.Implies.together (h : c.Implies d) : c.Together c d where
  name n ok _ := h.name n ok
  ty t ok _ := h.ty t ok
  expr e ok _ := h.expr e ok
  attr | ⟨_, _, _⟩, ok, _ => h.attr _ ok.1
  trigger | ⟨_, _, _⟩, ok, _ => h.trigger _ ok.1
  cmd x ok _ := h.cmd x ok
  block b ok _ := h.block b ok
  tail t ok _ := h.tail t ok
  stmtList l ok _ := h.stmtList l ok
  decl x ok _ := h.decl x ok

theorem Program.imp (h : c.Implies d) (p : Program) (pass : every c p) : every d p := p.both h.together pass pass

end Weaker

end Boogie
