import Boogie.Proofs.Tree.Rows
import Boogie.Tree.Decl

/-! Trees with their spans changed. Two trees are alike under a change when it makes them equal; under
the change that forgets every span they are equal up to spans. -/
namespace Boogie

class Spanned (α : Type) where
  respan : (Span → Span) → α → α

export Spanned (respan)

section Plain

variable {α β : Type} [Spanned α] [Spanned β]

instance : Spanned Bool := ⟨fun _ b => b⟩
instance : Spanned String := ⟨fun _ s => s⟩
instance : Spanned (Option α) := ⟨fun f => Option.map (respan f)⟩
instance : Spanned (List α) := ⟨fun f => List.map (respan f)⟩
instance : Spanned (α × β) := ⟨fun f p => (respan f p.1, respan f p.2)⟩

@[simp] theorem respanBool (f : Span → Span) (b : Bool) : respan f b = b := rfl
@[simp] theorem respanString (f : Span → Span) (s : String) : respan f s = s := rfl
@[simp] theorem respanNone (f : Span → Span) : respan f (none : Option α) = none := rfl
@[simp] theorem respanSome (f : Span → Span) (a : α) : respan f (some a) = some (respan f a) := rfl
@[simp] theorem respanPair (f : Span → Span) (a : α) (b : β) :
    respan f (a, b) = (respan f a, respan f b) := rfl
@[simp] theorem respanNil (f : Span → Span) : respan f ([] : List α) = [] := rfl
@[simp] theorem respanCons (f : Span → Span) (a : α) (as : List α) :
    respan f (a :: as) = respan f a :: respan f as := rfl

theorem respanRows {f : Span → Span} {all : List α → List α} (nil : all [] = [])
    (cons : ∀ a as, all (a :: as) = respan f a :: all as) (as : List α) : all as = respan f as :=
  rowsEq (respan f · :: ·) nil cons (fun _ _ => rfl) as

theorem respanList (f : Span → Span) (as : List α) : respan f as = as.map (respan f) := rfl

@[simp] theorem respanAppend (f : Span → Span) (as bs : List α) :
    respan f (as ++ bs) = respan f as ++ respan f bs := List.map_append

@[simp] theorem respanReverse (f : Span → Span) (as : List α) :
    respan f as.reverse = (respan f as).reverse := List.map_reverse

@[simp] theorem respanLength (f : Span → Span) (as : List α) : (respan f as).length = as.length :=
  List.length_map _

end Plain

instance : Spanned Ident := ⟨fun f id => ⟨id.name, f id.span⟩⟩

mutual

def Ty.withSpans (f : Span → Span) : Ty → Ty
  | .basic span b => .basic (f span) b
  | .bitVector span width => .bitVector (f span) width
  | .map span ps args result =>
    .map (f span) (respan f ps) (Ty.withSpansAll f args) (Ty.withSpans f result)
  | .param span n => .param (f span) n
  | .named span n args => .named (f span) n (Ty.withSpansAll f args)

def Ty.withSpansAll (f : Span → Span) : List Ty → List Ty
  | [] => []
  | t :: rest => Ty.withSpans f t :: Ty.withSpansAll f rest

end

instance : Spanned Ty := ⟨Ty.withSpans⟩

theorem Ty.withSpansAllEq (f : Span → Span) (ts : List Ty) : Ty.withSpansAll f ts = respan f ts :=
  respanRows rfl (fun _ _ => rfl) ts

def Operator.withSpans (f : Span → Span) : Operator → Operator
  | .coerce type => .coerce (respan f type)
  | op => op

instance : Spanned Operator := ⟨Operator.withSpans⟩

mutual

def Expr.withSpans (f : Span → Span) : Expr → Expr
  | .literal span v => .literal (f span) v
  | .name span n => .name (f span) n
  | .old span body => .old (f span) (Expr.withSpans f body)
  | .apply span op args => .apply (f span) (op.withSpans f) (Expr.withSpansAll f args)
  | .bind span binder ps vars as ts body =>
    .bind (f span) binder (respan f ps) (Variable.withSpansAll f vars) (Attribute.withSpansAll f as)
      (Trigger.withSpansAll f ts) (Expr.withSpans f body)
  | .letIn span vars values as body =>
    .letIn (f span) (LetVar.withSpansAll f vars) (Expr.withSpansAll f values) (Attribute.withSpansAll f as)
      (Expr.withSpans f body)
  | .code span locals blocks => .code (f span) (Variable.withSpansAll f locals) (Block.withSpansAll f blocks)

def Expr.withSpansAll (f : Span → Span) : List Expr → List Expr
  | [] => []
  | e :: rest => Expr.withSpans f e :: Expr.withSpansAll f rest

def Expr.withSpans? (f : Span → Span) : Option Expr → Option Expr
  | none => none
  | some e => some (Expr.withSpans f e)

def AttributeParam.withSpans (f : Span → Span) : AttributeParam → AttributeParam
  | .string content => .string content
  | .expr e => .expr (Expr.withSpans f e)

def AttributeParam.withSpansAll (f : Span → Span) : List AttributeParam → List AttributeParam
  | [] => []
  | p :: rest => AttributeParam.withSpans f p :: AttributeParam.withSpansAll f rest

def Attribute.withSpans (f : Span → Span) : Attribute → Attribute
  | ⟨key, params, span⟩ => ⟨key, AttributeParam.withSpansAll f params, f span⟩

def Attribute.withSpansAll (f : Span → Span) : List Attribute → List Attribute
  | [] => []
  | a :: rest => Attribute.withSpans f a :: Attribute.withSpansAll f rest

def Trigger.withSpans (f : Span → Span) : Trigger → Trigger
  | ⟨positive, exprs, span⟩ => ⟨positive, Expr.withSpansAll f exprs, f span⟩

def Trigger.withSpansAll (f : Span → Span) : List Trigger → List Trigger
  | [] => []
  | t :: rest => Trigger.withSpans f t :: Trigger.withSpansAll f rest

def Variable.withSpans (f : Span → Span) : Variable → Variable
  | ⟨n, type, whereClause, as, span⟩ =>
    ⟨n, respan f type, Expr.withSpans? f whereClause, Attribute.withSpansAll f as, f span⟩

def Variable.withSpansAll (f : Span → Span) : List Variable → List Variable
  | [] => []
  | v :: rest => Variable.withSpans f v :: Variable.withSpansAll f rest

def LetVar.withSpans (f : Span → Span) : LetVar → LetVar
  | ⟨n, as, span⟩ => ⟨n, Attribute.withSpansAll f as, f span⟩

def LetVar.withSpansAll (f : Span → Span) : List LetVar → List LetVar
  | [] => []
  | v :: rest => LetVar.withSpans f v :: LetVar.withSpansAll f rest

def Target.withSpans (f : Span → Span) : Target → Target
  | .name id => .name (respan f id)
  | .element span map indexes => .element (f span) (Target.withSpans f map) (Expr.withSpansAll f indexes)

def Target.withSpansAll (f : Span → Span) : List Target → List Target
  | [] => []
  | t :: rest => Target.withSpans f t :: Target.withSpansAll f rest

def Call.withSpans (f : Span → Span) : Call → Call
  | ⟨isAsync, isFree, callee, ins, outs, as, span⟩ =>
    ⟨isAsync, isFree, respan f callee, Expr.withSpansAll f ins, respan f outs,
      Attribute.withSpansAll f as, f span⟩

def Call.withSpansAll (f : Span → Span) : List Call → List Call
  | [] => []
  | c :: rest => Call.withSpans f c :: Call.withSpansAll f rest

def Cmd.withSpans (f : Span → Span) : Cmd → Cmd
  | .assign span targets values => .assign (f span) (Target.withSpansAll f targets) (Expr.withSpansAll f values)
  | .assert span as e => .assert (f span) (Attribute.withSpansAll f as) (Expr.withSpans f e)
  | .assume span as e => .assume (f span) (Attribute.withSpansAll f as) (Expr.withSpans f e)
  | .havoc span vars => .havoc (f span) (respan f vars)
  | .call span c => .call (f span) (Call.withSpans f c)
  | .parallel span calls as => .parallel (f span) (Call.withSpansAll f calls) (Attribute.withSpansAll f as)
  | .yield span => .yield (f span)

def Cmd.withSpansAll (f : Span → Span) : List Cmd → List Cmd
  | [] => []
  | c :: rest => Cmd.withSpans f c :: Cmd.withSpansAll f rest

def Transfer.withSpans (f : Span → Span) : Transfer → Transfer
  | .goto span labels => .goto (f span) (respan f labels)
  | .leave span => .leave (f span)
  | .leaveWith span value => .leaveWith (f span) (Expr.withSpans f value)

def Block.withSpans (f : Span → Span) : Block → Block
  | ⟨label, cmds, transfer, span⟩ =>
    ⟨label, Cmd.withSpansAll f cmds, Transfer.withSpans f transfer, f span⟩

def Block.withSpansAll (f : Span → Span) : List Block → List Block
  | [] => []
  | b :: rest => Block.withSpans f b :: Block.withSpansAll f rest

end

instance : Spanned Expr := ⟨Expr.withSpans⟩
instance : Spanned AttributeParam := ⟨AttributeParam.withSpans⟩
instance : Spanned Attribute := ⟨Attribute.withSpans⟩
instance : Spanned Trigger := ⟨Trigger.withSpans⟩
instance : Spanned Variable := ⟨Variable.withSpans⟩
instance : Spanned LetVar := ⟨LetVar.withSpans⟩
instance : Spanned Target := ⟨Target.withSpans⟩
instance : Spanned Call := ⟨Call.withSpans⟩
instance : Spanned Cmd := ⟨Cmd.withSpans⟩
instance : Spanned Transfer := ⟨Transfer.withSpans⟩
instance : Spanned Block := ⟨Block.withSpans⟩

theorem Expr.withSpansAllEq (f : Span → Span) (es : List Expr) : Expr.withSpansAll f es = respan f es :=
  respanRows rfl (fun _ _ => rfl) es

theorem AttributeParam.withSpansAllEq (f : Span → Span) (ps : List AttributeParam) : AttributeParam.withSpansAll f ps = respan f ps :=
  respanRows rfl (fun _ _ => rfl) ps

theorem Attribute.withSpansAllEq (f : Span → Span) (as : List Attribute) : Attribute.withSpansAll f as = respan f as :=
  respanRows rfl (fun _ _ => rfl) as

theorem Trigger.withSpansAllEq (f : Span → Span) (ts : List Trigger) : Trigger.withSpansAll f ts = respan f ts :=
  respanRows rfl (fun _ _ => rfl) ts

theorem Variable.withSpansAllEq (f : Span → Span) (vs : List Variable) : Variable.withSpansAll f vs = respan f vs :=
  respanRows rfl (fun _ _ => rfl) vs

theorem LetVar.withSpansAllEq (f : Span → Span) (vs : List LetVar) : LetVar.withSpansAll f vs = respan f vs :=
  respanRows rfl (fun _ _ => rfl) vs

theorem Target.withSpansAllEq (f : Span → Span) (ts : List Target) : Target.withSpansAll f ts = respan f ts :=
  respanRows rfl (fun _ _ => rfl) ts

theorem Call.withSpansAllEq (f : Span → Span) (cs : List Call) : Call.withSpansAll f cs = respan f cs :=
  respanRows rfl (fun _ _ => rfl) cs

theorem Cmd.withSpansAllEq (f : Span → Span) (cs : List Cmd) : Cmd.withSpansAll f cs = respan f cs :=
  respanRows rfl (fun _ _ => rfl) cs

theorem Block.withSpansAllEq (f : Span → Span) (bs : List Block) : Block.withSpansAll f bs = respan f bs :=
  respanRows rfl (fun _ _ => rfl) bs

theorem Expr.withSpans?Eq (f : Span → Span) (e : Option Expr) : Expr.withSpans? f e = respan f e := by
  cases e <;> rfl

section Nodes

variable (f : Span → Span)

@[simp] theorem respanIdent (n : String) (span : Span) : respan f (⟨n, span⟩ : Ident) = ⟨n, f span⟩ := rfl

@[simp] theorem Ty.respanBasic (span b) : respan f (Ty.basic span b) = .basic (f span) b := rfl

@[simp] theorem Ty.respanBitVector (span width) :
    respan f (Ty.bitVector span width) = .bitVector (f span) width := rfl

@[simp] theorem Ty.respanMap (span ps args result) :
    respan f (Ty.map span ps args result) = .map (f span) (respan f ps) (respan f args) (respan f result) := by
  rw [← Ty.withSpansAllEq]; rfl

@[simp] theorem Ty.respanParam (span n) : respan f (Ty.param span n) = .param (f span) n := rfl

@[simp] theorem Ty.respanNamed (span n args) :
    respan f (Ty.named span n args) = .named (f span) n (respan f args) := by
  rw [← Ty.withSpansAllEq]; rfl

@[simp] theorem Operator.respanCoerce (type : Ty) :
    respan f (Operator.coerce type) = .coerce (respan f type) := rfl

@[simp] theorem Operator.respanOther (op : Operator) (h : ∀ type, op ≠ .coerce type) : respan f op = op := by
  cases op with
  | coerce type => exact absurd rfl (h type)
  | _ => rfl

@[simp] theorem Expr.respanLiteral (span v) : respan f (Expr.literal span v) = .literal (f span) v := rfl

@[simp] theorem Expr.respanName (span n) : respan f (Expr.name span n) = .name (f span) n := rfl

@[simp] theorem Expr.respanOld (span body) : respan f (Expr.old span body) = .old (f span) (respan f body) := rfl

@[simp] theorem Expr.respanApply (span op args) :
    respan f (Expr.apply span op args) = .apply (f span) (respan f op) (respan f args) := by
  rw [← Expr.withSpansAllEq]; rfl

@[simp] theorem Expr.respanBind (span binder ps vars as ts body) :
    respan f (Expr.bind span binder ps vars as ts body) =
      .bind (f span) binder (respan f ps) (respan f vars) (respan f as) (respan f ts) (respan f body) := by
  rw [← Variable.withSpansAllEq, ← Attribute.withSpansAllEq, ← Trigger.withSpansAllEq]; rfl

@[simp] theorem Expr.respanLetIn (span vars values as body) :
    respan f (Expr.letIn span vars values as body) =
      .letIn (f span) (respan f vars) (respan f values) (respan f as) (respan f body) := by
  rw [← LetVar.withSpansAllEq, ← Expr.withSpansAllEq, ← Attribute.withSpansAllEq]; rfl

@[simp] theorem Expr.respanCode (span locals blocks) :
    respan f (Expr.code span locals blocks) = .code (f span) (respan f locals) (respan f blocks) := by
  rw [← Variable.withSpansAllEq, ← Block.withSpansAllEq]; rfl

@[simp] theorem AttributeParam.respanString (content) :
    respan f (AttributeParam.string content) = .string content := rfl

@[simp] theorem AttributeParam.respanExpr (e) :
    respan f (AttributeParam.expr e) = .expr (respan f e) := rfl

@[simp] theorem Attribute.respanMk (key params span) :
    respan f (⟨key, params, span⟩ : Attribute) = ⟨key, respan f params, f span⟩ := by
  rw [← AttributeParam.withSpansAllEq]; rfl

@[simp] theorem Trigger.respanMk (positive exprs span) :
    respan f (⟨positive, exprs, span⟩ : Trigger) = ⟨positive, respan f exprs, f span⟩ := by
  rw [← Expr.withSpansAllEq]; rfl

@[simp] theorem Variable.respanMk (n type whereClause as span) :
    respan f (⟨n, type, whereClause, as, span⟩ : Variable) =
      ⟨n, respan f type, respan f whereClause, respan f as, f span⟩ := by
  rw [← Expr.withSpans?Eq, ← Attribute.withSpansAllEq]; rfl

@[simp] theorem LetVar.respanMk (n as span) :
    respan f (⟨n, as, span⟩ : LetVar) = ⟨n, respan f as, f span⟩ := by
  rw [← Attribute.withSpansAllEq]; rfl

@[simp] theorem Target.respanName (id) : respan f (Target.name id) = .name (respan f id) := rfl

@[simp] theorem Target.respanElement (span map indexes) :
    respan f (Target.element span map indexes) = .element (f span) (respan f map) (respan f indexes) := by
  rw [← Expr.withSpansAllEq]; rfl

@[simp] theorem Call.respanMk (isAsync isFree callee ins outs as span) :
    respan f (⟨isAsync, isFree, callee, ins, outs, as, span⟩ : Call) =
      ⟨isAsync, isFree, respan f callee, respan f ins, respan f outs, respan f as, f span⟩ := by
  rw [← Expr.withSpansAllEq, ← Attribute.withSpansAllEq]; rfl

@[simp] theorem Cmd.respanAssign (span targets values) :
    respan f (Cmd.assign span targets values) = .assign (f span) (respan f targets) (respan f values) := by
  rw [← Target.withSpansAllEq, ← Expr.withSpansAllEq]; rfl

@[simp] theorem Cmd.respanAssert (span as e) :
    respan f (Cmd.assert span as e) = .assert (f span) (respan f as) (respan f e) := by
  rw [← Attribute.withSpansAllEq]; rfl

@[simp] theorem Cmd.respanAssume (span as e) :
    respan f (Cmd.assume span as e) = .assume (f span) (respan f as) (respan f e) := by
  rw [← Attribute.withSpansAllEq]; rfl

@[simp] theorem Cmd.respanHavoc (span vars) :
    respan f (Cmd.havoc span vars) = .havoc (f span) (respan f vars) := rfl

@[simp] theorem Cmd.respanCall (span c) : respan f (Cmd.call span c) = .call (f span) (respan f c) := rfl

@[simp] theorem Cmd.respanParallel (span calls as) :
    respan f (Cmd.parallel span calls as) = .parallel (f span) (respan f calls) (respan f as) := by
  rw [← Call.withSpansAllEq, ← Attribute.withSpansAllEq]; rfl

@[simp] theorem Cmd.respanYield (span) : respan f (Cmd.yield span) = .yield (f span) := rfl

@[simp] theorem Transfer.respanGoto (span labels) :
    respan f (Transfer.goto span labels) = .goto (f span) (respan f labels) := rfl

@[simp] theorem Transfer.respanLeave (span) : respan f (Transfer.leave span) = .leave (f span) := rfl

@[simp] theorem Transfer.respanLeaveWith (span value) :
    respan f (Transfer.leaveWith span value) = .leaveWith (f span) (respan f value) := rfl

@[simp] theorem Block.respanMk (label cmds transfer span) :
    respan f (⟨label, cmds, transfer, span⟩ : Block) =
      ⟨label, respan f cmds, respan f transfer, f span⟩ := by
  rw [← Cmd.withSpansAllEq]; rfl

end Nodes

instance : Spanned Clause := ⟨fun f x => ⟨x.free, respan f x.condition, respan f x.attributes, f x.span⟩⟩

mutual

def StmtList.withSpans (f : Span → Span) : StmtList → StmtList
  | ⟨blocks, closing⟩ => ⟨BigBlock.withSpansAll f blocks, f closing⟩

def BigBlock.withSpans (f : Span → Span) : BigBlock → BigBlock
  | ⟨span, label, cmds, tail⟩ => ⟨f span, label, respan f cmds, Tail.withSpans? f tail⟩

def BigBlock.withSpansAll (f : Span → Span) : List BigBlock → List BigBlock
  | [] => []
  | b :: rest => BigBlock.withSpans f b :: BigBlock.withSpansAll f rest

def Tail.withSpans? (f : Span → Span) : Option Tail → Option Tail
  | none => none
  | some t => some (Tail.withSpans f t)

def Tail.withSpans (f : Span → Span) : Tail → Tail
  | .branch command => .branch (IfCmd.withSpans f command)
  | .loop command => .loop (WhileCmd.withSpans f command)
  | .break span label => .break (f span) label
  | .transfer command => .transfer (respan f command)

def IfCmd.withSpans (f : Span → Span) : IfCmd → IfCmd
  | ⟨guard, thenBranch, elseBranch, span⟩ =>
    ⟨respan f guard, StmtList.withSpans f thenBranch, ElseBranch.withSpans? f elseBranch, f span⟩

def ElseBranch.withSpans? (f : Span → Span) : Option ElseBranch → Option ElseBranch
  | none => none
  | some b => some (ElseBranch.withSpans f b)

def ElseBranch.withSpans (f : Span → Span) : ElseBranch → ElseBranch
  | .elseIf command => .elseIf (IfCmd.withSpans f command)
  | .block body => .block (StmtList.withSpans f body)

def WhileCmd.withSpans (f : Span → Span) : WhileCmd → WhileCmd
  | ⟨guard, invariants, body, span⟩ =>
    ⟨respan f guard, respan f invariants, StmtList.withSpans f body, f span⟩

end

instance : Spanned StmtList := ⟨StmtList.withSpans⟩
instance : Spanned BigBlock := ⟨BigBlock.withSpans⟩
instance : Spanned Tail := ⟨Tail.withSpans⟩
instance : Spanned IfCmd := ⟨IfCmd.withSpans⟩
instance : Spanned ElseBranch := ⟨ElseBranch.withSpans⟩
instance : Spanned WhileCmd := ⟨WhileCmd.withSpans⟩

theorem BigBlock.withSpansAllEq (f : Span → Span) (bs : List BigBlock) :
    BigBlock.withSpansAll f bs = respan f bs :=
  respanRows rfl (fun _ _ => rfl) bs

theorem Tail.withSpans?Eq (f : Span → Span) (t : Option Tail) : Tail.withSpans? f t = respan f t := by
  cases t <;> rfl

theorem ElseBranch.withSpans?Eq (f : Span → Span) (b : Option ElseBranch) :
    ElseBranch.withSpans? f b = respan f b := by
  cases b <;> rfl

section Statements

variable (f : Span → Span)

@[simp] theorem Clause.respanMk (free condition as span) :
    respan f (⟨free, condition, as, span⟩ : Clause) = ⟨free, respan f condition, respan f as, f span⟩ := rfl

@[simp] theorem StmtList.respanMk (blocks closing) :
    respan f (⟨blocks, closing⟩ : StmtList) = ⟨respan f blocks, f closing⟩ := by
  rw [← BigBlock.withSpansAllEq]; rfl

@[simp] theorem BigBlock.respanMk (span label cmds tail) :
    respan f (⟨span, label, cmds, tail⟩ : BigBlock) = ⟨f span, label, respan f cmds, respan f tail⟩ := by
  rw [← Tail.withSpans?Eq]; rfl

@[simp] theorem Tail.respanBranch (command) :
    respan f (Tail.branch command) = .branch (respan f command) := rfl

@[simp] theorem Tail.respanLoop (command) : respan f (Tail.loop command) = .loop (respan f command) := rfl

@[simp] theorem Tail.respanBreak (span label) :
    respan f (Tail.break span label) = .break (f span) label := rfl

@[simp] theorem Tail.respanTransfer (command) :
    respan f (Tail.transfer command) = .transfer (respan f command) := rfl

@[simp] theorem IfCmd.respanMk (guard thenBranch elseBranch span) :
    respan f (⟨guard, thenBranch, elseBranch, span⟩ : IfCmd) =
      ⟨respan f guard, respan f thenBranch, respan f elseBranch, f span⟩ := by
  rw [← ElseBranch.withSpans?Eq]; rfl

@[simp] theorem ElseBranch.respanElseIf (command) :
    respan f (ElseBranch.elseIf command) = .elseIf (respan f command) := rfl

@[simp] theorem ElseBranch.respanBlock (body) :
    respan f (ElseBranch.block body) = .block (respan f body) := rfl

@[simp] theorem WhileCmd.respanMk (guard invariants body span) :
    respan f (⟨guard, invariants, body, span⟩ : WhileCmd) =
      ⟨respan f guard, respan f invariants, respan f body, f span⟩ := rfl

end Statements

instance : Spanned Formal :=
  ⟨fun f x => ⟨x.name, respan f x.type, respan f x.whereClause, x.incoming, respan f x.attributes, f x.span⟩⟩

instance : Spanned Parent := ⟨fun f p => ⟨respan f p.ident, p.unique⟩⟩

instance : Spanned Constant :=
  ⟨fun f c => ⟨c.name, respan f c.type, c.unique, respan f c.parents, c.complete, respan f c.attributes,
    f c.span⟩⟩

instance : Spanned TypeConstructor := ⟨fun f t => ⟨t.name, t.arity, respan f t.attributes, f t.span⟩⟩

instance : Spanned TypeSynonym :=
  ⟨fun f t => ⟨t.name, respan f t.params, respan f t.body, respan f t.attributes, f t.span⟩⟩

instance : Spanned Function :=
  ⟨fun f x => ⟨x.name, respan f x.params, respan f x.formals, respan f x.result, respan f x.body,
    respan f x.attributes, f x.span⟩⟩

instance : Spanned Axiom := ⟨fun f a => ⟨respan f a.condition, respan f a.attributes, f a.span⟩⟩

instance : Spanned Procedure :=
  ⟨fun f p => ⟨p.name, respan f p.params, respan f p.ins, respan f p.outs, respan f p.requires,
    respan f p.modifies, respan f p.ensures, respan f p.attributes, f p.span⟩⟩

instance : Spanned Implementation :=
  ⟨fun f i => ⟨i.name, respan f i.params, respan f i.ins, respan f i.outs, respan f i.locals,
    respan f i.body, respan f i.attributes, f i.span⟩⟩

def Decl.withSpans (f : Span → Span) : Decl → Decl
  | .constant c => .constant (respan f c)
  | .typeConstructor t => .typeConstructor (respan f t)
  | .typeSynonym t => .typeSynonym (respan f t)
  | .function x => .function (respan f x)
  | .axiomatic a => .axiomatic (respan f a)
  | .global v => .global (respan f v)
  | .procedure p => .procedure (respan f p)
  | .implementation i => .implementation (respan f i)

instance : Spanned Decl := ⟨Decl.withSpans⟩

instance : Spanned Program := ⟨fun f p => ⟨respan f p.decls⟩⟩

section Declarations

variable (f : Span → Span)

@[simp] theorem Formal.respanMk (n type whereClause incoming as span) :
    respan f (⟨n, type, whereClause, incoming, as, span⟩ : Formal) =
      ⟨n, respan f type, respan f whereClause, incoming, respan f as, f span⟩ := rfl

@[simp] theorem Parent.respanMk (id unique) :
    respan f (⟨id, unique⟩ : Parent) = ⟨respan f id, unique⟩ := rfl

@[simp] theorem Constant.respanMk (n type unique parents complete as span) :
    respan f (⟨n, type, unique, parents, complete, as, span⟩ : Constant) =
      ⟨n, respan f type, unique, respan f parents, complete, respan f as, f span⟩ := rfl

@[simp] theorem TypeConstructor.respanMk (n arity as span) :
    respan f (⟨n, arity, as, span⟩ : TypeConstructor) = ⟨n, arity, respan f as, f span⟩ := rfl

@[simp] theorem TypeSynonym.respanMk (n ps body as span) :
    respan f (⟨n, ps, body, as, span⟩ : TypeSynonym) =
      ⟨n, respan f ps, respan f body, respan f as, f span⟩ := rfl

@[simp] theorem Function.respanMk (n ps formals result body as span) :
    respan f (⟨n, ps, formals, result, body, as, span⟩ : Function) =
      ⟨n, respan f ps, respan f formals, respan f result, respan f body, respan f as, f span⟩ := rfl

@[simp] theorem Axiom.respanMk (condition as span) :
    respan f (⟨condition, as, span⟩ : Axiom) = ⟨respan f condition, respan f as, f span⟩ := rfl

@[simp] theorem Procedure.respanMk (n ps ins outs requires modifies ensures as span) :
    respan f (⟨n, ps, ins, outs, requires, modifies, ensures, as, span⟩ : Procedure) =
      ⟨n, respan f ps, respan f ins, respan f outs, respan f requires, respan f modifies,
        respan f ensures, respan f as, f span⟩ := rfl

@[simp] theorem Implementation.respanMk (n ps ins outs locals body as span) :
    respan f (⟨n, ps, ins, outs, locals, body, as, span⟩ : Implementation) =
      ⟨n, respan f ps, respan f ins, respan f outs, respan f locals, respan f body, respan f as, f span⟩ := rfl

@[simp] theorem Decl.respanConstant (c) : respan f (Decl.constant c) = .constant (respan f c) := rfl
@[simp] theorem Decl.respanTypeConstructor (t) :
    respan f (Decl.typeConstructor t) = .typeConstructor (respan f t) := rfl
@[simp] theorem Decl.respanTypeSynonym (t) : respan f (Decl.typeSynonym t) = .typeSynonym (respan f t) := rfl
@[simp] theorem Decl.respanFunction (x) : respan f (Decl.function x) = .function (respan f x) := rfl
@[simp] theorem Decl.respanAxiomatic (a) : respan f (Decl.axiomatic a) = .axiomatic (respan f a) := rfl
@[simp] theorem Decl.respanGlobal (v) : respan f (Decl.global v) = .global (respan f v) := rfl
@[simp] theorem Decl.respanProcedure (p) : respan f (Decl.procedure p) = .procedure (respan f p) := rfl
@[simp] theorem Decl.respanImplementation (i) :
    respan f (Decl.implementation i) = .implementation (respan f i) := rfl

@[simp] theorem Program.respanMk (decls) : respan f (⟨decls⟩ : Program) = ⟨respan f decls⟩ := rfl

end Declarations

section Parts

variable (f : Span → Span)

@[simp] theorem Ident.respanName (id : Ident) : (respan f id).name = id.name := rfl
@[simp] theorem Ident.respanSpan (id : Ident) : (respan f id).span = f id.span := rfl

@[simp] theorem Ty.respanSpan (t : Ty) : (respan f t).span = f t.span := by cases t <;> rfl

@[simp] theorem Expr.respanSpan (e : Expr) : (respan f e).span = f e.span := by cases e <;> rfl

end Parts

def bare {α : Type} [Spanned α] (a : α) : α := respan (fun _ => .nowhere) a

end Boogie
