import Boogie.Proofs.Tree.Spans

/-! Trees with their types changed. A change puts one type in the place of the basic types at a span; where a tree
is read of a source, there is one of these at the most, written there. -/
namespace Boogie

class Typed (α : Type) where
  retype : (Ty → Ty) → α → α

export Typed (retype)

section Plain

variable {α β : Type} [Typed α] [Typed β]

instance : Typed Bool := ⟨fun _ b => b⟩
instance : Typed Ident := ⟨fun _ id => id⟩
instance : Typed Ty := ⟨fun f => f⟩
instance : Typed (Option α) := ⟨fun f => Option.map (retype f)⟩
instance : Typed (List α) := ⟨fun f => List.map (retype f)⟩
instance : Typed (α × β) := ⟨fun f p => (retype f p.1, retype f p.2)⟩

end Plain

def Operator.withTypes (f : Ty → Ty) : Operator → Operator
  | .coerce type => .coerce (f type)
  | op => op

instance : Typed Operator := ⟨Operator.withTypes⟩

mutual

def Expr.withTypes (f : Ty → Ty) : Expr → Expr
  | .literal span v => .literal span v
  | .name span n => .name span n
  | .old span body => .old span (Expr.withTypes f body)
  | .apply span op args => .apply span (op.withTypes f) (Expr.withTypesAll f args)
  | .bind span binder ps vars as ts body =>
    .bind span binder ps (Variable.withTypesAll f vars) (Attribute.withTypesAll f as) (Trigger.withTypesAll f ts)
      (Expr.withTypes f body)
  | .letIn span vars values as body =>
    .letIn span (LetVar.withTypesAll f vars) (Expr.withTypesAll f values) (Attribute.withTypesAll f as)
      (Expr.withTypes f body)
  | .code span locals blocks => .code span (Variable.withTypesAll f locals) (Block.withTypesAll f blocks)

def Expr.withTypesAll (f : Ty → Ty) : List Expr → List Expr
  | [] => []
  | e :: rest => Expr.withTypes f e :: Expr.withTypesAll f rest

def Expr.withTypes? (f : Ty → Ty) : Option Expr → Option Expr
  | none => none
  | some e => some (Expr.withTypes f e)

def AttributeParam.withTypes (f : Ty → Ty) : AttributeParam → AttributeParam
  | .string content => .string content
  | .expr e => .expr (Expr.withTypes f e)

def AttributeParam.withTypesAll (f : Ty → Ty) : List AttributeParam → List AttributeParam
  | [] => []
  | p :: rest => AttributeParam.withTypes f p :: AttributeParam.withTypesAll f rest

def Attribute.withTypes (f : Ty → Ty) : Attribute → Attribute
  | ⟨key, params, span⟩ => ⟨key, AttributeParam.withTypesAll f params, span⟩

def Attribute.withTypesAll (f : Ty → Ty) : List Attribute → List Attribute
  | [] => []
  | a :: rest => Attribute.withTypes f a :: Attribute.withTypesAll f rest

def Trigger.withTypes (f : Ty → Ty) : Trigger → Trigger
  | ⟨positive, exprs, span⟩ => ⟨positive, Expr.withTypesAll f exprs, span⟩

def Trigger.withTypesAll (f : Ty → Ty) : List Trigger → List Trigger
  | [] => []
  | t :: rest => Trigger.withTypes f t :: Trigger.withTypesAll f rest

def Variable.withTypes (f : Ty → Ty) : Variable → Variable
  | ⟨n, type, whereClause, as, span⟩ =>
    ⟨n, f type, Expr.withTypes? f whereClause, Attribute.withTypesAll f as, span⟩

def Variable.withTypesAll (f : Ty → Ty) : List Variable → List Variable
  | [] => []
  | v :: rest => Variable.withTypes f v :: Variable.withTypesAll f rest

def LetVar.withTypes (f : Ty → Ty) : LetVar → LetVar
  | ⟨n, as, span⟩ => ⟨n, Attribute.withTypesAll f as, span⟩

def LetVar.withTypesAll (f : Ty → Ty) : List LetVar → List LetVar
  | [] => []
  | v :: rest => LetVar.withTypes f v :: LetVar.withTypesAll f rest

def Target.withTypes (f : Ty → Ty) : Target → Target
  | .name id => .name id
  | .element span map indexes => .element span (Target.withTypes f map) (Expr.withTypesAll f indexes)

def Target.withTypesAll (f : Ty → Ty) : List Target → List Target
  | [] => []
  | t :: rest => Target.withTypes f t :: Target.withTypesAll f rest

def Call.withTypes (f : Ty → Ty) : Call → Call
  | ⟨isAsync, isFree, callee, ins, outs, as, span⟩ =>
    ⟨isAsync, isFree, callee, Expr.withTypesAll f ins, outs, Attribute.withTypesAll f as, span⟩

def Call.withTypesAll (f : Ty → Ty) : List Call → List Call
  | [] => []
  | c :: rest => Call.withTypes f c :: Call.withTypesAll f rest

def Cmd.withTypes (f : Ty → Ty) : Cmd → Cmd
  | .assign span targets values => .assign span (Target.withTypesAll f targets) (Expr.withTypesAll f values)
  | .assert span as e => .assert span (Attribute.withTypesAll f as) (Expr.withTypes f e)
  | .assume span as e => .assume span (Attribute.withTypesAll f as) (Expr.withTypes f e)
  | .havoc span vars => .havoc span vars
  | .call span c => .call span (Call.withTypes f c)
  | .parallel span calls as => .parallel span (Call.withTypesAll f calls) (Attribute.withTypesAll f as)
  | .yield span => .yield span

def Cmd.withTypesAll (f : Ty → Ty) : List Cmd → List Cmd
  | [] => []
  | c :: rest => Cmd.withTypes f c :: Cmd.withTypesAll f rest

def Transfer.withTypes (f : Ty → Ty) : Transfer → Transfer
  | .goto span labels => .goto span labels
  | .leave span => .leave span
  | .leaveWith span value => .leaveWith span (Expr.withTypes f value)

def Block.withTypes (f : Ty → Ty) : Block → Block
  | ⟨label, cmds, transfer, span⟩ => ⟨label, Cmd.withTypesAll f cmds, Transfer.withTypes f transfer, span⟩

def Block.withTypesAll (f : Ty → Ty) : List Block → List Block
  | [] => []
  | b :: rest => Block.withTypes f b :: Block.withTypesAll f rest

end

instance : Typed Expr := ⟨Expr.withTypes⟩
instance : Typed AttributeParam := ⟨AttributeParam.withTypes⟩
instance : Typed Attribute := ⟨Attribute.withTypes⟩
instance : Typed Trigger := ⟨Trigger.withTypes⟩
instance : Typed Variable := ⟨Variable.withTypes⟩
instance : Typed LetVar := ⟨LetVar.withTypes⟩
instance : Typed Target := ⟨Target.withTypes⟩
instance : Typed Call := ⟨Call.withTypes⟩
instance : Typed Cmd := ⟨Cmd.withTypes⟩
instance : Typed Transfer := ⟨Transfer.withTypes⟩
instance : Typed Block := ⟨Block.withTypes⟩

instance : Typed Clause := ⟨fun f x => ⟨x.free, retype f x.condition, retype f x.attributes, x.span⟩⟩

mutual

def StmtList.withTypes (f : Ty → Ty) : StmtList → StmtList
  | ⟨blocks, closing⟩ => ⟨BigBlock.withTypesAll f blocks, closing⟩

def BigBlock.withTypes (f : Ty → Ty) : BigBlock → BigBlock
  | ⟨span, label, cmds, tail⟩ => ⟨span, label, retype f cmds, Tail.withTypes? f tail⟩

def BigBlock.withTypesAll (f : Ty → Ty) : List BigBlock → List BigBlock
  | [] => []
  | b :: rest => BigBlock.withTypes f b :: BigBlock.withTypesAll f rest

def Tail.withTypes? (f : Ty → Ty) : Option Tail → Option Tail
  | none => none
  | some t => some (Tail.withTypes f t)

def Tail.withTypes (f : Ty → Ty) : Tail → Tail
  | .branch command => .branch (IfCmd.withTypes f command)
  | .loop command => .loop (WhileCmd.withTypes f command)
  | .break span label => .break span label
  | .transfer command => .transfer (retype f command)

def IfCmd.withTypes (f : Ty → Ty) : IfCmd → IfCmd
  | ⟨guard, thenBranch, elseBranch, span⟩ =>
    ⟨retype f guard, StmtList.withTypes f thenBranch, ElseBranch.withTypes? f elseBranch, span⟩

def ElseBranch.withTypes? (f : Ty → Ty) : Option ElseBranch → Option ElseBranch
  | none => none
  | some b => some (ElseBranch.withTypes f b)

def ElseBranch.withTypes (f : Ty → Ty) : ElseBranch → ElseBranch
  | .elseIf command => .elseIf (IfCmd.withTypes f command)
  | .block body => .block (StmtList.withTypes f body)

def WhileCmd.withTypes (f : Ty → Ty) : WhileCmd → WhileCmd
  | ⟨guard, invariants, body, span⟩ => ⟨retype f guard, retype f invariants, StmtList.withTypes f body, span⟩

end

instance : Typed StmtList := ⟨StmtList.withTypes⟩
instance : Typed BigBlock := ⟨BigBlock.withTypes⟩
instance : Typed Tail := ⟨Tail.withTypes⟩
instance : Typed IfCmd := ⟨IfCmd.withTypes⟩
instance : Typed ElseBranch := ⟨ElseBranch.withTypes⟩
instance : Typed WhileCmd := ⟨WhileCmd.withTypes⟩

instance : Typed Formal :=
  ⟨fun f x => ⟨x.name, f x.type, retype f x.whereClause, x.incoming, retype f x.attributes, x.span⟩⟩

instance : Typed Parent := ⟨fun _ p => p⟩

instance : Typed Constant :=
  ⟨fun f c => ⟨c.name, f c.type, c.unique, c.parents, c.complete, retype f c.attributes, c.span⟩⟩

instance : Typed TypeConstructor := ⟨fun f t => ⟨t.name, t.arity, retype f t.attributes, t.span⟩⟩

instance : Typed TypeSynonym := ⟨fun f t => ⟨t.name, t.params, f t.body, retype f t.attributes, t.span⟩⟩

instance : Typed Function :=
  ⟨fun f x => ⟨x.name, x.params, retype f x.formals, retype f x.result, retype f x.body, retype f x.attributes,
    x.span⟩⟩

instance : Typed Axiom := ⟨fun f a => ⟨retype f a.condition, retype f a.attributes, a.span⟩⟩

instance : Typed Procedure :=
  ⟨fun f p => ⟨p.name, p.params, retype f p.ins, retype f p.outs, retype f p.requires, p.modifies,
    retype f p.ensures, retype f p.attributes, p.span⟩⟩

instance : Typed Implementation :=
  ⟨fun f i => ⟨i.name, i.params, retype f i.ins, retype f i.outs, retype f i.locals, retype f i.body,
    retype f i.attributes, i.span⟩⟩

def Decl.withTypes (f : Ty → Ty) : Decl → Decl
  | .constant c => .constant (retype f c)
  | .typeConstructor t => .typeConstructor (retype f t)
  | .typeSynonym t => .typeSynonym (retype f t)
  | .function x => .function (retype f x)
  | .axiomatic a => .axiomatic (retype f a)
  | .global v => .global (retype f v)
  | .procedure p => .procedure (retype f p)
  | .implementation i => .implementation (retype f i)

instance : Typed Decl := ⟨Decl.withTypes⟩

instance : Typed Program := ⟨fun f p => ⟨retype f p.decls⟩⟩

mutual

def Ty.replaced (place : Span) (type : Ty) : Ty → Ty
  | .basic span b => if span = place then type else .basic span b
  | .bitVector span width => .bitVector span width
  | .map span ps args result => .map span ps (Ty.replacedAll place type args) (Ty.replaced place type result)
  | .param span n => .param span n
  | .named span n args => .named span n (Ty.replacedAll place type args)

def Ty.replacedAll (place : Span) (type : Ty) : List Ty → List Ty
  | [] => []
  | t :: rest => Ty.replaced place type t :: Ty.replacedAll place type rest

end

def Ty.isBasic : Ty → Bool
  | .basic _ _ => true
  | _ => false

structure Change where
  place : Span
  type : Ty

def retyped {α : Type} [Typed α] : Option Change → α → α
  | none, a => a
  | some change, a => retype (Ty.replaced change.place change.type) a

section Lists

variable {α β : Type} [Typed α] [Typed β] (c : Option Change)

@[simp] theorem retypedBool (b : Bool) : retyped c b = b := by cases c <;> rfl
@[simp] theorem retypedIdent (id : Ident) : retyped c id = id := by cases c <;> rfl
@[simp] theorem retypedNone : retyped c (none : Option α) = none := by cases c <;> rfl
@[simp] theorem retypedSome (a : α) : retyped c (some a) = some (retyped c a) := by cases c <;> rfl
@[simp] theorem retypedPair (a : α) (b : β) : retyped c (a, b) = (retyped c a, retyped c b) := by cases c <;> rfl
@[simp] theorem retypedNil : retyped c ([] : List α) = [] := by cases c <;> rfl
@[simp] theorem retypedCons (a : α) (as : List α) : retyped c (a :: as) = retyped c a :: retyped c as := by
  cases c <;> rfl

theorem retypedRows {all : List α → List α} (nil : all [] = []) (cons : ∀ a as, all (a :: as) = retyped c a :: all as)
    (as : List α) : all as = retyped c as :=
  rowsEq (retyped c · :: ·) (nil.trans (retypedNil c).symm) cons (retypedCons c) as

theorem retypedList (as : List α) : retyped c as = as.map (retyped c) := by
  induction as with
  | nil => simp
  | cons a rest ih => simp [ih]

@[simp] theorem retypedAppend (as bs : List α) : retyped c (as ++ bs) = retyped c as ++ retyped c bs := by
  simp only [retypedList, List.map_append]

@[simp] theorem retypedReverse (as : List α) : retyped c as.reverse = (retyped c as).reverse := by
  simp only [retypedList, List.map_reverse]

@[simp] theorem retypedIdents (ids : List Ident) : retyped c ids = ids := by
  induction ids with
  | nil => simp
  | cons id rest ih => simp [ih]

end Lists

/-! The rows and options that the nodes hold are changed as rows and options are. -/

section Rows

variable (change : Change)

theorem Ty.replacedAllEq (ts : List Ty) : Ty.replacedAll change.place change.type ts = retyped (some change) ts :=
  retypedRows (some change) rfl (fun _ _ => rfl) ts

theorem Expr.withTypesAllEq (es : List Expr) :
    Expr.withTypesAll (Ty.replaced change.place change.type) es = retyped (some change) es :=
  retypedRows (some change) rfl (fun _ _ => rfl) es

theorem AttributeParam.withTypesAllEq (ps : List AttributeParam) :
    AttributeParam.withTypesAll (Ty.replaced change.place change.type) ps = retyped (some change) ps :=
  retypedRows (some change) rfl (fun _ _ => rfl) ps

theorem Attribute.withTypesAllEq (as : List Attribute) :
    Attribute.withTypesAll (Ty.replaced change.place change.type) as = retyped (some change) as :=
  retypedRows (some change) rfl (fun _ _ => rfl) as

theorem Trigger.withTypesAllEq (ts : List Trigger) :
    Trigger.withTypesAll (Ty.replaced change.place change.type) ts = retyped (some change) ts :=
  retypedRows (some change) rfl (fun _ _ => rfl) ts

theorem Variable.withTypesAllEq (vs : List Variable) :
    Variable.withTypesAll (Ty.replaced change.place change.type) vs = retyped (some change) vs :=
  retypedRows (some change) rfl (fun _ _ => rfl) vs

theorem LetVar.withTypesAllEq (vs : List LetVar) :
    LetVar.withTypesAll (Ty.replaced change.place change.type) vs = retyped (some change) vs :=
  retypedRows (some change) rfl (fun _ _ => rfl) vs

theorem Target.withTypesAllEq (ts : List Target) :
    Target.withTypesAll (Ty.replaced change.place change.type) ts = retyped (some change) ts :=
  retypedRows (some change) rfl (fun _ _ => rfl) ts

theorem Call.withTypesAllEq (cs : List Call) :
    Call.withTypesAll (Ty.replaced change.place change.type) cs = retyped (some change) cs :=
  retypedRows (some change) rfl (fun _ _ => rfl) cs

theorem Cmd.withTypesAllEq (cs : List Cmd) :
    Cmd.withTypesAll (Ty.replaced change.place change.type) cs = retyped (some change) cs :=
  retypedRows (some change) rfl (fun _ _ => rfl) cs

theorem Block.withTypesAllEq (bs : List Block) :
    Block.withTypesAll (Ty.replaced change.place change.type) bs = retyped (some change) bs :=
  retypedRows (some change) rfl (fun _ _ => rfl) bs

theorem BigBlock.withTypesAllEq (bs : List BigBlock) :
    BigBlock.withTypesAll (Ty.replaced change.place change.type) bs = retyped (some change) bs :=
  retypedRows (some change) rfl (fun _ _ => rfl) bs

theorem Expr.withTypes?Eq (e : Option Expr) :
    Expr.withTypes? (Ty.replaced change.place change.type) e = retyped (some change) e := by
  cases e <;> rfl

theorem Tail.withTypes?Eq (t : Option Tail) :
    Tail.withTypes? (Ty.replaced change.place change.type) t = retyped (some change) t := by
  cases t <;> rfl

theorem ElseBranch.withTypes?Eq (b : Option ElseBranch) :
    ElseBranch.withTypes? (Ty.replaced change.place change.type) b = retyped (some change) b := by
  cases b <;> rfl

end Rows

section Nodes

variable (c : Option Change)

@[simp] theorem Ty.retypedBitVector (span width) :
    retyped c (Ty.bitVector span width) =
      .bitVector span width := by cases c <;> rfl

@[simp] theorem Ty.retypedMap (span ps args result) :
    retyped c (Ty.map span ps args result) =
      .map span ps (retyped c args) (retyped c result) := by
  cases c with
  | none => rfl
  | some change => rw [← Ty.replacedAllEq]; rfl

@[simp] theorem Ty.retypedParam (span n) : retyped c (Ty.param span n) = .param span n := by cases c <;> rfl

@[simp] theorem Ty.retypedNamed (span n args) :
    retyped c (Ty.named span n args) =
      .named span n (retyped c args) := by
  cases c with
  | none => rfl
  | some change => rw [← Ty.replacedAllEq]; rfl

@[simp] theorem Operator.retypedCoerce (type) : retyped c (Operator.coerce type) = .coerce (retyped c type) := by cases c <;> rfl

@[simp] theorem Operator.retypedOther (op : Operator) (h : ∀ type, op ≠ .coerce type) : retyped c op = op := by
  cases op with
  | coerce type => exact absurd rfl (h type)
  | _ => cases c <;> rfl

@[simp] theorem Expr.retypedLiteral (span v) : retyped c (Expr.literal span v) = .literal span v := by cases c <;> rfl

@[simp] theorem Expr.retypedName (span n) : retyped c (Expr.name span n) = .name span n := by cases c <;> rfl

@[simp] theorem Expr.retypedOld (span body) : retyped c (Expr.old span body) = .old span (retyped c body) := by cases c <;> rfl

@[simp] theorem Expr.retypedApply (span op args) :
    retyped c (Expr.apply span op args) =
      .apply span (retyped c op) (retyped c args) := by
  cases c with
  | none => rfl
  | some change => rw [← Expr.withTypesAllEq]; rfl

@[simp] theorem Expr.retypedBind (span binder ps vars as ts body) :
    retyped c (Expr.bind span binder ps vars as ts body) =
      .bind span binder ps (retyped c vars) (retyped c as) (retyped c ts) (retyped c body) := by
  cases c with
  | none => rfl
  | some change => rw [← Variable.withTypesAllEq, ← Attribute.withTypesAllEq, ← Trigger.withTypesAllEq]; rfl

@[simp] theorem Expr.retypedLetIn (span vars values as body) :
    retyped c (Expr.letIn span vars values as body) =
      .letIn span (retyped c vars) (retyped c values) (retyped c as) (retyped c body) := by
  cases c with
  | none => rfl
  | some change => rw [← LetVar.withTypesAllEq, ← Expr.withTypesAllEq, ← Attribute.withTypesAllEq]; rfl

@[simp] theorem Expr.retypedCode (span locals blocks) :
    retyped c (Expr.code span locals blocks) =
      .code span (retyped c locals) (retyped c blocks) := by
  cases c with
  | none => rfl
  | some change => rw [← Variable.withTypesAllEq, ← Block.withTypesAllEq]; rfl

@[simp] theorem AttributeParam.retypedString (content) :
    retyped c (AttributeParam.string content) =
      .string content := by cases c <;> rfl

@[simp] theorem AttributeParam.retypedExpr (e) : retyped c (AttributeParam.expr e) = .expr (retyped c e) := by cases c <;> rfl

@[simp] theorem Attribute.retypedMk (key params span) :
    retyped c (⟨key, params, span⟩ : Attribute) =
      ⟨key, retyped c params, span⟩ := by
  cases c with
  | none => rfl
  | some change => rw [← AttributeParam.withTypesAllEq]; rfl

@[simp] theorem Trigger.retypedMk (positive exprs span) :
    retyped c (⟨positive, exprs, span⟩ : Trigger) =
      ⟨positive, retyped c exprs, span⟩ := by
  cases c with
  | none => rfl
  | some change => rw [← Expr.withTypesAllEq]; rfl

@[simp] theorem Variable.retypedMk (n type whereClause as span) :
    retyped c (⟨n, type, whereClause, as, span⟩ : Variable) =
      ⟨n, retyped c type, retyped c whereClause, retyped c as, span⟩ := by
  cases c with
  | none => rfl
  | some change => rw [← Expr.withTypes?Eq, ← Attribute.withTypesAllEq]; rfl

@[simp] theorem LetVar.retypedMk (n as span) : retyped c (⟨n, as, span⟩ : LetVar) = ⟨n, retyped c as, span⟩ := by
  cases c with
  | none => rfl
  | some change => rw [← Attribute.withTypesAllEq]; rfl

@[simp] theorem Target.retypedName (id) : retyped c (Target.name id) = .name id := by cases c <;> rfl

@[simp] theorem Target.retypedElement (span map indexes) :
    retyped c (Target.element span map indexes) =
      .element span (retyped c map) (retyped c indexes) := by
  cases c with
  | none => rfl
  | some change => rw [← Expr.withTypesAllEq]; rfl

@[simp] theorem Call.retypedMk (isAsync isFree callee ins outs as span) :
    retyped c (⟨isAsync, isFree, callee, ins, outs, as, span⟩ : Call) =
      ⟨isAsync, isFree, callee, retyped c ins, outs, retyped c as, span⟩ := by
  cases c with
  | none => rfl
  | some change => rw [← Expr.withTypesAllEq, ← Attribute.withTypesAllEq]; rfl

@[simp] theorem Cmd.retypedAssign (span targets values) :
    retyped c (Cmd.assign span targets values) =
      .assign span (retyped c targets) (retyped c values) := by
  cases c with
  | none => rfl
  | some change => rw [← Target.withTypesAllEq, ← Expr.withTypesAllEq]; rfl

@[simp] theorem Cmd.retypedAssert (span as e) :
    retyped c (Cmd.assert span as e) =
      .assert span (retyped c as) (retyped c e) := by
  cases c with
  | none => rfl
  | some change => rw [← Attribute.withTypesAllEq]; rfl

@[simp] theorem Cmd.retypedAssume (span as e) :
    retyped c (Cmd.assume span as e) =
      .assume span (retyped c as) (retyped c e) := by
  cases c with
  | none => rfl
  | some change => rw [← Attribute.withTypesAllEq]; rfl

@[simp] theorem Cmd.retypedHavoc (span vars) : retyped c (Cmd.havoc span vars) = .havoc span vars := by cases c <;> rfl

@[simp] theorem Cmd.retypedCall (span x) : retyped c (Cmd.call span x) = .call span (retyped c x) := by cases c <;> rfl

@[simp] theorem Cmd.retypedParallel (span calls as) :
    retyped c (Cmd.parallel span calls as) =
      .parallel span (retyped c calls) (retyped c as) := by
  cases c with
  | none => rfl
  | some change => rw [← Call.withTypesAllEq, ← Attribute.withTypesAllEq]; rfl

@[simp] theorem Cmd.retypedYield (span) : retyped c (Cmd.yield span) = .yield span := by cases c <;> rfl

@[simp] theorem Transfer.retypedGoto (span labels) :
    retyped c (Transfer.goto span labels) =
      .goto span labels := by cases c <;> rfl

@[simp] theorem Transfer.retypedLeave (span) : retyped c (Transfer.leave span) = .leave span := by cases c <;> rfl

@[simp] theorem Transfer.retypedLeaveWith (span value) :
    retyped c (Transfer.leaveWith span value) =
      .leaveWith span (retyped c value) := by cases c <;> rfl

@[simp] theorem Block.retypedMk (label cmds transfer span) :
    retyped c (⟨label, cmds, transfer, span⟩ : Block) =
      ⟨label, retyped c cmds, retyped c transfer, span⟩ := by
  cases c with
  | none => rfl
  | some change => rw [← Cmd.withTypesAllEq]; rfl

@[simp] theorem Clause.retypedMk (free condition as span) :
    retyped c (⟨free, condition, as, span⟩ : Clause) =
      ⟨free, retyped c condition, retyped c as, span⟩ := by cases c <;> rfl

@[simp] theorem StmtList.retypedMk (blocks closing) :
    retyped c (⟨blocks, closing⟩ : StmtList) =
      ⟨retyped c blocks, closing⟩ := by
  cases c with
  | none => rfl
  | some change => rw [← BigBlock.withTypesAllEq]; rfl

@[simp] theorem BigBlock.retypedMk (span label cmds tail) :
    retyped c (⟨span, label, cmds, tail⟩ : BigBlock) =
      ⟨span, label, retyped c cmds, retyped c tail⟩ := by
  cases c with
  | none => rfl
  | some change => rw [← Tail.withTypes?Eq]; rfl

@[simp] theorem Tail.retypedBranch (command) :
    retyped c (Tail.branch command) =
      .branch (retyped c command) := by cases c <;> rfl

@[simp] theorem Tail.retypedLoop (command) : retyped c (Tail.loop command) = .loop (retyped c command) := by cases c <;> rfl

@[simp] theorem Tail.retypedBreak (span label) : retyped c (Tail.break span label) = .break span label := by cases c <;> rfl

@[simp] theorem Tail.retypedTransfer (command) :
    retyped c (Tail.transfer command) =
      .transfer (retyped c command) := by cases c <;> rfl

@[simp] theorem IfCmd.retypedMk (guard thenBranch elseBranch span) :
    retyped c (⟨guard, thenBranch, elseBranch, span⟩ : IfCmd) =
      ⟨retyped c guard, retyped c thenBranch, retyped c elseBranch, span⟩ := by
  cases c with
  | none => rfl
  | some change => rw [← ElseBranch.withTypes?Eq]; rfl

@[simp] theorem ElseBranch.retypedElseIf (command) :
    retyped c (ElseBranch.elseIf command) =
      .elseIf (retyped c command) := by cases c <;> rfl

@[simp] theorem ElseBranch.retypedBlock (body) :
    retyped c (ElseBranch.block body) =
      .block (retyped c body) := by cases c <;> rfl

@[simp] theorem WhileCmd.retypedMk (guard invariants body span) :
    retyped c (⟨guard, invariants, body, span⟩ : WhileCmd) =
      ⟨retyped c guard, retyped c invariants, retyped c body, span⟩ := by cases c <;> rfl

@[simp] theorem Formal.retypedMk (n type whereClause incoming as span) :
    retyped c (⟨n, type, whereClause, incoming, as, span⟩ : Formal) =
      ⟨n, retyped c type, retyped c whereClause, incoming, retyped c as, span⟩ := by cases c <;> rfl

@[simp] theorem Parent.retypedMk (p : Parent) : retyped c p = p := by cases c <;> rfl

@[simp] theorem Parent.retypedAll (ps : List Parent) : retyped c ps = ps := by
  induction ps with
  | nil => simp
  | cons p rest ih => simp [ih]

@[simp] theorem Parent.retyped? (ps : Option (List Parent)) : retyped c ps = ps := by cases ps <;> simp

@[simp] theorem Constant.retypedMk (n type unique parents complete as span) :
    retyped c (⟨n, type, unique, parents, complete, as, span⟩ : Constant) =
      ⟨n, retyped c type, unique, parents, complete, retyped c as, span⟩ := by cases c <;> rfl

@[simp] theorem TypeConstructor.retypedMk (n arity as span) :
    retyped c (⟨n, arity, as, span⟩ : TypeConstructor) =
      ⟨n, arity, retyped c as, span⟩ := by cases c <;> rfl

@[simp] theorem TypeSynonym.retypedMk (n ps body as span) :
    retyped c (⟨n, ps, body, as, span⟩ : TypeSynonym) =
      ⟨n, ps, retyped c body, retyped c as, span⟩ := by cases c <;> rfl

@[simp] theorem Function.retypedMk (n ps formals result body as span) :
    retyped c (⟨n, ps, formals, result, body, as, span⟩ : Function) =
      ⟨n, ps, retyped c formals, retyped c result, retyped c body, retyped c as, span⟩ := by cases c <;> rfl

@[simp] theorem Axiom.retypedMk (condition as span) :
    retyped c (⟨condition, as, span⟩ : Axiom) =
      ⟨retyped c condition, retyped c as, span⟩ := by cases c <;> rfl

@[simp] theorem Procedure.retypedMk (n ps ins outs requires modifies ensures as span) :
    retyped c (⟨n, ps, ins, outs, requires, modifies, ensures, as, span⟩ : Procedure) =
      ⟨n, ps, retyped c ins, retyped c outs, retyped c requires, modifies, retyped c ensures, retyped c as, span⟩ := by cases c <;> rfl

@[simp] theorem Implementation.retypedMk (n ps ins outs locals body as span) :
    retyped c (⟨n, ps, ins, outs, locals, body, as, span⟩ : Implementation) =
      ⟨n, ps, retyped c ins, retyped c outs, retyped c locals, retyped c body, retyped c as, span⟩ := by cases c <;> rfl

@[simp] theorem Decl.retypedConstant (x) : retyped c (Decl.constant x) = .constant (retyped c x) := by cases c <;> rfl

@[simp] theorem Decl.retypedTypeConstructor (x) :
    retyped c (Decl.typeConstructor x) =
      .typeConstructor (retyped c x) := by cases c <;> rfl

@[simp] theorem Decl.retypedTypeSynonym (x) : retyped c (Decl.typeSynonym x) = .typeSynonym (retyped c x) := by cases c <;> rfl

@[simp] theorem Decl.retypedFunction (x) : retyped c (Decl.function x) = .function (retyped c x) := by cases c <;> rfl

@[simp] theorem Decl.retypedAxiomatic (x) : retyped c (Decl.axiomatic x) = .axiomatic (retyped c x) := by cases c <;> rfl

@[simp] theorem Decl.retypedGlobal (x) : retyped c (Decl.global x) = .global (retyped c x) := by cases c <;> rfl

@[simp] theorem Decl.retypedProcedure (x) : retyped c (Decl.procedure x) = .procedure (retyped c x) := by cases c <;> rfl

@[simp] theorem Decl.retypedImplementation (x) :
    retyped c (Decl.implementation x) =
      .implementation (retyped c x) := by cases c <;> rfl

@[simp] theorem Program.retypedMk (decls) : retyped c (⟨decls⟩ : Program) = ⟨retyped c decls⟩ := by cases c <;> rfl

end Nodes

end Boogie
