import Boogie.Proofs.Tree.Every

/-! Induction over trees that pass checks. A family of facts has one for each sort of node. Where every node
has its fact as soon as its parts have theirs, every tree that passes has its fact. -/
namespace Boogie

structure Facts where
  expr : Expr → Prop
  attr : Attribute → Prop
  trigger : Trigger → Prop
  var : Variable → Prop
  letVar : LetVar → Prop
  target : Target → Prop
  call : Call → Prop
  cmd : Cmd → Prop
  transfer : Transfer → Prop
  block : Block → Prop

structure Facts.Follow (F : Facts) (c : Checks) : Prop where
  literal {span v} (here : c.expr (.literal span v)) : F.expr (.literal span v)
  name {span n} (here : c.expr (.name span n)) (named : c.name n) : F.expr (.name span n)
  old {span body} (ofBody : F.expr body) : F.expr (.old span body)
  apply {span op args} (here : c.expr (.apply span op args)) (ofOp : every c op)
    (ofArgs : ∀ e ∈ args, F.expr e) : F.expr (.apply span op args)
  bind {span binder ps vars as ts body} (here : c.expr (.bind span binder ps vars as ts body))
    (ofPs : every c ps) (ofVars : ∀ v ∈ vars, F.var v) (ofAs : ∀ a ∈ as, F.attr a)
    (ofTs : ∀ t ∈ ts, F.trigger t) (ofBody : F.expr body) : F.expr (.bind span binder ps vars as ts body)
  letIn {span vars values as body} (here : c.expr (.letIn span vars values as body))
    (ofVars : ∀ v ∈ vars, F.letVar v) (ofValues : ∀ e ∈ values, F.expr e) (ofAs : ∀ a ∈ as, F.attr a)
    (ofBody : F.expr body) : F.expr (.letIn span vars values as body)
  code {span locals blocks} (here : c.expr (.code span locals blocks)) (ofLocals : ∀ v ∈ locals, F.var v)
    (ofBlocks : ∀ b ∈ blocks, F.block b) : F.expr (.code span locals blocks)
  attr {key params span} (here : c.attr ⟨key, params, span⟩) (named : c.name key)
    (ofParams : ∀ e, .expr e ∈ params → F.expr e) : F.attr ⟨key, params, span⟩
  trigger {positive exprs span} (here : c.trigger ⟨positive, exprs, span⟩)
    (ofExprs : ∀ e ∈ exprs, F.expr e) : F.trigger ⟨positive, exprs, span⟩
  var {n type whereClause as span} (named : c.name n) (ofType : every c type)
    (ofWhere : ∀ e ∈ whereClause, F.expr e) (ofAs : ∀ a ∈ as, F.attr a) :
    F.var ⟨n, type, whereClause, as, span⟩
  letVar {n as span} (named : c.name n) (ofAs : ∀ a ∈ as, F.attr a) : F.letVar ⟨n, as, span⟩
  targetName {id} (named : every c id) : F.target (.name id)
  element {span map indexes} (ofMap : F.target map) (ofIndexes : ∀ e ∈ indexes, F.expr e) :
    F.target (.element span map indexes)
  call {isAsync isFree callee ins outs as span} (ofCallee : every c callee) (ofIns : ∀ e ∈ ins, F.expr e)
    (ofOuts : every c outs) (ofAs : ∀ a ∈ as, F.attr a) :
    F.call ⟨isAsync, isFree, callee, ins, outs, as, span⟩
  assign {span targets values} (here : c.cmd (.assign span targets values))
    (ofTargets : ∀ t ∈ targets, F.target t) (ofValues : ∀ e ∈ values, F.expr e) :
    F.cmd (.assign span targets values)
  assert {span as e} (ofAs : ∀ a ∈ as, F.attr a) (ofE : F.expr e) : F.cmd (.assert span as e)
  assume {span as e} (ofAs : ∀ a ∈ as, F.attr a) (ofE : F.expr e) : F.cmd (.assume span as e)
  havoc {span vars} (here : c.cmd (.havoc span vars)) (ofVars : every c vars) : F.cmd (.havoc span vars)
  callCmd {span x} (ofX : F.call x) : F.cmd (.call span x)
  parallel {span calls as} (here : c.cmd (.parallel span calls as)) (ofCalls : ∀ x ∈ calls, F.call x)
    (ofAs : ∀ a ∈ as, F.attr a) : F.cmd (.parallel span calls as)
  yield {span} : F.cmd (.yield span)
  goto {span labels} (ofLabels : every c labels) : F.transfer (.goto span labels)
  leave {span} : F.transfer (.leave span)
  leaveWith {span value} (ofValue : F.expr value) : F.transfer (.leaveWith span value)
  block {label cmds transfer span} (here : c.block ⟨label, cmds, transfer, span⟩) (named : c.name label)
    (ofCmds : ∀ x ∈ cmds, F.cmd x) (ofTransfer : F.transfer transfer) : F.block ⟨label, cmds, transfer, span⟩

namespace Facts.Follow

variable {F : Facts} {c : Checks}

mutual

theorem ofExpr (h : F.Follow c) : ∀ e, Expr.passes c e → F.expr e
  | .literal _ _, pass => h.literal pass
  | .name _ _, ⟨here, named⟩ => h.name here named
  | .old _ body, ⟨_, pass⟩ => h.old (ofExpr h body pass)
  | .apply _ _ args, ⟨here, op, pass⟩ => h.apply here op (ofExprs h args pass)
  | .bind _ _ _ vars as ts body, ⟨here, ps, ofVars, ofAs, ofTs, pass⟩ =>
    h.bind here ps (ofVariables h vars ofVars) (ofAttributes h as ofAs) (ofTriggers h ts ofTs)
      (ofExpr h body pass)
  | .letIn _ vars values as body, ⟨here, ofVars, ofValues, ofAs, pass⟩ =>
    h.letIn here (ofLetVars h vars ofVars) (ofExprs h values ofValues) (ofAttributes h as ofAs)
      (ofExpr h body pass)
  | .code _ locals blocks, ⟨here, ofLocals, pass⟩ =>
    h.code here (ofVariables h locals ofLocals) (ofBlocks h blocks pass)

theorem ofExprs (h : F.Follow c) : ∀ es, Expr.allPass c es → ∀ e ∈ es, F.expr e
  | [], _ => nofun
  | e :: rest, ⟨first, more⟩ => List.forall_mem_cons.mpr ⟨ofExpr h e first, ofExprs h rest more⟩

theorem ofOption (h : F.Follow c) : ∀ o, Expr.optionPasses c o → ∀ e ∈ o, F.expr e
  | none, _ => nofun
  | some e, pass => fun _ same => Option.some.inj same ▸ ofExpr h e pass

theorem ofParams (h : F.Follow c) : ∀ ps, AttributeParam.allPass c ps → ∀ e, .expr e ∈ ps → F.expr e
  | [], _ => nofun
  | .string _ :: rest, ⟨_, more⟩ => fun e mem =>
    (List.mem_cons.mp mem).elim nofun (ofParams h rest more e)
  | .expr x :: rest, ⟨first, more⟩ => fun e mem =>
    (List.mem_cons.mp mem).elim (fun same => AttributeParam.expr.inj same ▸ ofExpr h x first)
      (ofParams h rest more e)

theorem ofAttribute (h : F.Follow c) : ∀ a, Attribute.passes c a → F.attr a
  | ⟨_, params, _⟩, ⟨here, named, pass⟩ => h.attr here named (ofParams h params pass)

theorem ofAttributes (h : F.Follow c) : ∀ as, Attribute.allPass c as → ∀ a ∈ as, F.attr a
  | [], _ => nofun
  | a :: rest, ⟨first, more⟩ => List.forall_mem_cons.mpr ⟨ofAttribute h a first, ofAttributes h rest more⟩

theorem ofTrigger (h : F.Follow c) : ∀ t, Trigger.passes c t → F.trigger t
  | ⟨_, exprs, _⟩, ⟨here, pass⟩ => h.trigger here (ofExprs h exprs pass)

theorem ofTriggers (h : F.Follow c) : ∀ ts, Trigger.allPass c ts → ∀ t ∈ ts, F.trigger t
  | [], _ => nofun
  | t :: rest, ⟨first, more⟩ => List.forall_mem_cons.mpr ⟨ofTrigger h t first, ofTriggers h rest more⟩

theorem ofVariable (h : F.Follow c) : ∀ v, Variable.passes c v → F.var v
  | ⟨_, _, whereClause, as, _⟩, ⟨named, type, ofWhere, pass⟩ =>
    h.var named type (ofOption h whereClause ofWhere) (ofAttributes h as pass)

theorem ofVariables (h : F.Follow c) : ∀ vs, Variable.allPass c vs → ∀ v ∈ vs, F.var v
  | [], _ => nofun
  | v :: rest, ⟨first, more⟩ => List.forall_mem_cons.mpr ⟨ofVariable h v first, ofVariables h rest more⟩

theorem ofLetVar (h : F.Follow c) : ∀ v, LetVar.passes c v → F.letVar v
  | ⟨_, as, _⟩, ⟨named, pass⟩ => h.letVar named (ofAttributes h as pass)

theorem ofLetVars (h : F.Follow c) : ∀ vs, LetVar.allPass c vs → ∀ v ∈ vs, F.letVar v
  | [], _ => nofun
  | v :: rest, ⟨first, more⟩ => List.forall_mem_cons.mpr ⟨ofLetVar h v first, ofLetVars h rest more⟩

theorem ofTarget (h : F.Follow c) : ∀ t, Target.passes c t → F.target t
  | .name _, pass => h.targetName pass
  | .element _ map indexes, ⟨ofMap, pass⟩ => h.element (ofTarget h map ofMap) (ofExprs h indexes pass)

theorem ofTargets (h : F.Follow c) : ∀ ts, Target.allPass c ts → ∀ t ∈ ts, F.target t
  | [], _ => nofun
  | t :: rest, ⟨first, more⟩ => List.forall_mem_cons.mpr ⟨ofTarget h t first, ofTargets h rest more⟩

theorem ofCall (h : F.Follow c) : ∀ x, Call.passes c x → F.call x
  | ⟨_, _, _, ins, _, as, _⟩, ⟨callee, ofIns, outs, pass⟩ =>
    h.call callee (ofExprs h ins ofIns) outs (ofAttributes h as pass)

theorem ofCalls (h : F.Follow c) : ∀ xs, Call.allPass c xs → ∀ x ∈ xs, F.call x
  | [], _ => nofun
  | x :: rest, ⟨first, more⟩ => List.forall_mem_cons.mpr ⟨ofCall h x first, ofCalls h rest more⟩

theorem ofCmd (h : F.Follow c) : ∀ x, Cmd.passes c x → F.cmd x
  | .assign _ targets values, ⟨here, ofTargets', pass⟩ =>
    h.assign here (ofTargets h targets ofTargets') (ofExprs h values pass)
  | .assert _ as e, ⟨_, ofAs, pass⟩ => h.assert (ofAttributes h as ofAs) (ofExpr h e pass)
  | .assume _ as e, ⟨_, ofAs, pass⟩ => h.assume (ofAttributes h as ofAs) (ofExpr h e pass)
  | .havoc _ _, ⟨here, vars⟩ => h.havoc here vars
  | .call _ x, ⟨_, pass⟩ => h.callCmd (ofCall h x pass)
  | .parallel _ calls as, ⟨here, ofXs, pass⟩ =>
    h.parallel here (ofCalls h calls ofXs) (ofAttributes h as pass)
  | .yield _, _ => h.yield

theorem ofCmds (h : F.Follow c) : ∀ xs, Cmd.allPass c xs → ∀ x ∈ xs, F.cmd x
  | [], _ => nofun
  | x :: rest, ⟨first, more⟩ => List.forall_mem_cons.mpr ⟨ofCmd h x first, ofCmds h rest more⟩

theorem ofTransfer (h : F.Follow c) : ∀ t, Transfer.passes c t → F.transfer t
  | .goto _ _, labels => h.goto labels
  | .leave _, _ => h.leave
  | .leaveWith _ value, pass => h.leaveWith (ofExpr h value pass)

theorem ofBlock (h : F.Follow c) : ∀ b, Block.passes c b → F.block b
  | ⟨_, cmds, transfer, _⟩, ⟨here, named, ofXs, pass⟩ =>
    h.block here named (ofCmds h cmds ofXs) (ofTransfer h transfer pass)

theorem ofBlocks (h : F.Follow c) : ∀ bs, Block.allPass c bs → ∀ b ∈ bs, F.block b
  | [], _ => nofun
  | b :: rest, ⟨first, more⟩ => List.forall_mem_cons.mpr ⟨ofBlock h b first, ofBlocks h rest more⟩

end

end Facts.Follow

structure StmtFacts where
  stmts : StmtList → Prop
  block : BigBlock → Prop
  tail : Tail → Prop
  branch : IfCmd → Prop
  other : ElseBranch → Prop
  loop : WhileCmd → Prop

structure StmtFacts.Follow (F : StmtFacts) (c : Checks) : Prop where
  stmts {blocks closing} (here : c.stmtList ⟨blocks, closing⟩) (ofBlocks : ∀ b ∈ blocks, F.block b) :
    F.stmts ⟨blocks, closing⟩
  block {span label cmds tail} (named : every c label) (ofCmds : every c cmds) (ofTail : ∀ t ∈ tail, F.tail t) :
    F.block ⟨span, label, cmds, tail⟩
  branchTail {x} (ofX : F.branch x) : F.tail (.branch x)
  loopTail {x} (ofX : F.loop x) : F.tail (.loop x)
  leave {span label} (named : every c label) : F.tail (.break span label)
  transfer {x} (here : c.tail (.transfer x)) (ofX : every c x) : F.tail (.transfer x)
  branch {guard thenBranch elseBranch span} (ofGuard : every c guard) (ofThen : F.stmts thenBranch)
    (ofElse : ∀ b ∈ elseBranch, F.other b) : F.branch ⟨guard, thenBranch, elseBranch, span⟩
  elseIf {x} (ofX : F.branch x) : F.other (.elseIf x)
  elseBlock {body} (ofBody : F.stmts body) : F.other (.block body)
  loop {guard invariants body span} (ofGuard : every c guard) (ofInvariants : every c invariants)
    (ofBody : F.stmts body) : F.loop ⟨guard, invariants, body, span⟩

namespace StmtFacts.Follow

variable {F : StmtFacts} {c : Checks}

mutual

theorem ofStmts (h : F.Follow c) : ∀ l, StmtList.passes c l → F.stmts l
  | ⟨blocks, _⟩, ⟨here, pass⟩ => h.stmts here (ofBlocks h blocks pass)

theorem ofBlock (h : F.Follow c) : ∀ b, BigBlock.passes c b → F.block b
  | ⟨_, _, _, tail⟩, ⟨named, cmds, pass⟩ => h.block named cmds (ofOption h tail pass)

theorem ofBlocks (h : F.Follow c) : ∀ bs, BigBlock.allPass c bs → ∀ b ∈ bs, F.block b
  | [], _ => nofun
  | b :: rest, ⟨first, more⟩ => List.forall_mem_cons.mpr ⟨ofBlock h b first, ofBlocks h rest more⟩

theorem ofOption (h : F.Follow c) : ∀ o, Tail.optionPasses c o → ∀ t ∈ o, F.tail t
  | none, _ => nofun
  | some t, pass => fun _ same => Option.some.inj same ▸ ofTail h t pass

theorem ofTail (h : F.Follow c) : ∀ t, Tail.passes c t → F.tail t
  | .branch x, ⟨_, pass⟩ => h.branchTail (ofBranch h x pass)
  | .loop x, ⟨_, pass⟩ => h.loopTail (ofLoop h x pass)
  | .break _ _, ⟨_, named⟩ => h.leave named
  | .transfer _, ⟨here, pass⟩ => h.transfer here pass

theorem ofBranch (h : F.Follow c) : ∀ x, IfCmd.passes c x → F.branch x
  | ⟨_, thenBranch, elseBranch, _⟩, ⟨guard, ofThen, pass⟩ =>
    h.branch guard (ofStmts h thenBranch ofThen) (ofElse h elseBranch pass)

theorem ofElse (h : F.Follow c) : ∀ o, ElseBranch.optionPasses c o → ∀ b ∈ o, F.other b
  | none, _ => nofun
  | some b, pass => fun _ same => Option.some.inj same ▸ ofOther h b pass

theorem ofOther (h : F.Follow c) : ∀ b, ElseBranch.passes c b → F.other b
  | .elseIf x, pass => h.elseIf (ofBranch h x pass)
  | .block body, pass => h.elseBlock (ofStmts h body pass)

theorem ofLoop (h : F.Follow c) : ∀ x, WhileCmd.passes c x → F.loop x
  | ⟨_, _, body, _⟩, ⟨guard, invariants, pass⟩ => h.loop guard invariants (ofStmts h body pass)

end

end StmtFacts.Follow

end Boogie
