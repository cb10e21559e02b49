import Boogie.Proofs.Alike.Expr
import Boogie.Proofs.Derived.Expr

/-! What is derived is accepted. Words that derive a tree are read as that tree, whatever weaker token
stands behind them. -/
namespace Boogie.Grammar

open Token (Kind Word)

theorem bareBinary {op : BinaryOp} {left right left' right' : Expr} (ofLeft : bare left = left')
    (ofRight : bare right = right') : bare (Expr.binary op left right) = binaryTree op left' right' := by
  subst ofLeft ofRight
  simp [bare, Expr.binary, binaryTree]

def IsTree (e : Expr) (o : Operand) : Prop := bare o = .expr e

theorem IsTree.expr {e : Expr} {o : Operand} (h : IsTree e o) : ∃ a, o = .expr a ∧ bare a = e := by
  cases o with
  | expr a => exact ⟨a, rfl, by simpa [IsTree, bare] using h⟩
  | bits range => simp [IsTree, bare] at h

theorem isTree {a e : Expr} (h : bare a = e) : IsTree e (.expr a) := congrArg Operand.expr h

def Rank.production : Rank → Production Operand
  | .equivalence => Grammar.equivalence Grammar.operand
  | .implication => Grammar.implication Grammar.operand false
  | .implied => Grammar.implication Grammar.operand true
  | .logical | .conjunction | .disjunction => Grammar.logical Grammar.operand
  | .relational => Grammar.relational Grammar.operand
  | .concatenation => Grammar.concatenation Grammar.operand
  | .additive => Grammar.additive Grammar.operand
  | .multiplicative => Grammar.multiplicative Grammar.operand
  | .power => Grammar.power Grammar.operand
  | .unary => Grammar.unary Grammar.operand
  | .brackets => do return .expr (← Grammar.brackets Grammar.operand)
  | .atom => do return .expr (← Grammar.atom Grammar.operand)

def chainLoop {β : Type} (operator : Kind → Option β) (join : β → Expr → Expr → Expr)
    (next : Production Operand) : Operand → Production Operand :=
  whileHolds (nextIs fun k => (operator k).isSome) (chainStep operator join next)

def Rank.loop : Rank → Operand → Production Operand
  | .equivalence => chainLoop iffOp Expr.binary (Grammar.implication Grammar.operand false)
  | .implication => fun o => do
    let e ← o.toExpr
    return .expr (← whileHolds (eat .explies) (expliesStep Grammar.operand) (e, false)).1
  | .conjunction => fun o => do
    let e ← o.toExpr
    return .expr (← whileHolds (nextIs fun k => (logicalOp k).isSome) (logicalStep Grammar.operand .and) e)
  | .disjunction => fun o => do
    let e ← o.toExpr
    return .expr (← whileHolds (nextIs fun k => (logicalOp k).isSome) (logicalStep Grammar.operand .or) e)
  | .concatenation =>
    chainLoop concatOp (fun _ left right => .apply (left.span.merge right.span) .concat [left, right])
      (Grammar.additive Grammar.operand)
  | .additive => chainLoop additiveOp Expr.binary (Grammar.multiplicative Grammar.operand)
  | .multiplicative => chainLoop multiplicativeOp Expr.binary (Grammar.power Grammar.operand)
  | _ => pure

theorem iffOpWeak {k : Kind} (weak : strength k < 1) : iffOp k = none := by
  cases k <;> first | rfl | exact absurd weak (by decide)

theorem arrowsWeak {k : Kind} (weak : strength k < 2) : k ≠ .explies ∧ k ≠ .implies := by
  constructor <;> rintro rfl <;> exact absurd weak (by decide)

theorem logicalOpWeak {k : Kind} (weak : strength k < 3) : logicalOp k = none := by
  cases k <;> first | rfl | exact absurd weak (by decide)

theorem relationalOpWeak {k : Kind} (weak : strength k < 4) : relationalOp k = none := by
  cases k <;> first | rfl | exact absurd weak (by decide)

theorem concatOpWeak {k : Kind} (weak : strength k < 5) : concatOp k = none := by
  cases k <;> first | rfl | exact absurd weak (by decide)

theorem additiveOpWeak {k : Kind} (weak : strength k < 6) : additiveOp k = none := by
  cases k <;> first | rfl | exact absurd weak (by decide)

theorem multiplicativeOpWeak {k : Kind} (weak : strength k < 7) : multiplicativeOp k = none := by
  cases k <;> first | rfl | exact absurd weak (by decide)

theorem notOfStrength {k k' : Kind} {n : Nat} (weak : strength k < n) (strong : n ≤ strength k') : k ≠ k' := by
  rintro rfl
  omega

theorem joinsEquivalence (k : Kind) : Rank.joins .equivalence k = (iffOp k).map binaryTree := by
  cases k <;> rfl

theorem joinsImplication {k : Kind} {join : Expr → Expr → Expr} (joins : Rank.joins .implication k = some join) :
    k = .explies ∧ join = fun left right => binaryTree .implies right left := by
  unfold Rank.joins at joins
  split at joins <;> simp_all

theorem joinsConjunction {k : Kind} {join : Expr → Expr → Expr} (joins : Rank.joins .conjunction k = some join) :
    logicalOp k = some .and ∧ join = binaryTree .and := by
  unfold Rank.joins at joins
  split at joins <;> simp_all [logicalOp]

theorem joinsDisjunction {k : Kind} {join : Expr → Expr → Expr} (joins : Rank.joins .disjunction k = some join) :
    logicalOp k = some .or ∧ join = binaryTree .or := by
  unfold Rank.joins at joins
  split at joins <;> simp_all [logicalOp]

theorem joinsConcatenation (k : Kind) : Rank.joins .concatenation k = (concatOp k).map fun _ => concatTree := by
  cases k <;> rfl

theorem additiveStrength {k : Kind} {op : BinaryOp} (found : additiveOp k = some op) : strength k = 6 := by
  unfold additiveOp at found
  split at found <;> simp_all [strength]

theorem multiplicativeStrength {k : Kind} {op : BinaryOp} (found : multiplicativeOp k = some op) :
    strength k = 7 := by
  unfold multiplicativeOp at found
  split at found <;> simp_all [strength]

theorem strengthOfJoins {rank : Rank} {k : Kind} {join : Expr → Expr → Expr} (h : rank.joins k = some join) :
    strength k = rank.strength ∧ rank.strength < rank.operand.strength := by
  unfold Rank.joins at h
  split at h
  · exact ⟨rfl, by decide⟩
  · exact ⟨rfl, by decide⟩
  · exact ⟨rfl, by decide⟩
  · exact ⟨rfl, by decide⟩
  · exact ⟨rfl, by decide⟩
  · obtain ⟨op, found, _⟩ := Option.map_eq_some_iff.mp h
    exact ⟨additiveStrength found, by decide⟩
  · obtain ⟨op, found, _⟩ := Option.map_eq_some_iff.mp h
    exact ⟨multiplicativeStrength found, by decide⟩
  · simp at h

theorem alikeUnfold (l : Level) (n : Nat) :
    Simulates samePlace n anywhere Alike (level Grammar.operand l) (Grammar.operand l) :=
  Simulates.nestUnfold (V := fun _ => Alike) (fun _ _ _ same l => alikeLevel same l) l

section Levels

variable {ws rest : List Word} {e : Expr}

theorem readsOperand {l : Level} (h : Reads ws rest (IsTree e) (level operand l)) :
    Reads ws rest (IsTree e) (operand l) :=
  .ofSame (alikeUnfold l) (fun a a' same here => (show bare a' = bare a from same.symm).trans here) h

theorem readsToExpr {o : Operand} (h : IsTree e o) {f : Expr → Production Operand} {ws rest : List Word}
    {W : Operand → Prop} (next : ∀ a, bare a = e → Reads ws rest W (f a)) :
    Reads ws rest W (o.toExpr >>= f) := by
  obtain ⟨a, rfl, same⟩ := h.expr
  exact next a same

theorem readsExpression (h : Reads ws rest (IsTree e) (equivalence operand)) :
    Reads ws rest (fun a => bare a = e) operand.expression := by
  refine .last (readsOperand (l := .whole) h) fun o tree => ?_
  obtain ⟨a, rfl, same⟩ := tree.expr
  exact .pure same

theorem logicalFirst {op : BinaryOp} {ws' : List Word} {e' : Expr}
    (first : Reads ws (ws' ++ rest) (IsTree e) (relational operand))
    (more : ∀ o, IsTree e o → Reads ws' rest (IsTree e') (do
      let a ← o.toExpr
      return .expr (← whileHolds (nextIs fun k => (logicalOp k).isSome) (logicalStep operand op) a)))
    (last : ws' = [] → e' = e) (weak : strength (headKind rest) < 3)
    (begins : ∀ w ws, ws' = w :: ws → logicalOp w.kind = some op) :
    Reads (ws ++ ws') rest (IsTree e') (logical operand) := by
  refine .bind first fun o tree => ?_
  cases ws' with
  | nil =>
    refine .byKind rfl ?_
    rw [List.nil_append, logicalOpWeak weak]
    exact .pure (last rfl ▸ tree)
  | cons w ws' =>
    refine .byKind rfl ?_
    rw [List.cons_append, headKindCons, begins w ws' rfl]
    exact more o tree

theorem readsFirst {rank : Rank} {ws' : List Word} {e' : Expr}
    (first : Reads ws (ws' ++ rest) (IsTree e) rank.operand.production)
    (more : ∀ o, IsTree e o → Reads ws' rest (IsTree e') (rank.loop o)) (last : ws' = [] → e' = e)
    (weak : strength (headKind rest) < rank.strength)
    (begins : ∀ w ws, ws' = w :: ws → ∃ join, rank.joins w.kind = some join) :
    Reads (ws ++ ws') rest (IsTree e') rank.production := by
  cases rank with
  | equivalence => exact .bind first more
  | concatenation => exact .bind first more
  | additive => exact .bind first more
  | multiplicative => exact .bind first more
  | implication =>
    refine .bind first fun o tree => ?_
    cases ws' with
    | nil =>
      have ⟨noExplies, noImplies⟩ := arrowsWeak weak
      refine .byKind rfl ?_
      split
      · exact absurd ‹_› noImplies
      · exact absurd ‹_› noExplies
      · exact .pure (last rfl ▸ tree)
    | cons w ws' =>
      obtain ⟨join, joins⟩ := begins w ws' rfl
      exact .byKind (joinsImplication joins).1 (more o tree)
  | conjunction =>
    refine logicalFirst first more last weak fun w ws same => ?_
    obtain ⟨join, joins⟩ := begins w ws same
    exact (joinsConjunction joins).1
  | disjunction =>
    refine logicalFirst first more last weak fun w ws same => ?_
    obtain ⟨join, joins⟩ := begins w ws same
    exact (joinsDisjunction joins).1
  | _ =>
    cases ws' with
    | nil =>
      rw [List.append_nil, last rfl]
      exact first
    | cons w ws' =>
      obtain ⟨join, joins⟩ := begins w ws' rfl
      simp [Rank.joins] at joins

section Chains

variable {β : Type} {operator : Kind → Option β} {join : β → Expr → Expr → Expr} {next : Production Operand}
  {o : Operand} {left tree e' : Expr} {k : Kind} {text : List Char} {op : β} {ws' : List Word}

theorem readsChainStep (found : operator k = some op) (ofO : IsTree left o) (step : Reads ws rest (IsTree e) next)
    (joined : ∀ a b, bare a = left → bare b = e → bare (join op a b) = tree) :
    Reads (⟨k, text⟩ :: ws) rest (IsTree tree) (chainStep operator join next o) := by
  refine .byKind rfl ?_
  simp only [List.cons_append, headKindCons, found]
  refine .advance fun _ _ => readsToExpr ofO fun a ofA => .last step fun o' ofO' => ?_
  exact readsToExpr ofO' fun b ofB => .pure (isTree (joined a b ofA ofB))

theorem readsChainMore (ends : operator .endOfText = none) (found : operator k = some op) (ofO : IsTree left o)
    (step : Reads ws (ws' ++ rest) (IsTree e) next)
    (joined : ∀ a b, bare a = left → bare b = e → bare (join op a b) = tree)
    (more : ∀ o, IsTree tree o → Reads ws' rest (IsTree e') (chainLoop operator join next o)) :
    Reads (⟨k, text⟩ :: (ws ++ ws')) rest (IsTree e') (chainLoop operator join next o) := by
  rw [← List.cons_append]
  exact .whileRound (fun _ => .chainStep ends) (by simp [found]) (readsChainStep found ofO step joined) more

theorem readsChainDone (none : operator (headKind rest) = none) (ofO : IsTree left o) :
    Reads [] rest (IsTree left) (chainLoop operator join next o) :=
  .whileDone (by simp [none]) ofO

end Chains

theorem readsDone {rank : Rank} {left : Expr} {o : Operand} (ofO : IsTree left o)
    (weak : strength (headKind rest) < rank.strength) : Reads [] rest (IsTree left) (rank.loop o) := by
  cases rank with
  | equivalence => exact readsChainDone (iffOpWeak weak) ofO
  | concatenation => exact readsChainDone (concatOpWeak weak) ofO
  | additive => exact readsChainDone (additiveOpWeak weak) ofO
  | multiplicative => exact readsChainDone (multiplicativeOpWeak weak) ofO
  | implication =>
    refine readsToExpr ofO fun a ofA => ?_
    refine .last (V := fun p => bare p.1 = left) ?_ fun p ofP => .pure (isTree ofP)
    exact .whileEatsDone (arrowsWeak weak).1 ofA
  | conjunction =>
    refine readsToExpr ofO fun a ofA => ?_
    refine .last (V := fun b => bare b = left) ?_ fun b ofB => .pure (isTree ofB)
    exact .whileDone (by rw [logicalOpWeak weak]; rfl) ofA
  | disjunction =>
    refine readsToExpr ofO fun a ofA => ?_
    refine .last (V := fun b => bare b = left) ?_ fun b ofB => .pure (isTree ofB)
    exact .whileDone (by rw [logicalOpWeak weak]; rfl) ofA
  | _ => exact .pure ofO

theorem readsLogicalMore {op : BinaryOp} {k : Kind} {text : List Char} {ws' : List Word} {left e' : Expr}
    (found : logicalOp k = some op) {a : Expr} (ofA : bare a = left)
    (step : Reads ws (ws' ++ rest) (IsTree e) (relational operand))
    (more : ∀ b, bare b = binaryTree op left e → Reads ws' rest (fun b => bare b = e')
      (whileHolds (nextIs fun k => (logicalOp k).isSome) (logicalStep operand op) b)) :
    Reads (⟨k, text⟩ :: (ws ++ ws')) rest (fun b => bare b = e')
      (whileHolds (nextIs fun k => (logicalOp k).isSome) (logicalStep operand op) a) := by
  rw [← List.cons_append]
  refine .whileRound (fun _ => .logicalStep) (by simp [found]) ?_ more
  refine .byKind rfl ?_
  simp only [List.cons_append, headKindCons, found, Option.getD_some, bne_self_eq_false]
  refine .unreported ?_
  refine .advance fun _ _ => .last step fun o ofO => ?_
  obtain ⟨b, rfl, ofB⟩ := ofO.expr
  exact .pure (bareBinary ofA ofB)

theorem readsExpliesMore {text : List Char} {ws' : List Word} {left e' : Expr} {a : Expr} (ofA : bare a = left)
    (step : Reads ws (ws' ++ rest) (IsTree e) (logical operand))
    (more : ∀ b, bare b = binaryTree .implies e left → Reads ws' rest (fun p => bare p.1 = e')
      (whileHolds (eat .explies) (expliesStep operand) (b, false))) :
    Reads (⟨.explies, text⟩ :: (ws ++ ws')) rest (fun p => bare p.1 = e')
      (whileHolds (eat .explies) (expliesStep operand) (a, false)) := by
  refine Reads.whileEatsRound (V := fun p => bare p.1 = binaryTree .implies e left ∧ p.2 = false) (by decide) rfl
    ?_ fun p ⟨ofP, unmixed⟩ => ?_
  · refine Reads.unreported ?_
    refine .last step fun o ofO => ?_
    obtain ⟨b, rfl, ofB⟩ := ofO.expr
    exact .pure (And.intro (bareBinary ofB ofA) rfl)
  · obtain ⟨b, mixed⟩ := p
    cases unmixed
    exact more b ofP

theorem readsInside {α : Type} {m : Production α} {f : α → Expr}
    (h : Reads ws rest (IsTree e) (do return .expr (f (← m)))) : Reads ws rest (fun a => bare (f a) = e) m := by
  intro s closed words
  obtain ⟨tree, after⟩ := h s closed words
  obtain ⟨a, same, ofA⟩ := tree.expr
  refine ⟨?_, after⟩
  cases same
  exact ofA

theorem readsMore {rank : Rank} {k : Kind} {join : Expr → Expr → Expr} {text : List Char} {ws' : List Word}
    {left e' : Expr} (joins : rank.joins k = some join)
    (step : Reads ws (ws' ++ rest) (IsTree e) rank.operand.production)
    (more : ∀ o, IsTree (join left e) o → Reads ws' rest (IsTree e') (rank.loop o)) {o : Operand}
    (ofO : IsTree left o) : Reads (⟨k, text⟩ :: (ws ++ ws')) rest (IsTree e') (rank.loop o) := by
  cases rank with
  | equivalence =>
    obtain ⟨op, found, rfl⟩ := Option.map_eq_some_iff.mp ((joinsEquivalence k).symm.trans joins)
    exact readsChainMore rfl found ofO step (fun _ _ => bareBinary) more
  | concatenation =>
    obtain ⟨op, found, rfl⟩ := Option.map_eq_some_iff.mp ((joinsConcatenation k).symm.trans joins)
    refine readsChainMore rfl found ofO step (fun a b ofA ofB => ?_) more
    subst ofA ofB
    simp [bare, concatTree]
  | additive =>
    obtain ⟨op, found, rfl⟩ := Option.map_eq_some_iff.mp joins
    exact readsChainMore rfl found ofO step (fun _ _ => bareBinary) more
  | multiplicative =>
    obtain ⟨op, found, rfl⟩ := Option.map_eq_some_iff.mp joins
    exact readsChainMore rfl found ofO step (fun _ _ => bareBinary) more
  | implication =>
    obtain ⟨rfl, rfl⟩ := joinsImplication joins
    refine readsToExpr ofO fun a ofA => .commute (readsExpliesMore ofA step fun b ofB => ?_) fun p => isTree
    exact readsInside (more (.expr b) (isTree ofB))
  | conjunction =>
    obtain ⟨found, rfl⟩ := joinsConjunction joins
    refine readsToExpr ofO fun a ofA => .commute (readsLogicalMore found ofA step fun b ofB => ?_) fun _ => isTree
    exact readsInside (more (.expr b) (isTree ofB))
  | disjunction =>
    obtain ⟨found, rfl⟩ := joinsDisjunction joins
    refine readsToExpr ofO fun a ofA => .commute (readsLogicalMore found ofA step fun b ofB => ?_) fun _ => isTree
    exact readsInside (more (.expr b) (isTree ofB))
  | _ => simp [Rank.joins] at joins

theorem readsArrow {text : List Char} {ws' : List Word} {e' : Expr} {mixed : Bool}
    (left : Reads ws (⟨.implies, text⟩ :: (ws' ++ rest)) (IsTree e) (logical operand))
    (right : Reads ws' rest (IsTree e') (implication operand true)) :
    Reads (ws ++ ⟨.implies, text⟩ :: ws') rest (IsTree (binaryTree .implies e e')) (implication operand mixed) := by
  refine .bind left fun o ofO => .byKind rfl ?_
  refine .advance fun _ _ => readsToExpr ofO fun a ofA => ?_
  refine .last (readsOperand (l := .implication) right) fun o' ofO' => ?_
  exact readsToExpr ofO' fun b ofB => .pure (isTree (bareBinary ofA ofB))

theorem readsImplied (last : Reads ws rest (IsTree e) (logical operand)) (weak : strength (headKind rest) < 2) :
    Reads ws rest (IsTree e) (implication operand true) := by
  have ⟨noExplies, noImplies⟩ := arrowsWeak weak
  refine .last last fun o ofO => .byKind rfl ?_
  split
  · exact absurd ‹_› noImplies
  · exact absurd ‹_› noExplies
  · exact .pure ofO

theorem readsCompared {k : Kind} {op : BinaryOp} {text : List Char} {ws' : List Word} {e' : Expr}
    (compares : relationalOp k = some op)
    (left : Reads ws (⟨k, text⟩ :: (ws' ++ rest)) (IsTree e) (concatenation operand))
    (right : Reads ws' rest (IsTree e') (concatenation operand)) :
    Reads (ws ++ ⟨k, text⟩ :: ws') rest (IsTree (binaryTree op e e')) (relational operand) := by
  refine .bind left fun o ofO => .byKind rfl ?_
  simp only [List.cons_append, headKindCons, compares]
  refine .advance fun _ _ => readsToExpr ofO fun a ofA => .last right fun o' ofO' => ?_
  exact readsToExpr ofO' fun b ofB => .pure (isTree (bareBinary ofA ofB))

theorem readsRelational (one : Reads ws rest (IsTree e) (concatenation operand))
    (weak : strength (headKind rest) < 4) : Reads ws rest (IsTree e) (relational operand) := by
  refine .last one fun o ofO => .byKind rfl ?_
  rw [List.nil_append, relationalOpWeak weak]
  exact .pure ofO

theorem readsRaised {text : List Char} {ws' : List Word} {e' : Expr}
    (left : Reads ws (⟨.power, text⟩ :: (ws' ++ rest)) (IsTree e) (unary operand))
    (right : Reads ws' rest (IsTree e') (power operand)) :
    Reads (ws ++ ⟨.power, text⟩ :: ws') rest (IsTree (binaryTree .power e e')) (power operand) := by
  refine .bind left fun o ofO => .eatYes rfl ?_
  refine readsToExpr ofO fun a ofA => .last (readsOperand (l := .power) right) fun o' ofO' => ?_
  exact readsToExpr ofO' fun b ofB => .pure (isTree (bareBinary ofA ofB))

theorem readsPower (one : Reads ws rest (IsTree e) (unary operand)) (weak : strength (headKind rest) < 8) :
    Reads ws rest (IsTree e) (power operand) :=
  .last one fun _ ofO => .eatNo (notOfStrength weak (Nat.le_refl _)) (.pure ofO)

theorem readsSigned {k : Kind} {op : UnaryOp} {text : List Char} (sign : unaryOp k = some op)
    (one : Reads ws rest (IsTree e) (unary operand)) :
    Reads (⟨k, text⟩ :: ws) rest (IsTree (unaryTree op e)) (unary operand) := by
  refine .byKind rfl ?_
  simp only [List.cons_append, headKindCons, sign]
  refine .advance fun t _ => .last (readsOperand (l := .unary) one) fun o ofO => ?_
  refine readsToExpr ofO fun a ofA => .pure (isTree ?_)
  subst ofA
  simp [bare, Expr.unary, unaryTree]

theorem readsUnsigned (starts : Starts true ws) (weak : strength (headKind rest) < 9)
    (one : Reads ws rest (fun a => bare a = e) (brackets operand)) :
    Reads ws rest (IsTree e) (unary operand) := by
  obtain ⟨w, more, rfl, first, unsigned⟩ := starts
  refine .byKind rfl ?_
  simp only [List.cons_append, headKindCons, unsigned rfl]
  refine .ifYes first (.last one fun a ofA => ?_)
  exact .whileEatsDone (notOfStrength weak (Nat.le_refl _)) (isTree ofA)

def IsItem (item : Production Expr) : Prop :=
  ∀ ⦃ws rest : List Word⦄ ⦃e : Expr⦄, Reads ws rest (IsTree e) (equivalence operand) →
    Reads ws rest (fun a => bare a = e) item

theorem itemExpression : IsItem operand.expression := fun _ _ _ => readsExpression

theorem itemFurther {first : Operand} {rule : Rule} (notBits : first.isBits = false) :
    IsItem (further operand first rule) := by
  intro ws rest e h
  refine .last (readsOperand (l := .whole) h) fun o ofO => ?_
  obtain ⟨a, rfl, ofA⟩ := ofO.expr
  rw [notBits]
  exact .unreported (.pure ofA)

def ReadsExprs (ws rest : List Word) (es : List Expr) : Prop :=
  ∃ first e more es', ws = first ++ more ∧ es = e :: es' ∧
    Reads first (more ++ rest) (IsTree e) (equivalence operand) ∧
    ∀ item, IsItem item → Reads more rest (fun as => bare as = es') (many (eat .comma) item)

theorem bareCons {a e : Expr} {as es : List Expr} (one : bare a = e) (more : bare as = es) :
    bare (a :: as) = e :: es := by
  subst one more
  rfl

theorem ReadsExprs.separated {es : List Expr} (h : ReadsExprs ws rest es) {item : Production Expr}
    (isItem : IsItem item) : Reads ws rest (fun as => bare as = es) (separated .comma item) := by
  obtain ⟨first, e, more, es', rfl, rfl, one, others⟩ := h
  exact .bind (isItem one) fun a ofA => .last (others item isItem) fun as ofAs => .pure (bareCons ofA ofAs)

theorem ReadsExprs.one (h : Reads ws rest (IsTree e) (equivalence operand)) (last : headKind rest ≠ .comma) :
    ReadsExprs ws rest [e] := by
  refine ⟨ws, e, [], [], (List.append_nil ws).symm, rfl, h, fun item _ => ?_⟩
  exact (Reads.manyEatsDone last).weaken fun as none => by rw [none]; rfl

theorem ReadsExprs.cons {text : List Char} {ws' : List Word} {es : List Expr}
    (h : Reads ws (⟨.comma, text⟩ :: (ws' ++ rest)) (IsTree e) (equivalence operand))
    (more : ReadsExprs ws' rest es) : ReadsExprs (ws ++ ⟨.comma, text⟩ :: ws') rest (e :: es) := by
  refine ⟨ws, e, ⟨.comma, text⟩ :: ws', es, rfl, rfl, h, fun item isItem s closed words => ?_⟩
  have here : s.kind = .comma := State.kindOfWords closed words
  rw [manyAtMark (by decide) closed here]
  exact more.separated isItem s.advance closed (State.wordsCons words).2

theorem readsArguments {closing : List Char} {es : List Expr} (starts : Starts false ws)
    (h : ReadsExprs ws (⟨.rightParen, closing⟩ :: rest) es) :
    Reads (ws ++ [⟨.rightParen, closing⟩]) rest (fun as => bare as = es) (callArguments operand.expression) := by
  obtain ⟨w, more, rfl, first, _⟩ := starts
  refine .bind (V := fun as => bare as = es) (.ifYes first (h.separated itemExpression)) fun as ofAs => ?_
  exact .expectLast rfl (.pure ofAs)

def IsInside (f : Expr → Expr) (found : List Expr × Option BitRange × Option Expr) : Prop :=
  ∀ span base, bare (bracketed span base found) = f (bare base)

theorem insideSelect {as es : List Expr} (same : bare as = es) : IsInside (selectTree es) (as, none, none) := by
  subst same
  intro span base
  simp [bare, bracketed, selectTree]

theorem insideStore {as es : List Expr} {a e : Expr} (same : bare as = es) (value : bare a = e) :
    IsInside (storeTree es e) (as, none, some a) := by
  subst same value
  intro span base
  simp [bare, bracketed, storeTree]

theorem readsIndexes {ws' : List Word} {es : List Expr} {f : Expr → Expr} (starts : Starts false ws)
    (h : ReadsExprs ws (ws' ++ rest) es)
    (behind : ∀ a as, bare (a :: as) = es → Reads ws' rest (fun stored => IsInside f (a :: as, none, stored))
      (stored operand (.expr a))) :
    Reads (ws ++ ws') rest (IsInside f) (indexes operand) := by
  obtain ⟨first, e, more, es', rfl, rfl, one, others⟩ := h
  obtain ⟨w, tail, same, start, _⟩ := starts
  rw [List.append_assoc]
  refine .ifYes ?_ (.bind (V := IsTree e) ?_ fun o ofO => ?_)
  · rw [← List.append_assoc first more ws', same]
    exact start
  · rw [List.append_assoc]
    exact readsOperand (l := .whole) one
  · obtain ⟨a, rfl, ofA⟩ := ofO.expr
    refine .bind (others _ (itemFurther rfl)) fun as ofAs => ?_
    exact .last (behind a as (bareCons ofA ofAs)) fun stored inside => .pure inside

theorem readsSelect {es : List Expr} (starts : Starts false ws) (noStore : headKind rest ≠ .assign)
    (h : ReadsExprs ws rest es) : Reads ws rest (IsInside (selectTree es)) (indexes operand) := by
  have whole : Reads (ws ++ []) rest (IsInside (selectTree es)) (indexes operand) :=
    readsIndexes starts h fun a as same => .eatNo noStore (.pure (insideSelect same))
  rwa [List.append_nil] at whole

theorem readsStore {text : List Char} {ws' : List Word} {es : List Expr} (starts : Starts false ws)
    (h : ReadsExprs ws (⟨.assign, text⟩ :: (ws' ++ rest)) es)
    (value : Reads ws' rest (IsTree e) (equivalence operand)) :
    Reads (ws ++ ⟨.assign, text⟩ :: ws') rest (IsInside (storeTree es e)) (indexes operand) := by
  refine readsIndexes starts h fun a as same => ?_
  exact .eatYes rfl (.last (itemFurther rfl value) fun b ofB => .pure (insideStore same ofB))

theorem readsStoreAll {text : List Char} (value : Reads ws rest (IsTree e) (equivalence operand)) :
    Reads (⟨.assign, text⟩ :: ws) rest (IsInside (storeTree [] e)) (indexes operand) := by
  have notExpr : exprStart.contains .assign = false := by decide
  refine .ifNo notExpr (.eatYes rfl ?_)
  refine .last (readsExpression value) fun a ofA => .pure ?_
  exact insideStore rfl ofA

theorem readsNoIndex {text : List Char} :
    Reads [] (⟨.rightBracket, text⟩ :: rest) (IsInside (selectTree [])) (indexes operand) := by
  have notExpr : exprStart.contains .rightBracket = false := by decide
  exact .ifNo notExpr (.eatNo (by decide : Kind.rightBracket ≠ .assign) (.pure (insideSelect rfl)))

theorem readsBracket {opened closed : List Char} {ws' : List Word} {base e' : Expr} {f : Expr → Expr} {b : Expr}
    (ofB : bare b = base)
    (inside : Reads ws (⟨.rightBracket, closed⟩ :: (ws' ++ rest)) (IsInside f) (indexes operand))
    (more : ∀ b, bare b = f base → Reads ws' rest (fun a => bare a = e')
      (whileHolds (check .leftBracket) (bracket operand) b)) :
    Reads (⟨.leftBracket, opened⟩ :: (ws ++ ⟨.rightBracket, closed⟩ :: ws')) rest (fun a => bare a = e')
      (whileHolds (check .leftBracket) (bracket operand) b) := by
  rw [show ⟨.leftBracket, opened⟩ :: (ws ++ ⟨.rightBracket, closed⟩ :: ws') =
    (⟨.leftBracket, opened⟩ :: (ws ++ [⟨.rightBracket, closed⟩])) ++ ws' by simp]
  refine Reads.whileRound (V := fun b => bare b = f base) (fun _ => .bracket) rfl ?_ more
  refine .advance fun _ _ => .bind inside fun found ofFound => .expectLast rfl (.look fun _ => .pure ?_)
  rw [ofFound, ofB]

theorem readsName {text : List Char} (weak : strength (headKind rest) < 11) :
    Reads [⟨.identifier, text⟩] rest (fun a => bare a = .name .nowhere (Reads.nameOf text)) (atom operand) := by
  refine .byKind rfl (.ident fun span => .eatNo (notOfStrength weak (Nat.le_refl _)) (.pure ?_))
  simp [bare]

theorem readsCall {text opened : List Char} {es : List Expr}
    (args : Reads ws rest (fun as => bare as = es) (callArguments operand.expression)) :
    Reads (⟨.identifier, text⟩ :: ⟨.leftParen, opened⟩ :: ws) rest
      (fun a => bare a = callTree (Reads.nameOf text) es) (atom operand) := by
  refine .byKind rfl (.ident fun span => .eatYes rfl (.last args fun as ofAs => .spanFrom fun _ => .pure ?_))
  subst ofAs
  simp [bare, callTree]

theorem readsNoArguments {closing : List Char} :
    Reads [⟨.rightParen, closing⟩] rest (fun as => bare as = []) (callArguments operand.expression) := by
  have notExpr : exprStart.contains .rightParen = false := by decide
  exact .stay (V := (bare · = [])) (.ifNo notExpr (.pure rfl)) fun as none => .expectLast rfl (.pure none)

theorem readsLiteral {w : Word} {value : Literal} (first : literalStart.contains w.kind = true)
    (reads : literalOfWord w = some value) :
    Reads [w] rest (fun a => bare a = .literal .nowhere value) (atom operand) := by
  have literal : Reads [w] rest (fun a => bare a = .literal .nowhere value) literal := by
    refine .advance fun t same => ?_
    subst same
    have read : literalOf t = literalOfWord (Token.word t) :=
      literalOfSpelled rfl fun _ => String.ofList_toList
    rw [literalValue, read, reads]
    exact .stay (V := (· = value)) (.pure rfl) fun _ same => .pure (by simp [bare, same])
  refine .byKind rfl ?_
  simp only [List.cons_append, headKindCons]
  revert first
  cases w.kind <;>
    first | exact fun _ => literal | exact fun first => absurd first (by decide)

theorem readsParen {opened closed : List Char} (starts : Starts false ws)
    (inner : Reads ws (⟨.rightParen, closed⟩ :: rest) (IsTree e) (equivalence operand)) :
    Reads (⟨.leftParen, opened⟩ :: (ws ++ [⟨.rightParen, closed⟩])) rest (fun a => bare a = e) (atom operand) := by
  obtain ⟨w, more, rfl, first, _⟩ := starts
  refine .byKind rfl (.advance fun t _ => .bind (V := fun a => bare a = e) (.ifYes first ?_) fun a ofA =>
    .expectLast rfl (.pure ofA))
  refine .last (readsOperand (l := .whole) inner) fun o ofO => ?_
  obtain ⟨a, rfl, ofA⟩ := ofO.expr
  exact .pure ofA

end Levels

structure Extras.Accepted (X : Extras) : Prop where
  starting : X.Starting
  atom {ws e rest} (h : X.atom ws e) (weak : strength (headKind rest) < 11) :
    Reads ws rest (fun a => bare a = e) (Grammar.atom operand)
  inside {ws f text rest} (h : X.inside ws f) :
    Reads ws (⟨.rightBracket, text⟩ :: rest) (IsInside f) (indexes operand)

theorem Extras.noneAccepted : Extras.none.Accepted := ⟨noneStarting, False.elim, False.elim⟩

def Phrase.Accepted : (p : Phrase) → List Word → p.Tree → Prop
  | .expr rank, ws, e => ∀ rest, strength (headKind rest) < rank.strength →
    Reads ws rest (IsTree e) rank.production
  | .chain rank left, ws, e => ∀ rest, strength (headKind rest) < rank.strength → ∀ o, IsTree left o →
    Reads ws rest (IsTree e) (rank.loop o)
  | .brackets base, ws, e => ∀ rest, strength (headKind rest) < 10 → ∀ b, bare b = base →
    Reads ws rest (fun a => bare a = e) (whileHolds (check .leftBracket) (bracket operand) b)
  | .inside, ws, f => ∀ text rest, Reads ws (⟨.rightBracket, text⟩ :: rest) (IsInside f) (indexes operand)
  | .exprs, ws, es => ∀ rest, strength (headKind rest) < 1 → headKind rest ≠ .comma → ReadsExprs ws rest es

theorem Rank.operandStrength (rank : Rank) : rank.strength ≤ rank.operand.strength := by
  cases rank <;> decide

theorem Derives.accepted {X : Extras} (fits : X.Accepted) {p : Phrase} {ws : List Word} {tree : p.Tree}
    (h : Derives X p ws tree) : p.Accepted ws tree := by
  induction h with
  | @chain rank ws e ws' e' _ more first others =>
    intro rest weak
    have ⟨alone, joined⟩ := more.begins fits.starting
    refine readsFirst (first _ ?_) (others rest weak) alone weak joined
    cases ws' with
    | nil => exact Nat.lt_of_lt_of_le weak rank.operandStrength
    | cons w ws' =>
      obtain ⟨join, joins⟩ := joined w ws' rfl
      have ⟨same, less⟩ := strengthOfJoins joins
      rw [List.cons_append, headKindCons, same]
      exact less
  | done => exact fun rest weak o ofO => readsDone ofO weak
  | @more rank left k text join ws e ws' e' joins _ more next others =>
    intro rest weak o ofO
    have ⟨_, joined⟩ := more.begins fits.starting
    refine readsMore joins (next _ ?_) (others rest weak) ofO
    cases ws' with
    | nil => exact Nat.lt_of_lt_of_le weak rank.operandStrength
    | cons w ws' =>
      obtain ⟨join, joins⟩ := joined w ws' rfl
      have ⟨same, less⟩ := strengthOfJoins joins
      rw [List.cons_append, headKindCons, same]
      exact less
  | arrow place _ _ left right =>
    intro rest weak
    rcases place with rfl | rfl
    · exact readsArrow (left _ (by decide : strength .implies < 3)) (right rest weak)
    · exact readsArrow (left _ (by decide : strength .implies < 3)) (right rest weak)
  | implied _ last => exact fun rest weak => readsImplied (last rest (Nat.lt_succ_of_lt weak)) weak
  | conjunction _ all => exact all
  | disjunction _ any => exact any
  | @compared k op _ _ _ _ _ compares _ _ left right =>
    intro rest weak
    have strong : strength k < 5 := by
      cases k <;> first | decide | exact absurd compares nofun
    exact readsCompared compares (left _ strong) (right rest (Nat.lt_succ_of_lt weak))
  | relational _ one => exact fun rest weak => readsRelational (one rest (Nat.lt_succ_of_lt weak)) weak
  | raised _ _ left right =>
    exact fun rest weak => readsRaised (left _ (by decide : strength .power < 9)) (right rest weak)
  | power _ one => exact fun rest weak => readsPower (one rest (Nat.lt_succ_of_lt weak)) weak
  | signed sign _ one => exact fun rest weak => readsSigned sign (one rest weak)
  | unary h one =>
    intro rest weak
    refine readsUnsigned (h.begins fits.starting) weak ?_
    exact readsInside (f := id) (one rest (Nat.lt_succ_of_lt weak))
  | @brackets _ _ ws' _ _ more base others =>
    intro rest weak
    refine .commute (.bind (readsInside (f := id) (base _ ?_)) (others rest weak)) fun _ => isTree
    cases ws' with
    | nil => exact Nat.lt_succ_of_lt weak
    | cons w ws' =>
      rw [List.cons_append, headKindCons, more.begins fits.starting w ws' rfl]
      decide
  | bare =>
    intro rest weak b ofB
    have other : headKind rest ≠ .leftBracket := notOfStrength weak (Nat.le_refl _)
    exact .whileDone (by simpa using other) ofB
  | bracket _ _ inside others =>
    exact fun rest weak b ofB => readsBracket ofB (inside _ _) (others rest weak)
  | empty => exact fun text rest => readsNoIndex
  | select h indexes =>
    intro text rest
    refine readsSelect (h.begins fits.starting) (by decide : Kind.rightBracket ≠ .assign) (indexes _ ?_ ?_)
    · exact (by decide : strength .rightBracket < 1)
    · exact (by decide : Kind.rightBracket ≠ .comma)
  | store h _ indexes value =>
    intro text rest
    refine readsStore (h.begins fits.starting) (indexes _ ?_ ?_) (value _ (by decide : strength .rightBracket < 1))
    · exact (by decide : strength .assign < 1)
    · exact (by decide : Kind.assign ≠ .comma)
  | storeAll _ value =>
    exact fun text rest => readsStoreAll (value _ (by decide : strength .rightBracket < 1))
  | otherInside other => exact fun text rest => fits.inside other
  | one _ one => exact fun rest weak last => .one (one rest weak) last
  | cons _ _ first more =>
    exact fun rest weak last => .cons (first _ (by decide : strength .comma < 1)) (more rest weak last)
  | name => exact fun rest weak => .commute (readsName weak) fun _ => isTree
  | call h args =>
    intro rest weak
    refine .commute (readsCall (readsArguments (h.begins fits.starting) (args _ ?_ ?_))) fun _ => isTree
    · exact (by decide : strength .rightParen < 1)
    · exact (by decide : Kind.rightParen ≠ .comma)
  | callNone => exact fun rest weak => .commute (readsCall readsNoArguments) fun _ => isTree
  | literal first reads => exact fun rest weak => .commute (readsLiteral first reads) fun _ => isTree
  | paren h inner =>
    intro rest weak
    have weak : strength .rightParen < 1 := by decide
    exact .commute (readsParen (h.begins fits.starting) (inner _ weak)) fun _ => isTree
  | otherAtom other => exact fun rest weak => .commute (fits.atom other weak) fun _ => isTree

end Boogie.Grammar
