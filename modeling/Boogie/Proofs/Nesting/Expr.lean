import Boogie.Proofs.Nesting.Held

/-! Where expressions stand. What a production makes of what it nests reaches from its first token, or its first
operand, to the token or the operand that it read last. -/
namespace Boogie.Grammar

open Token (Kind)

variable {row : TokenRow} {i j k l n : Nat} {sort : Kind → Prop} {span : Span}

section Types

variable {type : Production Ty}

theorem laysTypeAtom (real : ∀ x, sort x → x ≠ .endOfText)
    (inner : ∀ i, Lays row i n anywhere (fun j t => Amid row i j t.span) type) :
    Lays row i (n + 1) sort (fun j t => Amid row i j t.span) (typeAtom type) := by
  refine .advance real (fun t _ here => ?_) (Nat.le_refl _)
  split
  · exact .pure here.within
  · refine .bind (inner (i + 1)) fun j t le found => .expect (by decide) (.pure ?_)
    exact found.wider (Nat.le_succ i) (Nat.le_succ j)

theorem laysMapType (real : ∀ x, sort x → x ≠ .endOfText) :
    Lays row i n sort (fun j t => Amid row i j t.span) (mapType type) := by
  refine .hereSpan real fun start here => .skip fun j params le => .expect (by decide) ?_
  refine .skip fun k args le' => .expect (by decide) (.skip fun l result le'' => ?_)
  exact .spanFrom here (by omega) fun whole there => .pure there.within

theorem namedTypeSpan (span : Span) (name : String) (escaped : Bool) (args : List Ty) :
    (namedType span name escaped args).span = span := by
  unfold namedType
  split <;> rfl

theorem laysTypeLevel (inner : ∀ i, Lays row i n anywhere (fun j t => Amid row i j t.span) type) :
    Lays row i (n + 1) sort (fun j t => Amid row i j t.span) (typeLevel type) := by
  refine .ifNext ?_ (.ifNext ?_ (.ifNext ?_ (.fault (.syntaxError _))))
  · refine .hereSpan (by rintro x ⟨_, h⟩ rfl; simp at h) fun start here => ?_
    refine .identWritten (fun id escaped _ => .skip fun j args le => ?_) (Nat.le_succ _)
    refine .spanFrom here le fun whole there => .pure ?_
    rw [namedTypeSpan]
    exact there.within
  · exact laysMapType (by rintro x ⟨_, h⟩ rfl; revert h; decide)
  · exact laysTypeAtom (by rintro x ⟨_, h⟩ rfl; revert h; decide) inner

theorem laysType : Lays row i n sort (fun j t => Amid row i j t.span) Grammar.type := by
  refine Lays.always (.nest (T := fun _ i j (t : Ty) => Amid row i j t.span) (fun _ _ same _ _ => ?_) () i)
  exact laysTypeLevel (same ())

end Types

instance : Outermost BitRange := ⟨fun _ => []⟩

instance : Outermost Operand where
  outermost
    | .expr e => [e]
    | .bits _ => []

@[simp] theorem outermostRange (range : BitRange) : outermost range = [] := rfl

@[simp] theorem outermostNoRange (range : Option BitRange) : outermost range = [] := by
  cases range <;> rfl

@[simp] theorem outermostOperand (e : Expr) : outermost (Operand.expr e) = [e] := rfl

@[simp] theorem outermostBits (range : BitRange) : outermost (Operand.bits range) = [] := rfl

theorem Between.expr {e : Expr} (h : Laid row i j e) : Between row i j (Operand.expr e) :=
  fun _ mem => List.mem_singleton.mp mem ▸ h

section Operands

variable {α : Type} {T : Nat → α → Prop} {m : Production Operand} {f : Expr → Production α}

theorem laysToExpr {o : Operand} (known : Between row k l o) (rest : ∀ e, Laid row k l e → Lays row i n sort T (f e)) :
    Lays row i n sort T (o.toExpr >>= f) := by
  cases o with
  | expr e => exact rest e (known e (List.mem_singleton_self e))
  | bits range =>
    show Lays row i n sort T (brokenAt range.span .misplacedBounds >>= fun _ => f (.placeholder range.span))
    exact .fault (.brokenAt _ _)

theorem laysExprOf (step : Houses row n sort [] m)
    (rest : ∀ j e, i ≤ j → Laid row i j e → Lays row j n anywhere T (f e)) :
    Lays row i n sort T (m >>= fun o => o.toExpr >>= f) :=
  .bind step.between fun j _ le known => laysToExpr known (rest j · le)

theorem laysAsExpr (step : Houses row n sort [] m) : Lays row i n sort (fun j e => Laid row i j e) (do (← m).toExpr) :=
  laysExprOf (f := pure) step fun _ _ _ => .pure

theorem laysJoined {a : Expr} {join : Expr → Expr → Expr}
    (pair : ∀ {i j k} a b, Laid row i j a → Laid row j k b → Laid row i k (join a b)) (left : Laid row k l a)
    (le : l ≤ i) (step : Houses row n sort [] m) :
    Lays row i n sort (fun j o => Between row k j o) (do return Operand.expr (join a (← (← m).toExpr))) :=
  laysExprOf step fun _ b _ right => .pure (.expr (pair a b (left.wider (Nat.le_refl k) le) right))

section Chains

variable {β : Type} {operator : Kind → Option β} {join : β → Expr → Expr → Expr}
  (pair : ∀ {i j k} op a b, Laid row i j a → Laid row j k b → Laid row i k (join op a b))
  (step : Houses row n anywhere [] m)
include pair step

theorem laysChainStep {o : Operand} (known : Between row k i o) :
    Lays row i n (fun x => (operator x).isSome = true) (fun j o => Between row k j o)
      (chainStep operator join m o) := by
  refine .byKind fun x _ => ?_
  split
  · rename_i op _
    refine .skip fun j _ le => laysToExpr known fun a left => ?_
    exact laysJoined (pair op) left le step
  · exact .pure known

theorem housesChain (first : Houses row n sort [] m) : Houses row n sort [] (chain operator join m) := by
  refine .ofBetween fun i => .bind first.between fun j o le known => ?_
  exact .whileNext (Q := fun j o => Between row i j o) (fun k o' _ known' => laysChainStep pair step known') known

end Chains

end Operands

theorem betweenExprs {es : List Expr} (h : Between row i j es) : ∀ e ∈ es, Laid row i j e := by
  simpa [Between] using h

section Levels

variable {nested : Nested} (same : ∀ l, Houses row n anywhere [] (nested l))
include same

theorem housesNested : Houses row n sort [] nested.expression := .ofLaid fun _ => laysAsExpr (same .whole).always

theorem laysNameOrCall : Lays row i (n + 1) sort (fun j e => Laid row i j e) (nameOrCall nested.expression) := by
  have one : Houses row n anywhere [] nested.expression := housesNested same
  refine .ident (k := n) (fun id here => ?_) (Nat.le_refl _)
  refine .eat (k := n) (by decide) ?_ (.pure (laidNode here nofun trivial)) (Nat.le_succ n)
  refine .bind (housesArguments one).between fun j args le found => ?_
  refine .spanFrom here (by omega) fun whole there => .pure ?_
  exact laidNode there (betweenExprs (found.wider (by omega) (Nat.le_refl j))) trivial

theorem housesLetVar : Houses row n sort [] (letVar nested.expression) :=
  .bind (housesAttributes (housesNested same)) fun found => .skip fun id => .pure (by simp)

theorem laysLetBody : Lays row i n (· = .kwVar) (fun j e => Laid row i j e) (letBody nested.expression) := by
  have one : Houses row n anywhere [] nested.expression := housesNested same
  refine .token (by decide) (fun t _ here => ?_) (Nat.le_succ n)
  refine .bind (Houses.commaSeparated (housesLetVar same)).between fun j vars le ofVars => .expect (by decide) ?_
  refine .bind (Houses.commaSeparated one).between fun k values le' ofValues => .expect (by decide) ?_
  refine .bind (housesAttributes one).between fun l found le'' ofFound => .bind one.laid fun m body _ last => .pure ?_
  refine laidUpTo here last (by omega) rfl (fun child mem => ?_) trivial
  simp only [Expr.children, List.mem_append, List.mem_singleton] at mem
  rcases mem with ((mem | mem) | mem) | rfl
  · exact .inr ((ofVars child mem).wider (Nat.le_succ i) (by omega))
  · exact .inr ((betweenExprs ofValues child mem).wider (by omega) (by omega))
  · exact .inr ((ofFound child mem).wider (by omega) (Nat.le_refl l))
  · exact .inl rfl

theorem housesBound : Houses row n sort [] (bound nested.expression) := by
  have groups {sort : Kind → Prop} : Houses row n sort [] (attributedGroups nested.expression .boundVariables) :=
    housesAttributedGroups (housesNested same)
  refine .ifNext ?_ (.ifNext (.last groups fun vars => by simp) (.fault (.syntaxError _)))
  refine .skip fun params => .bind (f := fun vars => pure (params, vars)) ?_ fun vars => .pure (by simp)
  exact .ifNext groups (.pure (List.nil_subset _))

omit same in
theorem laidBinding (start : Stretch row k l span) {binder : Binder} {params : List Ident} {vars : List Variable}
    {as : List Attribute} {triggers : List Trigger} {body : Expr} (le : l ≤ i) (last : Laid row i j body)
    (inner : ∀ e ∈ outermost vars ++ outermost as ++ outermost triggers, Laid row k i e) :
    Laid row k j (binding span binder params vars as triggers body) := by
  have less := start.less
  unfold binding
  split
  · exact last.wider (by omega) (Nat.le_refl j)
  · refine laidUpTo start last le rfl (fun child mem => ?_) trivial
    simp only [Expr.children, List.mem_append, List.mem_singleton] at mem inner
    rcases mem with mem | rfl
    · refine .inr (inner child (mem.imp_right fun triggered => ?_))
      -- a lambda keeps no triggers
      split at triggered
      · exact absurd triggered List.not_mem_nil
      · exact triggered
    · exact .inl rfl

theorem laysBindBody {binder : Binder} (start : Stretch row k l span) (le : l ≤ i) :
    Lays row i n sort (fun j e => Laid row k j e) (bindBody nested.expression binder span) := by
  have one : Houses row n anywhere [] nested.expression := housesNested same
  have less := start.less
  refine .bind (housesBound same).between fun j (params, vars) above ofVars => .expect (by decide) ?_
  refine .bind (housesBracedGroups one).between fun m (found, triggers) above' ofFound => .bind one.laid ?_
  refine fun m' body above'' last => .given (.broken _) fun _ => .pure (laidBinding start (by omega) last ?_)
  intro e mem
  simp only [List.mem_append] at mem
  rcases mem with (mem | mem) | mem
  · exact (ofVars e (List.mem_append_right _ mem)).wider (by omega) (by omega)
  · exact (ofFound e (List.mem_append_left _ mem)).wider (by omega) (Nat.le_refl m)
  · exact (ofFound e (List.mem_append_right _ mem)).wider (by omega) (Nat.le_refl m)

theorem laysParenBody (start : Stretch row k i span) :
    Lays row i n sort (fun j e => Laid row k j e) (parenBody nested span) := by
  have less := start.less
  refine .ifNext ?_ (.ifNext ?_ (.byKind fun x _ => ?_))
  · refine .bind (same .whole).always.between fun j o le known => ?_
    cases o with
    | expr e => exact .pure ((known e (List.mem_singleton_self e)).wider (by omega) (Nat.le_refl j))
    | bits range => exact .fault (.broken _)
  · have body : Lays row i n (· = .kwVar) (fun j e => Laid row k j e) (letBody nested.expression) :=
      (laysLetBody same).weaken fun j e _ found => found.wider (by omega) (Nat.le_refl j)
    exact body.mono (fun x is => by simpa using is.2) (Nat.le_refl n)
  · split
    · exact .skip fun j _ le => laysBindBody same start le
    · exact .fault (.syntaxError _)

theorem laysParen : Lays row i (n + 1) (· = .leftParen) (fun j e => Laid row i j e) (paren nested) := by
  refine .token (k := n) (by decide) (fun t _ here => ?_) (Nat.le_refl _)
  refine .bind (laysParenBody same here) fun j e _ found => .expect (by decide) (.pure ?_)
  exact found.wider (Nat.le_refl i) (Nat.le_succ j)

theorem laysIfThenElse : Lays row i (n + 1) (· = .kwIf) (fun j e => Laid row i j e) (ifThenElse nested.expression) := by
  have one : Houses row n anywhere [] nested.expression := housesNested same
  refine .token (k := n) (by decide) (fun t _ here => ?_) (Nat.le_refl _)
  refine .bind one.laid fun j condition le first => .expect (by decide) ?_
  refine .bind one.laid fun k thenPart le' next => .expect (by decide) ?_
  refine .bind one.laid fun l elsePart _ last => .pure ?_
  refine laidUpTo here last (by omega) rfl (fun child mem => ?_) trivial
  simp only [Expr.children, List.mem_cons, List.not_mem_nil, or_false] at mem
  rcases mem with rfl | rfl | rfl
  · exact .inr (first.wider (by omega) (by omega))
  · exact .inr (next.wider (by omega) (by omega))
  · exact .inl rfl

theorem laysParenthesized :
    Lays row i n sort (fun j e => Laid row i j e) (parenthesized nested.expression) := by
  have one : Houses row n anywhere [] nested.expression := housesNested same
  refine .expect (by decide) (.bind one.laid fun j e le found => .expect (by decide) (.pure ?_))
  exact found.wider (Nat.le_succ i) (Nat.le_succ j)

theorem laysWorded {x : Kind} (real : x ≠ .endOfText) {make : Span → Expr → Expr}
    (made : ∀ span e, (make span e).span = span ∧ (make span e).children = [e] ∧ (make span e).OperandsApart) :
    Lays row i (n + 1) (· = x) (fun j e => Laid row i j e) (do
      let start := (← advance).span
      let inner ← parenthesized nested.expression
      return make (← spanFrom start) inner) := by
  refine .token (k := n) real (fun t _ here => .bind (laysParenthesized same) fun j e le found => ?_) (Nat.le_refl _)
  refine .spanFrom here le fun whole there => .pure ?_
  obtain ⟨spans, children, apart⟩ := made whole e
  refine laidNode (by rwa [spans]) (fun child mem => ?_) apart
  rw [children, List.mem_singleton] at mem
  exact mem ▸ found.wider (Nat.le_succ i) (Nat.le_refl j)

theorem housesBlockCmd : Houses row n sort [] (blockCmd nested.expression) := by
  refine .bind (housesLabelOrCmd (housesNested same)) fun found => ?_
  cases found with
  | cmd c => exact .pure (by simp)
  | label id => exact .fault (.broken _)
  | mistake => exact .pure (List.nil_subset _)

theorem housesBlockTransfer : Houses row n sort [] (blockTransfer nested.expression) := by
  refine .look fun start => .ifEats ?_ (.ifEats ?_ (.fault (.syntaxError _)))
  · exact .skip fun labels => .skip fun span => .pure (by simp)
  · exact .bind (housesNested same) fun value => .skip fun span => .pure (by simp)

theorem housesBlock : Houses row n sort [] (block nested.expression) := by
  refine .skip fun label => .skip fun _ => .bind (.manyNext (housesBlockCmd same)) fun cmds => ?_
  refine .bind (housesBlockTransfer same) fun transfer => .skip fun _ => .skip fun span => .pure ?_
  have present := outermostPresent cmds
  simp only [Block.outermostMk, List.nil_append]
  exact List.append_subset.mpr ⟨List.subset_append_of_subset_left _ present, List.subset_append_right _ _⟩

theorem laysCode : Lays row i (n + 1) (· = .leftCode) (fun j e => Laid row i j e) (codeExpr nested.expression) := by
  have one : Houses row n anywhere [] nested.expression := housesNested same
  refine .token (k := n) (by decide) (fun t _ here => ?_) (Nat.le_refl _)
  refine .bind (housesLocalVariables one).between fun j locals le ofLocals => ?_
  refine .bind (housesBlock same).between fun k first le' ofFirst => ?_
  refine .bind (Houses.manyNext (housesBlock same)).between fun l rest le'' ofRest => .expect (by decide) ?_
  refine .spanFrom here (by omega) fun whole there => .pure (laidNode there (fun child mem => ?_) trivial)
  simp only [Expr.children, outermostCons, List.mem_append] at mem
  rcases mem with mem | mem | mem
  · exact (ofLocals child mem).wider (by omega) (by omega)
  · exact (ofFirst child mem).wider (by omega) (by omega)
  · exact (ofRest child mem).wider (by omega) (by omega)

omit same in
theorem laysLiteral (real : ∀ x, sort x → x ≠ .endOfText) :
    Lays row i n sort (fun j e => Laid row i j e) literal := by
  refine .advance real (fun t _ here => .skip fun j value le => .pure ?_) (Nat.le_succ n)
  have found : Laid row i (i + 1) (.literal t.span value) := laidNode here nofun trivial
  exact found.wider (Nat.le_refl i) le

theorem laysAtom : Lays row i (n + 1) sort (fun j e => Laid row i j e) (atom nested) := by
  refine .byKind fun x _ => ?_
  split
  · exact laysNameOrCall same
  · exact laysParen same
  · exact laysIfThenElse same
  · exact laysCode same
  · exact laysWorded same (by decide) fun span e => ⟨rfl, rfl, trivial⟩
  · exact laysWorded same (by decide) fun span e => ⟨rfl, rfl, trivial⟩
  · exact laysWorded same (by decide) fun span e => ⟨rfl, rfl, trivial⟩
  · split
    · exact laysLiteral (by rintro x rfl rfl; exact absurd ‹literalStart.contains _ = true› (by decide))
    · exact .fault (.syntaxError _)

theorem housesFurther {first : Operand} {rule : Rule} : Houses row n sort [] (further nested first rule) := by
  refine .bind (same .whole).always fun next => .given (.broken _) fun none => ?_
  cases next with
  | expr e => exact .pure (by simp [Operand.exprOrPlaceholder])
  | bits range => simp [Operand.isBits] at none

theorem housesStored {first : Operand} : Houses row n sort [] (stored nested first) :=
  .ifEats (.last (housesFurther same) fun value => by simp) (.pure (List.nil_subset _))

theorem housesIndexes : Houses row n sort [] (indexes nested) := by
  refine .ifNext (.bind (same .whole).always fun first => ?_) (.ifEats ?_ (.pure (List.nil_subset _)))
  · refine .bind (.manyEats (by decide) (housesFurther same)) fun rest => .bind (housesStored same) fun value => ?_
    cases first with
    | expr e => exact .pure (by simp)
    | bits range => exact .pure (by simp)
  · exact .last (housesNested same) fun value => by simp

omit same in
theorem bracketedNode (span : Span) (base : Expr) (found : List Expr × Option BitRange × Option Expr) :
    (bracketed span base found).span = span ∧ (bracketed span base found).OperandsApart ∧
      ∀ child ∈ (bracketed span base found).children, child = base ∨ child ∈ outermost found := by
  unfold bracketed
  split <;> refine ⟨rfl, trivial, fun child mem => ?_⟩ <;> simp_all [Expr.children]

theorem laysBracket {base : Expr} (known : Laid row k i base) :
    Lays row i (n + 1) (fun x => (x == .leftBracket) = true) (fun j e => Laid row k j e) (bracket nested base) := by
  refine .advance (by rintro x h rfl; simp at h) (k := n) (fun t _ _ => ?_) (Nat.le_refl _)
  refine .bind (housesIndexes same).between fun j found le ofFound => .expect (by decide) ?_
  refine .previousSpan fun last there => .pure ?_
  obtain ⟨spans, apart, children⟩ := bracketedNode (base.span.merge last) base found
  refine laidFrom known (there j rfl).within (by omega) spans (fun child mem => ?_) apart
  exact (children child mem).imp_right fun mem => (ofFound child mem).wider (Nat.le_succ i) (Nat.le_refl j)

theorem laysBrackets : Lays row i (n + 1) sort (fun j e => Laid row i j e) (brackets nested) :=
  .bind (laysAtom same) fun _ _ _ known => .whileNext (fun _ _ _ => laysBracket same) known

omit same in
theorem laysCoerced {o : Operand} (known : Between row k i o) :
    Lays row i n sort (fun j o => Between row k j o) (coerced o) := by
  refine .ifNext ?_ (.ifNext ?_ (.fault (.syntaxError _)))
  · refine .bind laysType fun j t le there => laysToExpr known fun e first => .pure (.expr ?_)
    exact laidFrom first there (Nat.le_refl i) rfl (fun child mem => .inl (by simpa [Expr.children] using mem)) trivial
  · refine .skip fun _ t _ => .skip fun _ value _ => .skip fun _ lower _ => .skip fun _ upper _ => .pure ?_
    exact fun _ mem => absurd mem List.not_mem_nil

theorem laysCoercion : Lays row i (n + 1) sort (fun j o => Between row i j o) (coercion nested) :=
  .bind (laysBrackets same) fun _ e _ known => by
    refine .whileEats (Q := fun j o => Between row i j o) (by decide) (fun j o _ known' => ?_) (.expr known)
    exact laysCoerced (known'.wider (Nat.le_refl i) (Nat.le_succ j))

theorem housesUnary : Houses row (n + 1) sort [] (unary nested) := by
  refine .ofBetween fun i => .byKind fun x _ => ?_
  split
  · rename_i op sign
    have real : x ≠ .endOfText := by rintro rfl; exact absurd sign nofun
    refine .token (k := n) real (fun t _ here => ?_) (Nat.le_refl _)
    refine laysExprOf (same .unary) fun j e _ last => .pure (.expr ?_)
    exact laidUpTo here last (Nat.le_refl _) rfl (fun child mem => .inl (List.mem_singleton.mp mem)) trivial
  · exact .ifNext (laysCoercion same) (.fault (.syntaxError _))

omit same in
theorem laidBinary (op : BinaryOp) (a b : Expr) (left : Laid row i j a) (right : Laid row j k b) :
    Laid row i k (.binary op a b) := (laidPair left right (.binary op)).1

theorem housesPower : Houses row (n + 1) sort [] (power nested) := by
  refine .ofBetween fun i => .bind (housesUnary same).between fun j o le known => ?_
  refine .eat (k := n) (by decide) (laysToExpr known fun a left => ?_) (.pure known) (Nat.le_refl _)
  exact laysJoined (laidBinary .power) left (Nat.le_succ j) (same .power)

theorem housesMultiplicative : Houses row (n + 1) sort [] (multiplicative nested) :=
  housesChain laidBinary (housesPower same) (housesPower same)

theorem housesAdditive : Houses row (n + 1) sort [] (additive nested) :=
  housesChain laidBinary (housesMultiplicative same) (housesMultiplicative same)

theorem housesConcatenation : Houses row (n + 1) sort [] (concatenation nested) :=
  housesChain (fun _ _ _ left right => (laidPair left right .concat).1) (housesAdditive same) (housesAdditive same)

theorem housesRelational : Houses row (n + 1) sort [] (relational nested) := by
  refine .ofBetween fun i => .bind (housesConcatenation same).between fun j o le known => .byKind fun x _ => ?_
  split
  · refine .skip fun k _ le' => laysToExpr known fun a left => ?_
    exact laysJoined (laidBinary _) left le' (housesConcatenation same)
  · exact .pure known

theorem laysLogicalStep {first : BinaryOp} {a : Expr} (left : Laid row k i a) :
    Lays row i (n + 1) sort (fun j e => Laid row k j e) (logicalStep nested first a) := by
  refine .byKind fun x _ => .given (.syntaxError _) fun _ => .skip fun j _ le => ?_
  refine laysExprOf (housesRelational same) fun l b _ right => .pure ?_
  exact laidBinary _ a b (left.wider (Nat.le_refl k) le) right

theorem housesLogical : Houses row (n + 1) sort [] (logical nested) := by
  refine .ofBetween fun i => .bind (housesRelational same).between fun j o le known => .byKind fun x _ => ?_
  split
  · exact .pure known
  · refine laysToExpr known fun e left => ?_
    refine .bind (T := fun j e => Laid row i j e) ?_ fun k e _ found => .pure (.expr found)
    exact .whileNext (fun _ _ _ => laysLogicalStep same) left

theorem laysExpliesStep {a : Expr} {mixed : Bool} (left : Laid row k i a) :
    Lays row i (n + 1) sort (fun j e => Laid row k j e.1) (expliesStep nested (a, mixed)) := by
  refine .given (.broken _) fun _ => laysExprOf (housesLogical same) fun j b _ right => .pure ?_
  -- the first operand of the node stands behind the second
  rw [Expr.binary, Span.mergeComm]
  exact (laidPair left right (.binary .implies)).2

theorem housesImplication {afterImplies : Bool} : Houses row (n + 1) sort [] (implication nested afterImplies) := by
  refine .ofBetween fun i => .bind (housesLogical same).between fun j o le known => .byKind fun x _ => ?_
  split
  · refine .token (k := n) (by decide) (fun t _ _ => laysToExpr known fun a left => ?_) (Nat.le_refl _)
    exact laysJoined (laidBinary .implies) left (Nat.le_succ j) (same .implication)
  · refine laysToExpr known fun e left => ?_
    refine .bind (T := fun j e => Laid row i j e.1) ?_ fun k e _ found => .pure (.expr found)
    refine .whileEats (by decide) (fun l a _ left => ?_) left
    exact laysExpliesStep same (left.wider (Nat.le_refl i) (Nat.le_succ l))
  · exact .pure known

theorem housesLevel (l : Level) : Houses row (n + 1) sort [] (level nested l) := by
  cases l with
  | whole => exact housesChain laidBinary (housesImplication same) (housesImplication same)
  | implication => exact housesImplication same
  | power => exact housesPower same
  | unary => exact housesUnary same

end Levels

theorem housesOperand (l : Level) : Houses row n anywhere [] (operand l) := .nest (fun _ _ => housesLevel) l

theorem housesExpression : Houses row n sort [] expression := housesNested housesOperand

end Boogie.Grammar
