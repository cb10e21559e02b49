import Boogie.Proofs.Recovery

/-! Reading ends, and leaves nothing out. The loops of the grammar are bounded by the tokens ahead, and its
nesting by as many levels; neither bound is ever met. A loop without a bound goes through the same states,
since each round reads a token, and the levels asked for begin with fewer and fewer tokens ahead. So every
token is read, once and in order, and the end of the text never is. -/
namespace Boogie

namespace Grammar

open Token (Kind KindSet)

namespace State

structure IsProper (s : State) : Prop where
  closed : s.isClosed
  inner : ∀ t ∈ s.cursor.ahead, t.kind ≠ .endOfText

theorem Reaches.isProper {s t : State} (row : s.Reaches t) (h : s.IsProper) : t.IsProper :=
  ⟨row.isClosed h.closed, fun t mem => h.inner t (row.aheadSuffix.subset mem)⟩

theorem IsProper.more {s : State} (h : s.IsProper) (some : s.cursor.ahead ≠ []) : s.kind ≠ .endOfText := by
  cases tokens : s.cursor.ahead with
  | nil => contradiction
  | cons t rest =>
    rw [State.kind, Cursor.currentOfCons tokens]
    exact h.inner t (by simp [tokens])

end State

inductive Loops {σ : Type} (condition : Production Bool) (body : σ → Production σ) :
    State → σ → State → σ → Prop where
  | stop {s a} (fails : (condition.run s).1 = false) : Loops condition body s a (condition.run s).2 a
  | round {s a t b} (holds : (condition.run s).1 = true)
      (reads : ((body a).run (condition.run s).2).2.left < s.left)
      (rest : Loops condition body ((body a).run (condition.run s).2).2 ((body a).run (condition.run s).2).1 t b) :
      Loops condition body s a t b

namespace Loops

variable {σ : Type} {condition : Production Bool} {body : σ → Production σ} {s t : State} {a b : σ}

theorem ends (h : Loops condition body s a t b) : ∃ u, (condition.run u).1 = false ∧ t = (condition.run u).2 := by
  induction h with
  | stop fails => exact ⟨_, fails, rfl⟩
  | round holds reads rest ih => exact ih

theorem keeps {P : State → Prop} (h : Loops condition body s a t b)
    (looked : ∀ s, P s → P (condition.run s).2)
    (round : ∀ s a, (condition.run s).1 = true → P s → P ((body a).run (condition.run s).2).2) (start : P s) :
    P t := by
  induction h with
  | stop fails => exact looked _ start
  | round holds reads rest ih => exact ih (round _ _ holds start)

end Loops

def IsLoop {σ : Type} (condition : Production Bool) (body : σ → Production σ) : Prop :=
  ∀ s a, s.IsProper →
    Loops condition body s a ((whileHolds condition body a).run s).2 ((whileHolds condition body a).run s).1

def Collects {α : Type} (condition : Production Bool) (item : Production α) : Prop :=
  IsLoop condition fun found : List α => do return (← item) :: found

theorem isLoop {σ : Type} {condition : Production Bool} {body : σ → Production σ}
    (looks : ∀ s, (condition.run s).1 = false → (condition.run s).2 = s)
    (reads : ∀ s a, s.IsProper → (condition.run s).1 = true →
      ((body a).run (condition.run s).2).2.left < s.left) : IsLoop condition body := by
  intro s a proper
  have bounded (tokens : List Token) (s : State) (a : σ) (proper : s.IsProper) (enough : s.left ≤ tokens.length) :
      Loops condition body s a ((rounds condition body tokens a).run s).2
        ((rounds condition body tokens a).run s).1 := by
    induction tokens generalizing s a with
    | nil =>
      cases holds : (condition.run s).1 with
      | false =>
        have stop : Loops condition body s a (condition.run s).2 a := .stop holds
        rwa [looks s holds] at stop
      | true =>
        have less := reads s a proper holds
        simp only [List.length_nil] at enough
        omega
    | cons t tokens ih =>
      cases holds : (condition.run s).1 with
      | false =>
        have stop : Loops condition body s a (condition.run s).2 a := .stop holds
        simpa [rounds, holds] using stop
      | true =>
        have less := reads s a proper holds
        have row : s.Reaches ((body a).run (condition.run s).2).2 :=
          (condition.reaches s).trans ((body a).reaches _)
        have rest := ih _ ((body a).run (condition.run s).2).1 (row.isProper proper)
          (by simp only [List.length_cons] at enough; omega)
        simpa [rounds, holds] using Loops.round holds less rest
  exact bounded s.cursor.ahead s a proper (Nat.le_refl _)

theorem loopsNext {σ : Type} {p : Kind → Bool} {body : σ → Production σ}
    (moves : ∀ a, Progresses (fun k => p k = true) (body a)) : IsLoop (nextIs p) body :=
  isLoop (fun _ _ => rfl) fun s a proper holds => moves a s proper.closed holds

theorem loopsEat {σ : Type} {mark : Kind} (real : mark ≠ .endOfText) (body : σ → Production σ) :
    IsLoop (eat mark) body := by
  refine isLoop (fun s fails => ?_) fun s a proper holds => ?_
  · rw [runEat] at fails ⊢
    split at fails
    · contradiction
    · rename_i other
      rw [if_neg other]
  · rw [runEat] at holds ⊢
    split at holds
    · rename_i same
      rw [if_pos same]
      exact Nat.lt_of_le_of_lt ((body a).reaches _).leftLe (State.advanceLt proper.closed (same ▸ real))
    · contradiction

theorem collectsNext {α : Type} {p : Kind → Bool} {item : Production α}
    (moves : Progresses (fun k => p k = true) item) : Collects (nextIs p) item :=
  loopsNext fun _ => moves.first

theorem collectsDecls : Collects more decl := by
  refine isLoop (fun _ _ => rfl) fun s found proper holds => ?_
  have some : s.cursor.ahead ≠ [] := by simpa [more, Cursor.isAtEnd] using holds
  exact Progresses.decl s proper.closed (proper.more some)

inductive Skips (set : KindSet) : State → State → Prop where
  | stop {s} (ends : s.cursor.ahead = [] ∨ set.contains s.kind = true) : Skips set s s
  | read {s t} (more : s.cursor.ahead ≠ []) (other : set.contains s.kind = false)
      (rest : Skips set s.advance t) : Skips set s t

theorem skips (set : KindSet) (s : State) : Skips set s (s.synchronize set) := by
  generalize count : s.left = n
  induction n generalizing s with
  | zero =>
    have none : s.cursor.ahead = [] := List.length_eq_zero_iff.mp count
    rw [Progresses.synchronizeHere (.inl none)]
    exact .stop (.inl none)
  | succ n ih =>
    cases here : set.contains s.kind with
    | true =>
      rw [Progresses.synchronizeHere (.inr here)]
      exact .stop (.inr here)
    | false =>
      have some : s.cursor.ahead ≠ [] := by
        intro none
        simp [State.left, none] at count
      rw [Progresses.synchronizeOn (by omega) here]
      exact .read some here (ih s.advance (by rw [State.leftAdvance, count]; rfl))

structure EveryLoopReads : Prop where
  declarations : Collects more decl
  statements (stmts : Production StmtList) : IsLoop (nextIs fun k => !listEnd.contains k) (stmtItem stmts)
  specs : Collects (checkAny clauseStart) spec
  invariants : Collects (checkAny (.ofList [.kwFree, .kwInvariant])) loopInvariant
  attributes (expr : Production Expr) : Collects (check .leftBrace) (attributeOnly expr)
  groups (expr : Production Expr) : Collects (check .leftBrace) (braced expr)
  typeArguments (type : Production Ty) : Collects (checkAny argumentStart) (typeArgument type)
  typeParameters : Collects (check .identifier) ident
  locals (expr : Production Expr) : Collects (check .kwVar) (variableDecl expr .localVariables)
  blocks (expr : Production Expr) : Collects (check .identifier) (block expr)
  blockCommands (expr : Production Expr) : Collects (checkAny commandStart) (blockCmd expr)
  brackets (nested : Nested) : IsLoop (check .leftBracket) (bracket nested)
  chains {β : Type} (operator : Kind → Option β) (join : β → Expr → Expr → Expr) (next : Production Operand)
    (inner : operator .endOfText = none) :
    IsLoop (nextIs fun k => (operator k).isSome) (chainStep operator join next)
  logical (nested : Nested) (first : BinaryOp) :
    IsLoop (nextIs fun k => (logicalOp k).isSome) (logicalStep nested first)
  marks {σ : Type} (mark : Kind) (real : mark ≠ .endOfText) (body : σ → Production σ) : IsLoop (eat mark) body
  skipping (set : KindSet) (s : State) : Skips set s (s.synchronize set)

theorem everyLoopReads : EveryLoopReads where
  declarations := collectsDecls
  statements _ := loopsNext fun _ => .stmtItem
  specs := collectsNext .spec
  invariants := collectsNext .loopInvariant
  attributes _ := collectsNext (.first .braced)
  groups _ := collectsNext .braced
  typeArguments _ := collectsNext .typeArgument
  typeParameters := collectsNext (Progresses.ident.mono fun k h => by simpa using h)
  locals _ := collectsNext .variableDecl
  blocks _ := collectsNext .block
  blockCommands _ := collectsNext .blockCmd
  brackets _ := loopsNext fun _ => .bracket
  chains _ _ _ inner := loopsNext fun _ => .chainStep inner
  logical _ _ := loopsNext fun _ => .logicalStep
  marks _ real body := loopsEat real body
  skipping := skips

structure Twins (s s' : State) : Prop where
  closed : s.isClosed
  closed' : s'.isClosed
  ahead : s'.cursor.ahead = s.cursor.ahead
  taken : s'.cursor.taken = s.cursor.taken
  distance : s'.cursor.distance = s.cursor.distance
  told : s'.log.told = s.log.told

theorem Twins.refl {s : State} (closed : s.isClosed) : Twins s s := ⟨closed, closed, rfl, rfl, rfl, rfl⟩

def twins : Simulation where
  rel := Twins
  closed h := h.closed
  fewer h := Nat.le_of_eq (congrArg List.length h.ahead.symm)
  kind h := .inl (State.kindSame h.closed h.closed' h.ahead)
  text h more _ := congrArg Token.text (State.currentSame h.closed h.ahead more).symm
  advance h more _ := by
    refine .inl ⟨h.closed, h.closed', congrArg List.tail h.ahead, ?_, congrArg (· + 1) h.distance, h.told⟩
    simp [State.advance, Cursor.advance, State.currentSame h.closed h.ahead more, h.taken]
  syntaxError h e := by
    refine ⟨h.closed, h.closed', h.ahead, h.taken, rfl, toldTogether h.distance h.told ?_⟩
    simp [Log.syntaxError, h.told]
  broken h rule := by
    refine ⟨h.closed, h.closed', h.ahead, h.taken, rfl, toldTogether h.distance h.told ?_⟩
    simp [Log.semanticError, h.told]
  brokenAt h span span' rule := by
    refine ⟨h.closed, h.closed', h.ahead, h.taken, h.distance, ?_⟩
    simp [State.brokenAt, Log.semanticError, h.told]

def SameReading {α : Type} [Spanned α] (r r' : α × State) : Prop := Alike r.1 r'.1 ∧ Twins r.2 r'.2

/-- Whatever stands where the bound on nesting would be met, the reading is the same. -/
structure BoundSuffices (s : State) : Prop where
  types (bottom : Unit → Production Ty) :
    SameReading (type.run s) ((nest bottom (fun type _ => typeLevel (type ())) s.cursor.ahead ()).run s)
  expressions (bottom : Nested) (l : Level) :
    SameReading ((operand l).run s) ((nest bottom level s.cursor.ahead l).run s)
  statements (bottom : Unit → Production StmtList) :
    SameReading (stmtList.run s) ((nest bottom (fun stmts _ => stmtsBody (stmts ())) s.cursor.ahead ()).run s)
  conditionals (first : s.kind = .kwIf) (bottom : Unit → Production IfCmd) :
    SameReading ((conditional stmtList).run s)
      ((nest bottom (fun next _ => ifCmd stmtList (next ())) s.cursor.ahead ()).run s)

theorem sameNesting {ι α : Type} [Spanned α] (deep : Kind → Prop) {bottom bottom' : ι → Production α}
    {level : (ι → Production α) → ι → Production α}
    (h : ∀ n nested nested', (∀ i, Simulates twins n deep Alike (nested i) (nested' i)) →
      ∀ i, Simulates twins (n + 1) deep Alike (level nested i) (level nested' i))
    {s : State} (closed : s.isClosed) (first : deep s.kind) (i : ι) :
    SameReading ((nest bottom level s.cursor.ahead i).run s) ((nest bottom' level s.cursor.ahead i).run s) :=
  Simulates.nestTokens (V := fun _ => Alike) (fun n (_ : n < s.left + 1) => h n) _ _ (Nat.le_refl _)
    (s.left + 1) (Nat.le_refl _) (Nat.le_refl _) i s s (.refl closed) (Nat.lt_succ_self _) first trivial

theorem boundSuffices {s : State} (closed : s.isClosed) : BoundSuffices s where
  types _ :=
    sameNesting anywhere (fun _ _ _ nested _ => alikeTypeLevel rfl (nested ())) closed trivial ()
  expressions _ l :=
    sameNesting anywhere (fun _ _ _ same l => alikeLevel same l) closed trivial l
  statements _ :=
    sameNesting anywhere (fun _ _ _ nested _ => alikeStmtsBody (nested ())) closed trivial ()
  conditionals first _ :=
    sameNesting (· = .kwIf) (fun _ _ _ next _ => alikeIfCmd alikeStmtList (next ())) closed first ()

def accounts (all : List Token) : Simulation where
  rel s s' := Twins s s' ∧ s.cursor.taken.reverse ++ s.cursor.ahead = all
  closed h := twins.closed h.1
  fewer h := twins.fewer h.1
  kind h := twins.kind h.1
  text h := twins.text h.1
  advance h more _ := by
    obtain ⟨t, rest, tokens⟩ := State.aheadCons h.1.closed more
    refine .inl ⟨(twins.advance h.1 more trivial).resolve_right And.right, ?_⟩
    rw [← h.2]
    simp [State.advance, Cursor.advance, Cursor.currentOfCons tokens, tokens]
  syntaxError h e := ⟨twins.syntaxError h.1 e, h.2⟩
  broken h rule := ⟨twins.broken h.1 rule, h.2⟩
  brokenAt h span span' rule := ⟨twins.brokenAt h.1 span span' rule, h.2⟩

theorem declAccounts {s : State} (closed : s.isClosed) (more : s.kind ≠ .endOfText) :
    (decl.run s).2.cursor.taken.reverse ++ (decl.run s).2.cursor.ahead =
      s.cursor.taken.reverse ++ s.cursor.ahead :=
  have alike : Simulates (accounts (s.cursor.taken.reverse ++ s.cursor.ahead)) (s.left + 1) (· ≠ .endOfText)
    Alike decl decl := alikeDecl fun _ h => h
  (alike s s ⟨.refl closed, rfl⟩ (Nat.lt_succ_self _) more trivial).2.2

end Grammar

open Grammar

/-- Nothing but terminals is read: all of them, each of them once, in order, and never the end of the
text. -/
structure ReadsAll (tokens : TokenList) (s : State) : Prop where
  atEnd : s.cursor.ahead = []
  finish : s.cursor.current = tokens.finish
  once : s.cursor.taken.reverse = tokens.terminals
  notTheEnd : ∀ t ∈ s.cursor.taken, t.kind ≠ .endOfText

theorem readsEachOnce {tokens : TokenList} (ends : tokens.finish.kind = .endOfText)
    (inner : ∀ t ∈ tokens.body, t.kind ≠ .endOfText) (text : List Char) (log : Log) :
    (Reading.run tokens text log).2.cursor.ahead = [] ∧
      (Reading.run tokens text log).2.cursor.taken.reverse = tokens.terminals := by
  let start : State := .start tokens text log
  have proper : start.IsProper := ⟨ends, fun t mem => inner t (List.mem_of_mem_filter mem)⟩
  have loops : Loops more addDecl start [] (Reading.run tokens text log).2 _ :=
    collectsDecls start [] proper
  have kept : (Reading.run tokens text log).2.IsProper ∧
      (Reading.run tokens text log).2.cursor.taken.reverse ++ (Reading.run tokens text log).2.cursor.ahead =
        tokens.terminals := by
    refine loops.keeps (P := fun s => s.IsProper ∧
      s.cursor.taken.reverse ++ s.cursor.ahead = tokens.terminals) (fun _ h => h) ?_ ⟨proper, rfl⟩
    intro s found holds kept
    have some : s.cursor.ahead ≠ [] := by simpa [more, Cursor.isAtEnd] using holds
    exact ⟨(decl.reaches s).isProper kept.1, (declAccounts kept.1.closed (kept.1.more some)).trans kept.2⟩
  have atEnd : (Reading.run tokens text log).2.cursor.ahead = [] := by
    obtain ⟨u, fails, same⟩ := loops.ends
    rw [same]
    simpa [more, Cursor.isAtEnd] using fails
  exact ⟨atEnd, by simpa [atEnd] using kept.2⟩

/-- Reading a token list that ends once comes to an end there. No loop would go on beyond its bound, and
each of its rounds reads a token; no nesting would go deeper than its bound. -/
theorem readsToTheEnd {tokens : TokenList} (ends : tokens.finish.kind = .endOfText)
    (inner : ∀ t ∈ tokens.body, t.kind ≠ .endOfText) (text : List Char) (log : Log) :
    ReadsAll tokens (Reading.run tokens text log).2 ∧ EveryLoopReads ∧
      ∀ s, State.Reaches (.start tokens text log) s → BoundSuffices s := by
  obtain ⟨atEnd, once⟩ := readsEachOnce ends inner text log
  refine ⟨⟨atEnd, ?_, once, fun t mem => ?_⟩, everyLoopReads, fun s row => ?_⟩
  · rw [Cursor.currentOfNil atEnd]
    exact (Grammar.program.reaches (.start tokens text log)).finishEq
  · have listed : t ∈ tokens.terminals := once ▸ List.mem_reverse.mpr mem
    exact inner t (List.mem_of_mem_filter listed)
  · exact boundSuffices (row.isClosed ends)

theorem readsMalformedToTheEnd :
    let tokens : TokenList := ⟨[.sample .kwFree, .sample .semicolon, .sample .kwProcedure,
      .sample .identifier, .sample .invalid, .sample .leftBrace, .sample .kwVar, .sample .less,
      .sample .colon], .sample .endOfText⟩
    (∀ t ∈ tokens.body, t.kind ≠ .endOfText) ∧
      (Reading.run tokens [] (.empty "")).2.cursor.taken.reverse = tokens.terminals :=
  have inner : ∀ t ∈ [Token.sample .kwFree, .sample .semicolon, .sample .kwProcedure,
      .sample .identifier, .sample .invalid, .sample .leftBrace, .sample .kwVar, .sample .less,
      .sample .colon], t.kind ≠ .endOfText := by decide
  ⟨inner, (readsToTheEnd rfl inner [] (.empty "")).1.once⟩

end Boogie
