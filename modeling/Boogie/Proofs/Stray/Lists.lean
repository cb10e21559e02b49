import Boogie.Proofs.Stray.Starts

/-! What comes of words that are put in front of an item of a statement list. A round of the loop that gathers
items skips them up to their semicolon and reports them; what was gathered so far stays as it is, and the loop
goes on with the item behind them. -/
namespace Boogie.Grammar

open Token (Kind KindSet Word)

variable {pt : Point} {n : Nat} {sort : Kind → Prop}

structure Mends (pt : Point) (d n : Nat) (sort : Kind → Prop) {α : Type} [Spanned α] (lists : α → List StmtList)
    (m m' : Production α) : Prop where
  before : ∀ p, Simulates (before p) n sort Alike m m'
  resumed : ∀ log, Simulates (resumed log) n sort Alike m m'
  takes : Takes n m
  nears : ∀ p, Nears p 1 n sort Alike m m'
  absorbs : Absorbs pt d n sort (fun a => pt.start ∈ startsOf (lists a)) Alike m m'

namespace Mends

variable {α : Type} [Spanned α] {d k : Nat} {lists : α → List StmtList} {m m' : Production α}

theorem mono (h : Mends pt d k sort lists m m') (fewer : n ≤ k) : Mends pt d n sort lists m m' where
  before p := (h.before p).mono (fun _ h => h) fewer
  resumed log := (h.resumed log).mono (fun _ h => h) fewer
  takes s closed left := h.takes s closed (Nat.lt_of_lt_of_le left fewer)
  nears p := (h.nears p).mono (fun _ h => h) fewer (Nat.le_refl 1)
  absorbs := h.absorbs.mono (fun _ h => h) fewer (Nat.le_refl d)

theorem zero : Mends pt d 0 sort lists m m' where
  before _ _ _ _ left := absurd left (Nat.not_lt_zero _)
  resumed _ _ _ _ left := absurd left (Nat.not_lt_zero _)
  takes _ _ left := absurd left (Nat.not_lt_zero _)
  nears _ _ _ _ _ left := absurd left (Nat.not_lt_zero _)
  absorbs _ _ left := absurd left (Nat.not_lt_zero _)

variable {placeholder placeholder' : Unit → Production α} {level level' : (Unit → Production α) → Unit → Production α}

theorem levels {bound : Nat}
    (h : ∀ k < bound, ∀ nested nested', Mends pt d k sort lists (nested ()) (nested' ()) →
      Mends pt d (k + 1) sort lists (level nested ()) (level' nested' ()))
    (tokens tokens' : List Token) (more : tokens.length ≤ tokens'.length) (n : Nat) (enough : n ≤ tokens.length + 1)
    (less : n ≤ bound) : Mends pt d n sort lists (Grammar.nest placeholder level tokens ())
      (Grammar.nest placeholder' level' tokens' ()) := by
  induction tokens generalizing tokens' n with
  | nil =>
    cases n with
    | zero => exact .zero
    | succ n =>
      have none : n = 0 := by simpa using enough
      subst none
      cases tokens' with
      | nil => exact h 0 less _ _ .zero
      | cons t' rest' => exact h 0 less _ _ .zero
  | cons t rest ih =>
    cases tokens' with
    | nil => exact absurd more (Nat.not_succ_le_zero _)
    | cons t' rest' =>
      cases n with
      | zero => exact .zero
      | succ n =>
        exact h n less _ _ (ih rest' (Nat.le_of_succ_le_succ more) n (Nat.le_of_succ_le_succ enough)
          (Nat.le_of_succ_le less))

theorem nest {bound : Nat}
    (h : ∀ k < bound, ∀ nested nested', Mends pt d k sort lists (nested ()) (nested' ()) →
      Mends pt d (k + 1) sort lists (level nested ()) (level' nested' ()))
    (takes : ∀ nested, Takes bound (level nested ())) :
    Mends pt d bound sort lists (ahead >>= fun tokens => Grammar.nest placeholder level tokens ())
      (ahead >>= fun tokens => Grammar.nest placeholder' level' tokens ()) := by
  have deep {s s' : State} (fewer : s.left ≤ s'.left) (left : s.left < bound) :
      Mends pt d (s.left + 1) sort lists (Grammar.nest placeholder level s.cursor.ahead ())
        (Grammar.nest placeholder' level' s'.cursor.ahead ()) :=
    levels h _ _ fewer _ (Nat.le_refl _) left
  have reads (tokens : List Token) : Takes bound (Grammar.nest placeholder level tokens ()) := by
    cases tokens <;> exact takes _
  refine ⟨fun p s s' row left first inside => ?_, fun log s s' row left first inside => ?_, ?_, ?_, ?_⟩
  · exact (deep row.1.fewer left).before p s s' row (Nat.lt_succ_self _) first inside
  · exact (deep (Nat.le_of_eq row.leftEq.symm) left).resumed log s s' row (Nat.lt_succ_self _) first inside
  · exact .behind reads
  · intro p s s' row early left first
    exact (deep row.fewer left).nears p s s' row early (Nat.lt_succ_self _) first
  · intro s placed left first clean found
    refine ⟨((deep (Nat.le_refl _) left).absorbs s placed (Nat.lt_succ_self _) first clean found).1, ?_⟩
    intro p s' same row
    exact ((deep row.fewer left).absorbs s placed (Nat.lt_succ_self _) first clean found).2 p s' same row

end Mends

abbrev itemsFrom (stmts : Production StmtList) (g : Gathered) : Production Gathered :=
  whileHolds (nextIs fun k => !listEnd.contains k) (stmtItem stmts) g

section Statements

variable {stmts stmts' : Production StmtList}

theorem skipsStray {p : Insertion} {s s' : State} (row : Before p s s') (clean : s.mistakes = 0)
    (here : s.left = p.behind.length) (g : Gathered) : listEnd.contains s'.kind = false ∧
      ((stmtItem stmts' g).run s').1 = g ∧ Resumed p.reported s ((stmtItem stmts' g).run s').2 := by
  have kind := row.kindAtPoint here
  obtain ⟨words, ahead⟩ := row.atPoint here
  obtain ⟨log, due⟩ := row.silent clean
  obtain ⟨ends, command, noIf, noWhile, noBreak, noGoto, noReturn⟩ : listEnd.contains s'.kind = false ∧
      commandStart.contains s'.kind = false ∧ s'.kind ≠ .kwIf ∧ s'.kind ≠ .kwWhile ∧ s'.kind ≠ .kwBreak ∧
      s'.kind ≠ .kwGoto ∧ s'.kind ≠ .kwReturn := by
    rw [kind]
    rcases p.firstKindCases with mark | ⟨skipped, name, _⟩
    · rw [mark]
      decide
    · generalize p.firstKind = k at skipped name
      simp [statementSync, commandStart, KindSet.containsOfList] at skipped ⊢
      simp_all
  let reported : State := s'.syntaxError (.invalid "StmtList")
  let skipped : State := reported.synchronize (statementSync.insert .semicolon)
  have tail : (blockTail stmts').run s' = (none, ((eat .semicolon).run skipped).2) := by
    simp only [blockTail, currentKind, Production.runBind, Production.runRead]
    rfl
  have missed : (stmtItem stmts' g).run s' = (g, ((eat .semicolon).run skipped).2) := by
    simp [stmtItem, checkAny, command, tail]
  have atMark : skipped.words = p.mark :: p.behind := by
    refine synchronizeBehind p.stray row.closed' ?_ p.isStray.skipped ?_
    · show s'.cursor.ahead.map Token.word = _
      rw [ahead, p.words]
    · rw [headKindCons, p.closes]
      decide
  have closed : skipped.isClosed := (State.reachesSynchronize _ _).isClosed row.closed'
  have mark : skipped.kind = .semicolon := (State.kindOfWords closed atMark).trans p.closes
  rw [missed, runEatYes mark]
  refine ⟨ends, rfl, row.closed, closed, ?_, fun _ => ?_⟩
  · rw [(State.wordsCons atMark).2, words]
  · have first : s'.cursor.current.position = p.position := by
      rw [Cursor.current, ahead, Insertion.position]
      have some : p.tokens ≠ [] := by
        intro none
        have words := p.words
        simp [none] at words
      obtain ⟨t, rest, tokens⟩ := List.exists_cons_of_ne_nil some
      rw [tokens]
      rfl
    show (if s'.cursor.isReportDue then s'.log.syntaxError s'.cursor.current.position _ else s'.log) = _
    rw [due, log, first]
    rfl

variable (nested : Mends pt 0 n anywhere StmtList.lists stmts stmts')
include nested

theorem nearsNested {p : Insertion} : Nears p 0 n anywhere Alike stmts stmts' := .ofTakes nested.takes (nested.nears p)

theorem mendsWhileCmd : Mends pt 1 (n + 1) (· = .kwWhile) WhileCmd.lists (whileCmd stmts) (whileCmd stmts') := by
  have word : ∀ x : Kind, x = .kwWhile → isPlain x = true := by
    rintro _ rfl
    decide
  have invariants {S : Simulation} {n : Nat} : Simulates S n anywhere (Like S.change)
      (many (checkAny (.ofList [.kwFree, .kwInvariant])) loopInvariant)
      (many (checkAny (.ofList [.kwFree, .kwInvariant])) loopInvariant) :=
    .manyNext (by decide) (by decide) .loopInvariant alikeLoopInvariant
  have same {start start' : Span} {e e' : Option Expr} {cs cs' : List Clause} {l l' : StmtList} (ofE : Alike e e')
      (ofCs : Alike cs cs') (ofL : Alike l l') : Alike (⟨e, cs, l, start⟩ : WhileCmd) ⟨e', cs', l', start'⟩ := by
    simp_all [Alike, bare]
  refine ⟨fun p => alikeWhileCmd (nested.before p) word, fun log => alikeWhileCmd (nested.resumed log) word, ?_,
    fun p => ?_, ?_⟩
  · exact .behind fun _ => .behind fun _ => .behind fun _ => .mark (by decide)
  · refine .front (.advance word) (fun _ => .behind fun _ => .behind fun _ => .mark (by decide)) fun t t' _ => ?_
    refine .front alikeGuard (fun _ => .behind fun _ => .mark (by decide)) fun condition condition' ofCondition => ?_
    refine .front invariants (fun _ => .mark (by decide)) fun found found' ofFound => .expect (by decide) ?_
    refine .bind (nearsNested nested) fun body body' ofBody => .spanFrom fun _ _ => .pure ?_
    exact same ofCondition ofFound ofBody
  · have first (p : Insertion) : Simulates (before p) (n + 1) (· = .kwWhile) (fun _ _ => True) advance advance :=
      fun s s' row left first inside => ⟨trivial, (Simulates.advance word s s' row left first inside).2⟩
    refine .front (fun _ => trivial) first fun t t' _ => ?_
    refine .front (V := Alike) (fun _ => rfl) (fun p => alikeGuard) fun condition condition' ofCondition => ?_
    refine .front (V := Alike) (fun _ => rfl) (fun p => invariants) fun found found' ofFound => .expect (by decide) ?_
    refine .last nested.absorbs (fun log body body' ofBody => .bind .spanFrom fun _ _ _ => .pure ?_)
      fun body s inside => inside
    exact same ofCondition ofFound ofBody

section Conditionals

variable {next next' : Production IfCmd} (further : Mends pt 1 n (· = .kwIf) IfCmd.lists next next')
include further

theorem nearsOptionalElse {p : Insertion} :
    Nears p 0 n sort Alike (optionalElse stmts next) (optionalElse stmts' next') := by
  have reads : Takes n (ifNext (check .kwIf) (do return some (ElseBranch.elseIf (← next)))
      (ifNext (eat .leftBrace) (do return some (.block (← stmts))) do
        syntaxError (.invalid "IfCmd")
        return none)) :=
    .ifElse further.takes.first (.eat (by decide) (.fault (.syntaxError _)))
  refine .ifEats (by decide) (fun _ => p.firstKindNe (by decide) (.inr (.inr (.inl rfl)))) (.ofTakes reads ?_)
    (.pure rfl)
  refine .ifNext (.bind ((further.nears p).mono ?_ (Nat.le_refl n) (by omega)) fun x x' same => .pure ?_) (.ifEats (by decide) nofun ?_
    (.fault (.syntaxError _)))
  · intro k h
    simpa using h.2
  · simpa [Alike, bare] using same
  · exact .bind (nearsNested nested) fun body body' same => .pure (by simpa [Alike, bare] using same)

theorem absorbsOptionalElse : Absorbs pt 0 n sort (fun e => pt.start ∈ startsOf (ElseBranch.lists? e)) Alike
    (optionalElse stmts next) (optionalElse stmts' next') := by
  have missing : ¬pt.start ∈ startsOf (ElseBranch.lists? none) := nofun
  have elseIf : Absorbs pt 1 n (fun k => anywhere k ∧ (k == .kwIf) = true)
      (fun x => pt.start ∈ startsOf (IfCmd.lists x)) Alike next next' :=
    further.absorbs.mono (fun k h => by simpa using h.2) (Nat.le_refl n) (by omega)
  have chosen : Absorbs pt 1 n anywhere (fun e => pt.start ∈ startsOf (ElseBranch.lists? e)) Alike
      (ifNext (check .kwIf) (do return some (ElseBranch.elseIf (← next)))
        (ifNext (eat .leftBrace) (do return some (.block (← stmts))) do
          syntaxError (.invalid "IfCmd")
          return none))
      (ifNext (check .kwIf) (do return some (ElseBranch.elseIf (← next')))
        (ifNext (eat .leftBrace) (do return some (.block (← stmts'))) do
          syntaxError (.invalid "IfCmd")
          return none)) := by
    refine .ifNext (.last elseIf (fun log x x' same => .pure ?_) fun x s inside => inside) (.ifEats (by decide) ?_
      (.fault (.syntaxError _)))
    · simpa [Alike, bare] using same
    · refine .last nested.absorbs (fun log body body' same => .pure ?_) fun body s inside => inside
      simpa [Alike, bare] using same
  exact .mono (d := 1) (.ifEats (by decide) (chosen.mono (fun _ h => h) (Nat.le_refl n) (by omega)) (.pure missing))
    (fun _ h => h) (Nat.le_refl n) (by omega)

theorem mendsIfCmd : Mends pt 1 (n + 1) (· = .kwIf) IfCmd.lists (ifCmd stmts next) (ifCmd stmts' next') := by
  have same {start start' : Span} {c c' : Option Expr} {l l' : StmtList} {e e' : Option ElseBranch} (ofC : Alike c c')
      (ofL : Alike l l') (ofE : Alike e e') : Alike (⟨c, l, e, start⟩ : IfCmd) ⟨c', l', e', start'⟩ := by
    simp_all [Alike, bare]
  refine ⟨fun p => alikeIfCmd (nested.before p) (further.before p),
    fun log => alikeIfCmd (nested.resumed log) (further.resumed log), ?_, fun p => ?_, ?_⟩
  · exact .behind fun _ => .mark (by decide)
  · refine .look fun start start' => ?_
    refine .front (.expect (by decide)) (fun _ => .behind fun _ => .mark (by decide)) fun _ _ _ => ?_
    refine .front alikeGuard (fun _ => .mark (by decide)) fun c c' ofC => .expect (by decide) ?_
    refine .bind (nearsNested nested) fun l l' ofL => ?_
    refine .bind (nearsOptionalElse nested further) fun e e' ofE => .spanFrom fun _ _ => .pure ?_
    exact same ofC ofL ofE
  · refine .look fun start start' => ?_
    refine .front (V := fun _ _ => True) (fun _ => trivial) (fun p => .expect (by decide)) fun _ _ _ => ?_
    refine .front (V := Alike) (fun _ => rfl) (fun p => alikeGuard) fun c c' ofC => .expect (by decide) ?_
    refine .either (V := Alike) (fun _ => rfl) nested.absorbs (fun p => nearsNested nested) (fun log l l' ofL => ?_) fun l l' ofL => ?_
    · refine .bind (alikeOptionalElse (nested.resumed log) (further.resumed log)) fun e e' ofE => ?_
      exact .bind .spanFrom fun _ _ _ => .pure (same ofC ofL ofE)
    · refine .last (absorbsOptionalElse nested further) (fun log e e' ofE => .bind .spanFrom fun _ _ _ => .pure ?_)
        fun e s inside => ?_
      · exact same ofC ofL ofE
      · obtain ⟨mem, other⟩ := inside
        have either : pt.start ∈ startsOf l.lists ∨ pt.start ∈ startsOf (ElseBranch.lists? e) := by
          simpa [IfCmd.lists] using mem
        exact either.resolve_left other

end Conditionals

theorem mendsConditional :
    Mends pt 1 (n + 1) (· = .kwIf) IfCmd.lists (conditional stmts) (conditional stmts') :=
  .nest (fun _ less _ _ further => mendsIfCmd (nested.mono (Nat.le_of_lt_succ less)) further)
    fun _ => .behind fun _ => .mark (by decide)

theorem nearsBlockTail {p : Insertion} :
    Nears p 1 (n + 1) sort Alike (blockTail stmts) (blockTail stmts') := by
  refine .byKind fun k _ => ?_
  split
  · exact .bind ((mendsConditional nested).nears p) fun x x' same => .pure (by simpa [Alike, bare] using same)
  · exact .bind ((mendsWhileCmd nested).nears p) fun x x' same => .pure (by simpa [Alike, bare] using same)
  · exact .bind (nearsBreakCmd (by rintro _ rfl; decide)) fun x x' same => .pure (by simpa [Alike, bare] using same)
  · exact .bind nearsTransferCmd fun x x' same => .pure (by simpa [Alike, bare] using same)
  · exact .bind nearsTransferCmd fun x x' same => .pure (by simpa [Alike, bare] using same)
  · exact .fault (.syntaxError _)

theorem absorbsBlockTail : Absorbs pt 1 (n + 1) anywhere (fun t => pt.start ∈ startsOf (Tail.lists? t)) Alike
    (blockTail stmts) (blockTail stmts') := by
  have unlisted {m m' : Production Tail} {k : Kind} (none : ∀ s, Tail.lists (m.run s).1 = []) :
      Absorbs pt 1 (n + 1) (· = k) (fun t => pt.start ∈ startsOf (Tail.lists? t)) Alike
        (do return some (← m)) (do return some (← m')) := by
    refine .never fun s inside => ?_
    have here : pt.start ∈ startsOf (Tail.lists (m.run s).1) := inside
    rw [none] at here
    exact absurd here nofun
  refine .byKind fun k _ => ?_
  split
  · refine .last (mendsConditional nested).absorbs (fun log x x' same => .pure ?_) fun x s inside => inside
    simpa [Alike, bare] using same
  · refine .last (mendsWhileCmd nested).absorbs (fun log x x' same => .pure ?_) fun x s inside => inside
    simpa [Alike, bare] using same
  · exact unlisted fun _ => rfl
  · exact .never fun s => nofun
  · exact .never fun s => nofun
  · exact .fault (.syntaxError _)

omit nested in
theorem itemsOnce {s : State} {g : Gathered} (closed : s.isClosed) (more : (!listEnd.contains s.kind) = true) :
    (itemsFrom stmts g).run s = (stmtItem stmts g >>= itemsFrom stmts).run s := by
  have reads (s : State) (g : Gathered) (closed : s.isClosed) (more : (!listEnd.contains s.kind) = true) :
      ((stmtItem stmts g).run s).2.left < s.left := Progresses.stmtItem s closed more
  exact whileOnce looksNext reads closed more

omit nested in
theorem itemsNone {s : State} {g : Gathered} (ended : (!listEnd.contains s.kind) = false) :
    (itemsFrom stmts g).run s = (g, s) := by
  have fails : ((nextIs fun k => !listEnd.contains k).run s).1 = false := ended
  exact whileNone looksNext fails

theorem nearsStmtItem {p : Insertion} {g g' : Gathered} (same : Alike g g') :
    Nears p 1 (n + 1) anywhere Alike (stmtItem stmts g) (stmtItem stmts' g') := by
  refine .ifNext (.bind nearsLabelOrCmd fun _ _ found => .pure (alikeAdd (c := none) same found)) ?_
  refine .bind (nearsBlockTail nested) fun tail tail' found => .pure ?_
  cases tail <;> cases tail'
  · exact same
  · exact absurd found nofun
  · exact absurd found nofun
  · exact alikeAddTail (c := none) same (by simpa [Alike, bare] using found)

omit nested in
theorem startsStmtItem {s : State} {g : Gathered} (placed : Placed pt s)
    (more : (!listEnd.contains s.kind) = true) (mem : pt.start ∈ ((stmtItem stmts g).run s).1.starts) :
    pt.start ∈ g.starts ∨ pt.total = pt.place + s.left ∨
      commandStart.contains s.kind = false ∧ pt.start ∈ startsOf (Tail.lists? ((blockTail stmts).run s).1) := by
  have moves : ((stmtItem stmts g).run s).2.left < s.left := Progresses.stmtItem s placed.closed more
  cases command : commandStart.contains s.kind with
  | true =>
    have item : (stmtItem stmts g).run s =
        (g.add ((labelOrCmd expression).run s).1, ((labelOrCmd expression).run s).2) := by
      simp [stmtItem, checkAny, command]
    rw [item] at mem moves
    have places : Spanning anywhere IsPlaced (labelOrCmd expression) := placesLabelOrCmd
    have whole : IsPlaced _ _ ((labelOrCmd expression).run s).1 := places s trivial
    have span := placed.spanTo ((labelOrCmd expression).reaches s) moves
    cases found : ((labelOrCmd expression).run s).1 with
    | label id =>
      rw [found] at mem whole
      refine (startsAddLabel mem).imp_right fun here => .inl ?_
      simp only [IsPlaced] at whole
      exact placed.here (by rw [here, whole, placed.current])
    | cmd c =>
      rw [found] at mem whole
      refine (startsAddCmd mem).imp_right fun here => .inl ?_
      simp only [IsPlaced] at whole
      exact placed.here (by rw [here, whole, span])
    | mistake =>
      rw [found] at mem
      exact .inl mem
  | false =>
    have item : (stmtItem stmts g).run s =
        (((blockTail stmts).run s).1.elim g g.addTail, ((blockTail stmts).run s).2) := by
      simp [stmtItem, checkAny, command]
    rw [item] at mem moves
    have places : Spanning anywhere _ (blockTail stmts) := placesTail
    have whole := places s trivial
    have span := placed.spanTo ((blockTail stmts).reaches s) moves
    cases found : ((blockTail stmts).run s).1 with
    | none =>
      rw [found] at mem
      exact .inl mem
    | some t =>
      rw [found] at mem whole
      refine (startsAddTail mem).imp_right fun here => here.imp (fun here => ?_) fun inside => ⟨rfl, inside⟩
      exact placed.here (by rw [here, whole t rfl, span])

theorem absorbsStmtItem {s : State} {g : Gathered} (placed : Placed pt s) (left : s.left < n + 1)
    (more : (!listEnd.contains s.kind) = true) (clean : ((stmtItem stmts g).run s).2.mistakes = 0)
    (mem : pt.start ∈ ((stmtItem stmts g).run s).1.starts) (fresh : pt.start ∉ g.starts) (later : pt.total ≠ pt.place + s.left) :
    pt.total < pt.place + s.left ∧ ∀ p s' g', pt.total = pt.place + p.behind.length → Before p s s' → Alike g g' →
      Alike ((stmtItem stmts g).run s).1 ((stmtItem stmts' g').run s').1 ∧
        Resumed p.reported ((stmtItem stmts g).run s).2 ((stmtItem stmts' g').run s').2 := by
  obtain ⟨noCommand, inside⟩ := ((startsStmtItem placed more mem).resolve_left fresh).resolve_left later
  have item : (stmtItem stmts g).run s =
      (((blockTail stmts).run s).1.elim g g.addTail, ((blockTail stmts).run s).2) := by
    simp [stmtItem, checkAny, noCommand]
  rw [item] at clean ⊢
  obtain ⟨early, matched⟩ := absorbsBlockTail nested s placed left trivial clean inside
  refine ⟨early, fun p s' g' same row ofG => ?_⟩
  have item' : (stmtItem stmts' g').run s' =
      (((blockTail stmts').run s').1.elim g' g'.addTail, ((blockTail stmts').run s').2) := by
    simp [stmtItem, checkAny, row.kindEq (by omega), noCommand]
  rw [item']
  obtain ⟨found, after⟩ := matched p s' same row
  refine ⟨?_, after⟩
  generalize ((blockTail stmts).run s).1 = t at found
  generalize ((blockTail stmts').run s').1 = t' at found
  cases t <;> cases t'
  · exact ofG
  · simp [Alike, bare] at found
  · simp [Alike, bare] at found
  · exact alikeAddTail (c := none) ofG (by simpa [Alike, bare] using found)

theorem resumedItems {log : Log} {g g' : Gathered} (same : Alike g g') : Simulates (resumed log) (n + 1) anywhere Alike
    (itemsFrom stmts g)
    (itemsFrom stmts' g') :=
  .whileNext (V := Alike) (by decide) (by decide) same (fun _ => .stmtItem) fun _ _ same =>
    ((alikeStmtItem (nested.resumed log) same).unchanged rfl).always

theorem absorbsItems {s : State} {g : Gathered} (placed : Placed pt s) (left : s.left < n + 1)
    (clean : ((itemsFrom stmts g).run s).2.mistakes = 0)
    (place? : pt.start ∈ ((itemsFrom stmts g).run s).1.starts ∧
        pt.start ∉ g.starts ∨
      pt.total = pt.place + ((itemsFrom stmts g).run s).2.left) :
    pt.total ≤ pt.place + s.left ∧ ∀ p s' g', pt.total = pt.place + p.behind.length → Before p s s' → Alike g g' →
      Alike ((itemsFrom stmts g).run s).1
          ((itemsFrom stmts' g').run s').1 ∧
        Resumed p.reported ((itemsFrom stmts g).run s).2
          ((itemsFrom stmts' g').run s').2 := by
  induction count : s.left using Nat.strongRecOn generalizing s g with
  | _ c ih =>
    subst count
    have unmarked := unmarkedBefore clean
    by_cases here : pt.total = pt.place + s.left
    · refine ⟨Nat.le_of_eq here, fun p s' g' same row ofG => ?_⟩
      obtain ⟨goesOn, kept, after⟩ := @skipsStray stmts' p s s' row unmarked (by omega) g'
      rw [itemsOnce row.closed' (by rw [goesOn]; rfl), Production.runBind, kept]
      exact resumedItems nested ofG _ _ after left trivial trivial
    · cases more : !listEnd.contains s.kind with
      | false =>
        rw [itemsNone more] at place?
        rcases place? with ⟨mem, fresh⟩ | end_
        · exact absurd mem fresh
        · exact absurd end_ here
      | true =>
        rw [itemsOnce placed.closed more] at clean place? ⊢
        rw [Production.runBind] at clean place? ⊢
        have less : ((stmtItem stmts g).run s).2.left < s.left := Progresses.stmtItem s placed.closed more
        have placed' := placed.reached ((stmtItem stmts g).reaches s)
        have cleanItem := unmarkedBefore clean
        by_cases first : pt.start ∈ ((stmtItem stmts g).run s).1.starts ∧ pt.start ∉ g.starts
        · obtain ⟨early, matched⟩ := absorbsStmtItem nested placed left more cleanItem first.1 first.2 here
          refine ⟨Nat.le_of_lt early, fun p s' g' same row ofG => ?_⟩
          rw [itemsOnce row.closed' (by rwa [row.kindEq (by omega)]), Production.runBind]
          obtain ⟨found, after⟩ := matched p s' g' same row ofG
          exact resumedItems nested found _ _ after (Nat.lt_trans less left) trivial trivial
        · obtain ⟨early, matched⟩ := ih _ less placed' (Nat.lt_trans less left) clean
            (place?.imp_left fun ⟨mem, fresh⟩ => ⟨mem, fun mem' => first ⟨mem', fresh⟩⟩) rfl
          refine ⟨by omega, fun p s' g' same row ofG => ?_⟩
          rw [itemsOnce row.closed' (by rwa [row.kindEq (by omega)]), Production.runBind]
          obtain ⟨found, after⟩ :=
            nearsStmtItem nested ofG s s' row (by omega) left trivial cleanItem (by omega)
          exact matched p _ _ same after found

theorem mendsStmtsBody : Mends pt 0 (n + 1) anywhere StmtList.lists (stmtsBody stmts) (stmtsBody stmts') := by
  refine ⟨fun p => alikeStmtsBody (nested.before p), fun log => alikeStmtsBody (nested.resumed log), ?_, fun p => ?_, ?_⟩
  · exact .behind fun _ => .behind fun _ => .mark (by decide)
  · have items : Simulates (before p) (n + 1) anywhere Alike
        (itemsFrom stmts .empty)
        (itemsFrom stmts' .empty) :=
      .whileNext (V := Alike) (by decide) (by decide) rfl (fun _ => .stmtItem) fun _ _ same =>
        ((alikeStmtItem (nested.before p) same).unchanged rfl).always
    refine .front items (fun _ => .behind fun _ => .mark (by decide)) fun g g' same => ?_
    exact .look fun closing closing' => .expect (by decide) (.pure (alikeFinish (c := none) same))
  · intro s placed left first clean found
    have placed' := placed.reached
      ((itemsFrom stmts .empty).reaches s)
    have rest {log : Log} {g g' : Gathered} (same : Alike g g') : Simulates (resumed log) (n + 1) anywhere Alike
        (do let closing ← currentSpan; expect .rightBrace; return (⟨g.finish closing, closing⟩ : StmtList))
        (do let closing ← currentSpan; expect .rightBrace; return (⟨g'.finish closing, closing⟩ : StmtList)) :=
      .bind .currentSpan fun _ _ _ => .bind (.expect (by decide)) fun _ _ _ => .pure (alikeFinish (c := none) same)
    have brace (here : pt.start = ((itemsFrom stmts .empty).run s).2.cursor.current.span.start) :
        pt.total = pt.place + ((itemsFrom stmts .empty).run s).2.left := placed'.here (here.trans placed'.current)
    have empty : pt.start ∉ Gathered.empty.starts := nofun
    have inside := (startsFinish found).imp (fun mem => And.intro mem empty) brace
    obtain ⟨early, matched⟩ := absorbsItems nested placed left (unmarkedBefore clean) inside
    refine ⟨early, fun p s' same row => ?_⟩
    obtain ⟨items, after⟩ := matched p s' .empty same row rfl
    exact rest items _ _ after (Nat.lt_of_le_of_lt (Production.reaches _ s).leftLe left) trivial trivial

end Statements

theorem mendsStmtList : Mends pt 0 n anywhere StmtList.lists stmtList stmtList :=
  .nest (fun _ _ _ _ nested => mendsStmtsBody nested) fun _ => .behind fun _ => .behind fun _ => .mark (by decide)

end Boogie.Grammar
