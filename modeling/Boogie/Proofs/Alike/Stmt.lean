import Boogie.Grammar.Stmt
import Boogie.Proofs.Alike.Expr

/-! Statements, read side by side. -/
namespace Boogie.Grammar

open Token (Kind)

instance : Spanned OpenBlock := ⟨fun f b => ⟨f b.span, b.label, respan f b.cmds⟩⟩

instance : Spanned Gathered := ⟨fun f g => ⟨respan f g.closed, respan f g.opened⟩⟩

instance : Typed OpenBlock := ⟨fun f b => ⟨b.span, b.label, retype f b.cmds⟩⟩

instance : Typed Gathered := ⟨fun f g => ⟨retype f g.closed, retype f g.opened⟩⟩

@[simp] theorem OpenBlock.retypedMk (c : Option Change) (span : Span) (label : Option String) (cmds : List Cmd) :
    retyped c (⟨span, label, cmds⟩ : OpenBlock) = ⟨span, label, retyped c cmds⟩ := by
  cases c <;> rfl

@[simp] theorem Gathered.retypedMk (c : Option Change) (closed : List BigBlock) (opened : Option OpenBlock) :
    retyped c (⟨closed, opened⟩ : Gathered) = ⟨retyped c closed, retyped c opened⟩ := by
  cases c <;> rfl

@[simp] theorem OpenBlock.respanMk (f : Span → Span) (span : Span) (label : Option String) (cmds : List Cmd) :
    respan f (⟨span, label, cmds⟩ : OpenBlock) = ⟨f span, label, respan f cmds⟩ := rfl

@[simp] theorem Gathered.respanMk (f : Span → Span) (closed : List BigBlock) (opened : Option OpenBlock) :
    respan f (⟨closed, opened⟩ : Gathered) = ⟨respan f closed, respan f opened⟩ := rfl

section Gathering

variable {c : Option Change}

theorem alikeClose {b b' : OpenBlock} {tail tail' : Option Tail} (ofB : Like c b b') (ofTail : Like c tail tail') :
    Like c (b.close tail) (b'.close tail') := by
  obtain ⟨span, label, cmds⟩ := b
  obtain ⟨span', label', cmds'⟩ := b'
  simp_all [Like, Alike, bare, OpenBlock.close]

variable {g g' : Gathered} (same : Like c g g')
include same

theorem alikeAddCmd {x x' : Cmd} (ofX : Like c x x') : Like c (g.addCmd x) (g'.addCmd x') := by
  obtain ⟨closed, opened⟩ := g
  obtain ⟨closed', opened'⟩ := g'
  rcases opened with _ | ⟨span, label, cmds⟩ <;> rcases opened' with _ | ⟨span', label', cmds'⟩ <;>
    simp_all [Like, Alike, bare, Gathered.addCmd]

theorem alikeAddLabel {id id' : Ident} (ofId : Like c id id') : Like c (g.addLabel id) (g'.addLabel id') := by
  obtain ⟨closed, opened⟩ := g
  obtain ⟨closed', opened'⟩ := g'
  rcases opened with _ | b <;> rcases opened' with _ | b'
  · simp_all [Like, Alike, bare, Gathered.addLabel, ofId.nameEq]
  · simp_all [Like, Alike, bare]
  · simp_all [Like, Alike, bare]
  · have ended : Like c (b.close none) (b'.close none) := alikeClose (by simp_all [Like, Alike, bare]) .none
    simp_all [Like, Alike, bare, Gathered.addLabel, ofId.nameEq]

theorem alikeAdd {found found' : LabelOrCmd} (ofFound : Like c found found') :
    Like c (g.add found) (g'.add found') := by
  cases found with
  | label id =>
    cases found' with
    | label id' => exact alikeAddLabel same (by simpa [Like, Alike, bare] using ofFound)
    | cmd c' => simp [Like, Alike, bare] at ofFound
    | mistake => simp [Like, Alike, bare] at ofFound
  | cmd c =>
    cases found' with
    | label id' => simp [Like, Alike, bare] at ofFound
    | cmd c' => exact alikeAddCmd same (by simpa [Like, Alike, bare] using ofFound)
    | mistake => simp [Like, Alike, bare] at ofFound
  | mistake =>
    cases found' with
    | label id' => simp [Like, Alike, bare] at ofFound
    | cmd c' => simp [Like, Alike, bare] at ofFound
    | mistake => exact same

theorem alikeAddTail {tail tail' : Tail} (ofTail : Like c tail tail') :
    Like c (g.addTail tail) (g'.addTail tail') := by
  obtain ⟨closed, opened⟩ := g
  obtain ⟨closed', opened'⟩ := g'
  have ended : Like c ((opened.getD ⟨tail.span, none, []⟩).close (some tail))
      ((opened'.getD ⟨tail'.span, none, []⟩).close (some tail')) := by
    refine alikeClose ?_ (by simpa [Like, Alike, bare] using ofTail)
    cases opened <;> cases opened' <;> simp_all [Like, Alike, bare]
  simp_all [Like, Alike, bare, Gathered.addTail]

theorem alikeFinish {closing closing' : Span} :
    Like c (⟨g.finish closing, closing⟩ : StmtList) ⟨g'.finish closing', closing'⟩ := by
  obtain ⟨closed, opened⟩ := g
  obtain ⟨closed', opened'⟩ := g'
  have ofClosed : Like c closed closed' := by
    rw [Like, Gathered.retypedMk] at same
    exact congrArg Gathered.closed same
  have blocks : Like c (Gathered.finish ⟨closed, opened⟩ closing) (Gathered.finish ⟨closed', opened'⟩ closing') := by
    rcases opened with _ | b <;> rcases opened' with _ | b'
    · simp only [Gathered.finish, ofClosed.isEmptyEq]
      split
      · simp [Like, Alike, bare]
      · exact ofClosed.reverse
    · simp_all [Like, Alike, bare]
    · simp_all [Like, Alike, bare]
    · refine Like.reverse (.cons (alikeClose ?_ .none) ofClosed)
      simp_all [Like, Alike, bare]
  simpa [Like, Alike, bare] using blocks

end Gathering

section Statements

variable {S : Simulation} {n : Nat} {sort : Kind → Prop} {stmts stmts' : Production StmtList}

theorem Progresses.loopInvariant :
    Progresses (fun k => (Token.KindSet.ofList [.kwFree, .kwInvariant]).contains k = true) loopInvariant := by
  refine .stay (.read _) fun start => .eat (by decide) (.first ?_)
  have moves : Progresses (· = .kwInvariant) (Grammar.expect .kwInvariant) := .expect (by decide)
  refine moves.mono fun k h => ?_
  have start : k = .kwFree ∨ k = .kwInvariant := by simpa [Token.KindSet.containsOfList] using h.1
  exact start.resolve_left h.2

theorem Progresses.whileCmd : Progresses (· = .kwWhile) (whileCmd stmts) :=
  .first (.advance (by rintro _ rfl; decide))

theorem Progresses.ifCmd {next : Production IfCmd} : Progresses (· = .kwIf) (ifCmd stmts next) :=
  .stay (.read _) fun _ => .first (.expect (by decide))

theorem Progresses.transferCmd : Progresses (fun k => k = .kwGoto ∨ k = .kwReturn) transferCmd := by
  refine .stay (.read _) fun start => .eat (by decide) (.first ?_)
  have moves : Progresses (· = .kwReturn) (Grammar.expect .kwReturn) := .expect (by decide)
  exact moves.mono fun k h => h.1.resolve_left h.2

theorem Progresses.skipPast {set : Token.KindSet} {α : Type} {f : Bool → Production α}
    (ends : set.contains .endOfText = true) (mark : set.contains .semicolon = true) :
    Progresses (fun k => k = .semicolon ∨ set.contains k = false)
      (Grammar.synchronize set >>= fun _ => Grammar.eat .semicolon >>= f) := by
  rintro s closed (here | other)
  · have stays : (Grammar.synchronize set).run s = ((), s) :=
      Prod.ext rfl (Progresses.synchronizeHere (.inr (by rw [here, mark])))
    rw [Production.runBind, stays]
    have moves : Progresses (· = .semicolon) (Grammar.eat .semicolon >>= f) :=
      .eat (by decide) fun _ _ absent => absurd absent.1 absent.2
    exact moves s closed here
  · exact (Progresses.synchronize ends).first s closed other

theorem Progresses.blockTail :
    Progresses (fun k => (!listEnd.contains k) = true ∧ commandStart.contains k = false) (blockTail stmts) := by
  refine .byKind fun k first => ?_
  split
  · exact .first (.nest fun _ => .ifCmd)
  · exact .first .whileCmd
  · exact .first (.first (.advance (by rintro _ rfl; decide)))
  · exact .first (Progresses.transferCmd.mono fun _ h => .inl h)
  · exact .first (Progresses.transferCmd.mono fun _ h => .inr h)
  · refine .stay (.syntaxError _) fun _ => ?_
    refine (Progresses.skipPast (by decide) (by decide)).mono fun k' here => ?_
    subst here
    have word : commandWords.contains k' = false := by
      have : commandWords.contains k' = false ∧ k' ≠ .identifier := by
        simpa [commandStart] using first.2
      exact this.1
    by_cases mark : k' = .semicolon
    · exact .inl mark
    · refine .inr ?_
      simp_all [statementSync, Token.KindSet.containsOfList]

theorem Progresses.stmtItem {g : Gathered} :
    Progresses (fun k => (!listEnd.contains k) = true) (stmtItem stmts g) :=
  .ifNext (.first (Progresses.labelOrCmd.mono fun _ h => h.2)) (.first .blockTail)

theorem alikeCondition : Simulates S n sort (Like S.change) condition condition := by
  refine .ifEats (by decide) (.pure .none) (.ifNext (by decide) ?_ ?_)
  · exact .bind alikeExpression fun e e' same => .pure same.some
  · exact .bind (.syntaxError _) fun _ _ _ => .pure .none

theorem alikeGuard : Simulates S n sort (Like S.change) guard guard := by
  refine .bind (.expect (by decide)) fun _ _ _ => ?_
  refine .bind alikeCondition fun found found' same => ?_
  exact .bind (.expect (by decide)) fun _ _ _ => .pure same

theorem alikeLoopInvariant : Simulates S n sort (Like S.change) loopInvariant loopInvariant := by
  refine .bind .currentSpan fun start start' _ => ?_
  refine .bind (.eats (by decide)) fun free _ same => ?_
  subst same
  refine .bind (.expect (by decide)) fun _ _ _ => ?_
  refine .bind (alikeAttributes alikeExpression) fun found found' ofFound => ?_
  refine .bind alikeExpression fun e e' ofE => ?_
  refine .bind (.expect (by decide)) fun _ _ _ => ?_
  refine .bind .spanFrom fun _ _ _ => .pure ?_
  simp_all [Like, Alike, bare]

theorem alikeBreakCmd (plain : ∀ k, sort k → isPlain k = true) :
    Simulates S n sort (Like S.change) breakCmd breakCmd := by
  have label : Simulates S n anywhere (· = ·)
      (ifNext (check .identifier) (do return some (← ident).name) (pure none))
      (ifNext (check .identifier) (do return some (← ident).name) (pure none)) :=
    .ifNext (by decide) (.bind alikeIdent fun id id' ofId => .pure (by rw [ofId.nameEq])) (.pure rfl)
  refine .bind (.advance plain) fun t t' _ => ?_
  refine .bind label fun label _ same => ?_
  subst same
  refine .bind (.expect (by decide)) fun _ _ _ => ?_
  exact .bind .spanFrom fun _ _ _ => .pure (by simp [Like, Alike, bare])

theorem alikeTransferCmd : Simulates S n sort (Like S.change) transferCmd transferCmd := by
  refine .bind .currentSpan fun start start' _ => ?_
  refine .ifEats (by decide) ?_ ?_
  · refine .bind alikeIdents fun labels labels' same => ?_
    refine .bind (.expect (by decide)) fun _ _ _ => ?_
    exact .bind .spanFrom fun _ _ _ => .pure (by simpa [Like, Alike, bare] using same)
  · refine .bind (.expect (by decide)) fun _ _ _ => ?_
    refine .bind (.expect (by decide)) fun _ _ _ => ?_
    exact .bind .spanFrom fun _ _ _ => .pure (by simp [Like, Alike, bare])

variable (nested : Simulates S n anywhere (Like S.change) stmts stmts')
include nested

theorem alikeWhileCmd (plain : ∀ k, sort k → isPlain k = true) :
    Simulates S (n + 1) sort (Like S.change) (whileCmd stmts) (whileCmd stmts') := by
  refine .progress (.advance fun k first => realOfPlain (plain k first)) (.advance plain) fun t t' _ => ?_
  refine .bind alikeGuard fun condition condition' ofCondition => ?_
  refine .bind (.manyNext (by decide) (by decide) .loopInvariant alikeLoopInvariant)
    fun invariants invariants' ofInvariants => ?_
  refine .bind (.expect (by decide)) fun _ _ _ => ?_
  refine .bind nested fun body body' ofBody => ?_
  refine .bind .spanFrom fun _ _ _ => .pure ?_
  simp_all [Like, Alike, bare]

theorem alikeOptionalElse {next next' : Production IfCmd} (further : Simulates S n (· = .kwIf) (Like S.change) next next') :
    Simulates S n sort (Like S.change) (optionalElse stmts next) (optionalElse stmts' next') := by
  refine .ifEats (by decide) (.ifNext (by decide) ?_ (.ifEats (by decide) ?_ ?_)) (.pure .none)
  · have first : Simulates S n (fun k => anywhere k ∧ (k == .kwIf) = true) (Like S.change) next next' :=
      further.mono (fun k h => by simpa using h.2) (Nat.le_refl n)
    exact .bind first fun x x' same => .pure (by simpa [Like, Alike, bare] using same)
  · exact .bind nested fun body body' same => .pure (by simpa [Like, Alike, bare] using same)
  · exact .bind (.syntaxError _) fun _ _ _ => .pure .none

theorem alikeIfCmd {next next' : Production IfCmd} (further : Simulates S n (· = .kwIf) (Like S.change) next next') :
    Simulates S (n + 1) (· = .kwIf) (Like S.change) (ifCmd stmts next) (ifCmd stmts' next') := by
  refine .stay (.read _) .currentSpan fun start start' _ => ?_
  refine .progress (.expect (by decide)) (.expect (by decide)) fun _ _ _ => ?_
  refine .bind alikeGuard fun condition condition' ofCondition => ?_
  refine .bind (.expect (by decide)) fun _ _ _ => ?_
  refine .bind nested fun thenBranch thenBranch' ofThen => ?_
  refine .bind (alikeOptionalElse nested further) fun elseBranch elseBranch' ofElse => ?_
  refine .bind .spanFrom fun _ _ _ => .pure ?_
  simp_all [Like, Alike, bare]

theorem alikeConditional :
    Simulates S (n + 1) (· = .kwIf) (Like S.change) (conditional stmts) (conditional stmts') :=
  .nest (V := fun _ => Like S.change) (fun _ less _ _ further _ =>
    alikeIfCmd (nested.mono (fun _ _ => trivial) (Nat.le_of_lt_succ less)) (further ())) ()

theorem alikeBlockTail : Simulates S (n + 1) sort (Like S.change) (blockTail stmts) (blockTail stmts') := by
  refine .byKind ⟨rfl, rfl, rfl, rfl, rfl, rfl⟩ fun k _ => ?_
  split
  · exact .bind (alikeConditional nested) fun x x' same => .pure (by simpa [Like, Alike, bare] using same)
  · exact .bind (alikeWhileCmd nested (by rintro _ rfl; decide)) fun x x' same =>
      .pure (by simpa [Like, Alike, bare] using same)
  · exact .bind (alikeBreakCmd (by rintro _ rfl; decide)) fun x x' same => .pure same.some
  · exact .bind alikeTransferCmd fun x x' same => .pure (by simpa [Like, Alike, bare] using same)
  · exact .bind alikeTransferCmd fun x x' same => .pure (by simpa [Like, Alike, bare] using same)
  · exact .recover (by decide) (by decide) (.bind (.eats (by decide)) fun _ _ _ => .pure .none)

theorem alikeStmtItem {g g' : Gathered} (same : Like S.change g g') :
    MayMark S (n + 1) sort (fun _ => True) (Like S.change) (stmtItem stmts g) (stmtItem stmts' g') := by
  refine .ifNext (by decide) ?_ (.of ?_)
  · exact (alikeLabelOrCmd alikeExpression).map fun _ _ found => alikeAdd same found
  · refine .bind (alikeBlockTail nested) fun tail tail' found => .pure ?_
    cases tail <;> cases tail'
    · exact same
    · exact absurd found.isSomeEq nofun
    · exact absurd found.isSomeEq nofun
    · exact alikeAddTail same (by simpa [Like, Alike, bare] using found)

omit nested in
theorem missesStmtItem {g : Gathered} : Misses isTypeWord (stmtItem stmts g) := by
  refine .ifNext (fun s here => ?_) (.first (.byKind fun k word => ?_))
  · have other (k : Kind) : isTypeWord k → ¬ commandStart.contains k = true := by
      cases k <;> decide
    exact absurd here.2 (other _ here.1)
  · split <;> first | exact absurd word.1 (by decide) | exact .fault (.syntaxError _)

theorem alikeStmtsBody : Simulates S (n + 1) sort (Like S.change) (stmtsBody stmts) (stmtsBody stmts') := by
  refine .bind (V := Like S.change) (MayMark.whileNext (by decide) (by decide) ?_ (fun _ => .stmtItem) ?_
    (fun _ => missesStmtItem) fun _ _ same => (alikeStmtItem nested same).mono (fun _ _ => trivial) (Nat.le_refl _))
    fun g g' same => ?_
  · simp [Like, Alike, Gathered.empty]
  · intro k word
    revert word
    cases k <;> decide
  · refine .bind .currentSpan fun closing closing' _ => ?_
    exact .bind (.expect (by decide)) fun _ _ _ => .pure (alikeFinish same)

end Statements

theorem alikeStmtList {S : Simulation} {n : Nat} {sort : Kind → Prop} :
    Simulates S n sort (Like S.change) stmtList stmtList :=
  Simulates.always (.nest (V := fun _ => Like S.change) (fun _ _ _ _ nested _ => alikeStmtsBody (nested ())) ())

end Boogie.Grammar
