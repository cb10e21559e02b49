import Boogie.Proofs.Alike.Decl
import Boogie.Proofs.Gate

/-! Recovery spares what follows. However malformed some tokens are, reading them stops where a
declaration begins behind them, as it would stop at the end of the text; the declarations behind are read
as though nothing stood before them. -/
namespace Boogie

open Token (Kind)

def Log.told (log : Log) : List (Severity × Concern × String) :=
  log.toList.map fun d => (d.severity, d.concern, d.message)

@[simp] theorem Log.toldReport (log : Log) (severity concern position message) :
    (log.report severity concern position message).told = log.told ++ [(severity, concern, message)] := by
  simp [told]

namespace Grammar

theorem toldTogether {s s' : State} (distance : s'.cursor.distance = s.cursor.distance)
    (told : s'.log.told = s.log.told) {report report' : Log} (same : report'.told = report.told) :
    (if s'.cursor.isReportDue then report' else s'.log).told =
      (if s.cursor.isReportDue then report else s.log).told := by
  rw [Cursor.isReportDue, Cursor.isReportDue, distance]
  split
  · exact same
  · exact told

/-- The first token of a row begins a declaration, and not one of variables. -/
def isDeclRow (ds : List Token) : Prop := ∃ t rest, ds = t :: rest ∧ isClosing t.kind = true

structure StandsBefore (ds : List Token) (s s' : State) : Prop where
  closed : s.isClosed
  closed' : s'.isClosed
  ahead : s'.cursor.ahead = s.cursor.ahead ++ ds
  distance : s'.cursor.distance = s.cursor.distance
  told : s'.log.told = s.log.told

namespace StandsBefore

variable {ds : List Token} {s s' : State}

theorem headEq (h : StandsBefore ds s s') {t : Token} {rest : List Token} (more : s.cursor.ahead = t :: rest) :
    s'.cursor.current = s.cursor.current := by
  simp [Cursor.current, h.ahead, more]

theorem kindEq (h : StandsBefore ds s s') (starts : isDeclRow ds) :
    s'.kind = s.kind ∨ (s.kind = .endOfText ∧ isClosing s'.kind = true) := by
  cases tokens : s.cursor.ahead with
  | nil =>
    obtain ⟨t, rest, rfl, closing⟩ := starts
    refine .inr ⟨State.kindOfNil h.closed tokens, ?_⟩
    have next : s'.cursor.ahead = t :: rest := by rw [h.ahead, tokens, List.nil_append]
    rw [State.kind, Cursor.currentOfCons next, closing]
  | cons t rest => exact .inl (congrArg Token.kind (h.headEq tokens))

end StandsBefore

def standsBefore (ds : List Token) (starts : isDeclRow ds) : Simulation where
  rel := StandsBefore ds
  closed h := h.closed
  fewer h := by
    rw [State.left, State.left, h.ahead, List.length_append]
    exact Nat.le_add_right _ _
  kind h := h.kindEq starts
  text h more _ := by
    obtain ⟨t, rest, tokens⟩ := State.aheadCons h.closed more
    rw [h.headEq tokens]
  advance h more _ := by
    obtain ⟨t, rest, tokens⟩ := State.aheadCons h.closed more
    refine .inl ⟨h.closed, h.closed', ?_, congrArg (· + 1) h.distance, h.told⟩
    simp [State.advance, h.ahead, tokens]
  syntaxError h e := by
    refine ⟨h.closed, h.closed', h.ahead, rfl, toldTogether h.distance h.told ?_⟩
    simp [Log.syntaxError, h.told]
  broken h rule := by
    refine ⟨h.closed, h.closed', h.ahead, rfl, toldTogether h.distance h.told ?_⟩
    simp [Log.semanticError, h.told]
  brokenAt h span span' rule := by
    refine ⟨h.closed, h.closed', h.ahead, h.distance, ?_⟩
    simp [State.brokenAt, Log.semanticError, h.told]

structure Follows (told : List (Severity × Concern × String)) (s s' : State) : Prop where
  closed : s.isClosed
  closed' : s'.isClosed
  ahead : s'.cursor.ahead = s.cursor.ahead
  silent : s.mistakes = 0 → s'.log.told = told

def follows (told : List (Severity × Concern × String)) : Simulation where
  rel := Follows told
  closed h := h.closed
  fewer h := by rw [State.left, State.left, h.ahead]
  kind h := .inl (State.kindSame h.closed h.closed' h.ahead)
  text h more _ := congrArg Token.text (State.currentSame h.closed h.ahead more).symm
  advance h _ _ := .inl ⟨h.closed, h.closed', congrArg List.tail h.ahead, h.silent⟩
  syntaxError h e := ⟨h.closed, h.closed', h.ahead, nofun⟩
  broken h rule := ⟨h.closed, h.closed', h.ahead, nofun⟩
  brokenAt h _ _ rule := ⟨h.closed, h.closed', h.ahead, nofun⟩

theorem Progresses.decl : Progresses (· ≠ .endOfText) decl := by
  refine .byKind fun k more => ?_
  have real : ∀ x : Kind, x = k → x ≠ .endOfText := by
    rintro _ rfl
    exact more
  split
  · exact .first (.advance real)
  · exact .first (.advance real)
  · exact .first (.advance real)
  · exact .first (.advance real)
  · exact .first (Progresses.variableDecl.mono fun _ h => by simp [h])
  · exact .first (.advance real)
  · exact .first (.advance real)
  · refine .stay (.syntaxError _) fun _ => .first ((Progresses.synchronize (by decide)).mono ?_)
    rintro _ rfl
    simp_all [declSync, declStart, Token.KindSet.containsOfList]

theorem mistakenAtEnd {s : State} (ended : s.kind = .endOfText) : s.mistakes < (decl.run s).2.mistakes := by
  have row : State.Reaches (s.syntaxError (.invalid "Declaration")) (decl.run s).2 := by
    simp only [decl, currentKind, Production.runBind, Production.runRead, ended]
    exact State.reachesSynchronize declSync _
  exact row.mistakesLe

def addDecl (found : List (List Decl)) : Production (List (List Decl)) := do return (← decl) :: found

theorem roundsDone {s : State} (none : s.cursor.ahead = []) (tokens : List Token) (acc : List (List Decl)) :
    (rounds more addDecl tokens acc).run s = (acc, s) := by
  cases tokens with
  | nil => rfl
  | cons t rest => simp [rounds, more, Cursor.isAtEnd, none]

theorem roundsCons {s : State} (some : s.cursor.ahead ≠ []) (t : Token) (tokens : List Token)
    (acc : List (List Decl)) :
    (rounds more addDecl (t :: tokens) acc).run s =
      (rounds more addDecl tokens ((decl.run s).1 :: acc)).run (decl.run s).2 := by
  simp [rounds, more, Cursor.isAtEnd, some, addDecl]

theorem realOfClean {tokens : List Token} {acc : List (List Decl)} {s : State}
    (clean : ((rounds more addDecl tokens ((decl.run s).1 :: acc)).run (decl.run s).2).2.mistakes = 0) :
    s.kind ≠ .endOfText := by
  intro ended
  have mistaken := mistakenAtEnd ended
  have := ((rounds more addDecl tokens ((decl.run s).1 :: acc)).reaches (decl.run s).2).mistakesLe
  omega

theorem declsTogether {S : Simulation} (balanced : ∀ {s s'}, S.rel s s' → s'.left = s.left)
    (tokens tokens' : List Token) {s s' : State} (row : S.rel s s') (enough : s.left ≤ tokens.length)
    (enough' : s.left ≤ tokens'.length) {acc acc' : List (List Decl)} (same : Like S.change acc acc')
    (clean : ((rounds more addDecl tokens acc).run s).2.mistakes = 0)
    (inside : S.within ((rounds more addDecl tokens acc).run s).2) :
    Like S.change ((rounds more addDecl tokens acc).run s).1 ((rounds more addDecl tokens' acc').run s').1 ∧
      S.rel ((rounds more addDecl tokens acc).run s).2 ((rounds more addDecl tokens' acc').run s').2 := by
  induction tokens generalizing tokens' s s' acc acc' with
  | nil =>
    have none : s'.cursor.ahead = [] :=
      List.length_eq_zero_iff.mp ((balanced row).trans (Nat.le_zero.mp enough))
    rw [roundsDone none]
    exact ⟨same, row⟩
  | cons u tokens ih =>
    have left := balanced row
    cases next : s.cursor.ahead with
    | nil =>
      have none : s'.cursor.ahead = [] := List.length_eq_zero_iff.mp (left.trans (List.length_eq_zero_iff.mpr next))
      rw [roundsDone next, roundsDone none]
      exact ⟨same, row⟩
    | cons t rest =>
      have length : s.left = rest.length + 1 := congrArg List.length next
      cases tokens' with
      | nil => exact absurd (length ▸ enough') (Nat.not_succ_le_zero _)
      | cons u' tokens' =>
        have some : s.cursor.ahead ≠ [] := by simp [next]
        have some' : s'.cursor.ahead ≠ [] := by
          intro none
          rw [length, State.left, none] at left
          exact absurd left nofun
        rw [roundsCons some] at clean inside
        have real := realOfClean clean
        have alike : Simulates S (s.left + 1) (· ≠ .endOfText) (Like S.change) decl decl := alikeDecl fun _ h => h
        have within := S.withinReached ((rounds more addDecl tokens ((decl.run s).1 :: acc)).reaches _) inside
        obtain ⟨found, after⟩ := alike s s' row (Nat.lt_succ_self _) real within
        have less := Progresses.decl s (S.closed row) real
        simp only [List.length_cons] at enough enough'
        rw [roundsCons some, roundsCons some']
        exact ih tokens' after (by omega) (by omega) (found.cons same) clean inside

theorem standsAtEnd {ds : List Token} (starts : isDeclRow ds) (tokens tokens' : List Token) {s s' : State}
    (row : StandsBefore ds s s') (inner : ∀ t ∈ s.cursor.ahead, t.kind ≠ .endOfText)
    (enough : s.left ≤ tokens.length) (enough' : tokens.length + ds.length ≤ tokens'.length)
    {acc acc' : List (List Decl)} (same : Alike acc acc') :
    ∃ rest t' found', ds.length ≤ rest.length ∧
      Alike ((rounds more addDecl tokens acc).run s).1 found' ∧
      StandsBefore ds ((rounds more addDecl tokens acc).run s).2 t' ∧ t'.cursor.ahead = ds ∧
      (rounds more addDecl tokens' acc').run s' = (rounds more addDecl rest found').run t' := by
  induction tokens generalizing tokens' s s' acc acc' with
  | nil =>
    have none : s.cursor.ahead = [] := List.length_eq_zero_iff.mp (Nat.le_zero.mp enough)
    exact ⟨tokens', s', acc', by simpa using enough', same, row, by rw [row.ahead, none, List.nil_append], rfl⟩
  | cons u tokens ih =>
    cases next : s.cursor.ahead with
    | nil =>
      rw [roundsDone next]
      refine ⟨tokens', s', acc', by omega, same, row, by rw [row.ahead, next, List.nil_append], rfl⟩
    | cons t rest =>
      cases tokens' with
      | nil => simp at enough'
      | cons u' tokens' =>
        have some : s.cursor.ahead ≠ [] := by simp [next]
        have some' : s'.cursor.ahead ≠ [] := by simp [row.ahead, next]
        have real : s.kind ≠ .endOfText := by
          rw [State.kind, Cursor.currentOfCons next]
          exact inner t (by simp [next])
        have alike : Simulates (standsBefore ds starts) (s.left + 1) (· ≠ .endOfText) Alike decl decl :=
          alikeDecl fun _ h => h
        obtain ⟨found, after⟩ := alike s s' row (Nat.lt_succ_self _) real trivial
        have less := Progresses.decl s row.closed real
        rw [roundsCons some, roundsCons some']
        refine ih tokens' after ?_ ?_ ?_ (found.cons same)
        · exact fun t mem => inner t ((decl.reaches s).aheadSuffix.subset mem)
        · simp only [List.length_cons] at enough
          omega
        · simpa [Nat.add_right_comm] using enough'

theorem followsToEnd {told : List (Severity × Concern × String)} (base : List (List Decl))
    (tokens tokens' : List Token) {s s' : State} (row : Follows told s s')
    (enough : s.left ≤ tokens.length) (enough' : s.left ≤ tokens'.length)
    {acc acc' : List (List Decl)} (same : Alike (acc ++ base) acc')
    (clean : ((rounds more addDecl tokens acc).run s).2.mistakes = 0) :
    Alike (((rounds more addDecl tokens acc).run s).1 ++ base) ((rounds more addDecl tokens' acc').run s').1 ∧
      ((rounds more addDecl tokens' acc').run s').2.log.told = told := by
  induction tokens generalizing tokens' s s' acc acc' with
  | nil =>
    have none : s.cursor.ahead = [] := List.length_eq_zero_iff.mp (Nat.le_zero.mp enough)
    rw [roundsDone (row.ahead.trans none)]
    exact ⟨same, row.silent clean⟩
  | cons u tokens ih =>
    cases next : s.cursor.ahead with
    | nil =>
      rw [roundsDone next] at clean ⊢
      rw [roundsDone (row.ahead.trans next)]
      exact ⟨same, row.silent clean⟩
    | cons t rest =>
      cases tokens' with
      | nil => simp [State.left, next] at enough'
      | cons u' tokens' =>
        have some : s.cursor.ahead ≠ [] := by simp [next]
        have some' : s'.cursor.ahead ≠ [] := by rwa [row.ahead]
        rw [roundsCons some] at clean
        have real := realOfClean clean
        have alike : Simulates (follows told) (s.left + 1) (· ≠ .endOfText) Alike decl decl :=
          alikeDecl fun _ h => h
        obtain ⟨found, after⟩ := alike s s' row (Nat.lt_succ_self _) real trivial
        have less := Progresses.decl s row.closed real
        simp only [List.length_cons] at enough enough'
        rw [roundsCons some, roundsCons some']
        exact ih tokens' after (by omega) (by omega) (found.cons same) clean

end Grammar

open Grammar

namespace Reading

theorem declsOfRun (tokens : TokenList) (text : List Char) (log : Log) :
    (run tokens text log).1.decls =
      ((rounds more addDecl tokens.terminals []).run (.start tokens text log)).1.reverse.flatten := rfl

theorem logOfRun (tokens : TokenList) (text : List Char) (log : Log) :
    (run tokens text log).2 =
      ((rounds more addDecl tokens.terminals []).run (.start tokens text log)).2 := rfl

theorem unmarkedOfSilent {tokens : TokenList} {text : List Char} {file : String}
    (silent : (run tokens text (.empty file)).2.log.toList = []) :
    (run tokens text (.empty file)).2.mistakes = 0 := by
  refine unmarkedOfErrorFree (Log.countedEmpty file) ?_
  have counted := (State.gatedReached (Grammar.program.reaches (.start tokens text (.empty file)))
    (State.gatedStart (Log.countedEmpty file))).counted
  refine counted.trans ?_
  show ((run tokens text (.empty file)).2.log.toList.filter Diagnostic.isError).length = 0
  rw [silent]
  rfl

theorem runBehind {clean : TokenList} {text : List Char} {file : String} {t : State} (found : List (List Decl))
    {rest : List Token} (ends : clean.finish.kind = .endOfText) (closed : t.isClosed)
    (ahead : t.cursor.ahead = clean.terminals) (enough : clean.terminals.length ≤ rest.length)
    (unmarked : (run clean text (.empty file)).2.mistakes = 0) :
    bare ((rounds more addDecl rest found).run t).1.reverse.flatten =
        bare found.reverse.flatten ++ bare (run clean text (.empty file)).1.decls ∧
      ((rounds more addDecl rest found).run t).2.log.told = t.log.told := by
  have follows : Follows t.log.told (.start clean text (.empty file)) t := ⟨ends, closed, ahead, fun _ => rfl⟩
  obtain ⟨later, told⟩ := followsToEnd found clean.terminals rest follows (Nat.le_refl _) enough
    (show Alike ([] ++ found) found from rfl) unmarked
  refine ⟨?_, told⟩
  have whole := Alike.flatten (Alike.reverse later)
  rw [List.reverse_append, List.flatten_append] at whole
  exact whole.symm.trans (respanAppend _ _ _)

end Reading

open Reading

/-- However malformed the tokens `xs` are, clean declarations behind them are read as they are read alone,
and what is reported is what is reported of `xs` alone. -/
theorem recoverySparesDeclarations {xs ds : List Token} {end_ endX endD : Token}
    {text textX textD : List Char} {file : String} (ends : end_.kind = .endOfText)
    (endsX : endX.kind = .endOfText) (endsD : endD.kind = .endOfText)
    (inner : ∀ t ∈ xs, t.kind ≠ .endOfText) (starts : isDeclRow ds)
    (silent : (run ⟨ds, endD⟩ textD (.empty file)).2.log.toList = []) :
    bare (run ⟨xs ++ ds, end_⟩ text (.empty file)).1.decls =
        bare (run ⟨xs, endX⟩ textX (.empty file)).1.decls ++
          bare (run ⟨ds, endD⟩ textD (.empty file)).1.decls ∧
      (run ⟨xs ++ ds, end_⟩ text (.empty file)).2.log.told =
        (run ⟨xs, endX⟩ textX (.empty file)).2.log.told := by
  let both : TokenList := ⟨xs ++ ds, end_⟩
  let alone : TokenList := ⟨xs, endX⟩
  let clean : TokenList := ⟨ds, endD⟩
  have terminals : both.terminals = alone.terminals ++ clean.terminals := List.filter_append _ _
  have starts : isDeclRow clean.terminals := by
    obtain ⟨t, rest, rfl, closing⟩ := starts
    refine ⟨t, rest.filter fun t => t.kind.isTerminal, List.filter_cons_of_pos ?_, closing⟩
    cases kind : t.kind <;> simp_all [isClosing, Kind.isTerminal]
  have row : StandsBefore clean.terminals (.start alone textX (.empty file))
      (.start both text (.empty file)) := ⟨endsX, ends, terminals, rfl, rfl⟩
  obtain ⟨rest, t, found, enough, same, stands, ahead, onward⟩ :=
    standsAtEnd starts alone.terminals both.terminals row
      (fun t mem => inner t (List.mem_of_mem_filter mem)) (Nat.le_refl _)
      (by rw [terminals, List.length_append]) (Alike.nil (α := List Decl))
  obtain ⟨decls, told⟩ := runBehind found endsD stands.closed' ahead enough (unmarkedOfSilent silent)
  refine ⟨?_, ?_⟩
  · have earlier : Alike (run alone textX (.empty file)).1.decls found.reverse.flatten :=
      Alike.flatten same.reverse
    rw [declsOfRun, onward, decls, earlier]
  · rw [logOfRun, onward, told, stands.told]
    rfl

theorem recoverySparesAxiom :
    let broken : List Token := [.sample .kwProcedure, .sample .identifier, .sample .leftParen,
      .sample .rightParen, .sample .leftBrace, .sample .kwIf, .sample .leftParen]
    let sound : List Token := [.sample .kwAxiom, .sample .kwTrue, .sample .semicolon]
    let ends : Token := .sample .endOfText
    (run ⟨sound, ends⟩ [] (.empty "")).2.log.toList = [] ∧
      bare (run ⟨broken ++ sound, ends⟩ [] (.empty "")).1.decls =
        bare (run ⟨broken, ends⟩ [] (.empty "")).1.decls ++
          bare (run ⟨sound, ends⟩ [] (.empty "")).1.decls :=
  have silent : (run ⟨[.sample .kwAxiom, .sample .kwTrue, .sample .semicolon], .sample .endOfText⟩ []
      (.empty "")).2.log.toList = [] := by decide +kernel
  ⟨silent, (recoverySparesDeclarations rfl rfl rfl (by decide) ⟨_, _, rfl, rfl⟩ silent).1⟩

end Boogie
