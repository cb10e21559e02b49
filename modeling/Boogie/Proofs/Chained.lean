import Boogie.Proofs.Operators
import Boogie.Proofs.Relaid

/-! A chained relation costs one error. Relations do not chain, so the reading of an axiom stops in front of
a second relational operator, where the semicolon is missed. What is left of the axiom begins no declaration
and is skipped without another report, up to where the next declaration begins. -/
namespace Boogie

open Token (Kind KindSet Word scan scanErrors words)

namespace Grammar

structure InFront (extra : List Word) (marked : Nat) (s s' : State) : Prop where
  closed : s.isClosed
  closed' : s'.isClosed
  some : s.cursor.ahead ≠ []
  words : s'.words = s.words ++ extra
  mistakes : s'.mistakes = s.mistakes + marked

namespace InFront

variable {extra : List Word} {marked : Nat} {s s' : State}

theorem next (h : InFront extra marked s s') :
    ∃ w ws, s.words = w :: ws ∧ s'.words = w :: (ws ++ extra) := by
  obtain ⟨t, rest, tokens⟩ := List.exists_cons_of_ne_nil h.some
  have words : s.words = Token.word t :: rest.map Token.word := by rw [State.words, tokens]; rfl
  exact ⟨_, _, words, by rw [h.words, words]; rfl⟩

theorem kindEq (h : InFront extra marked s s') : s'.kind = s.kind := by
  obtain ⟨w, ws, words, words'⟩ := h.next
  rw [State.kindOfWords h.closed words, State.kindOfWords h.closed' words']
  rfl

theorem currentEq (h : InFront extra marked s s') :
    Token.word s.cursor.current = Token.word s'.cursor.current := by
  obtain ⟨w, ws, words, words'⟩ := h.next
  rw [(State.wordsCons words).1, (State.wordsCons words').1]

theorem advance (h : InFront extra marked s s') (more : s.advance.cursor.ahead ≠ []) :
    InFront extra marked s.advance s'.advance := by
  obtain ⟨w, ws, words, words'⟩ := h.next
  refine ⟨h.closed, h.closed', more, ?_, h.mistakes⟩
  rw [(State.wordsCons words).2, (State.wordsCons words').2]

theorem mistaken (h : InFront extra marked s s') : s'.mistakes + 1 = s.mistakes + 1 + marked := by
  rw [h.mistakes, Nat.add_right_comm]

end InFront

def inFront (extra : List Word) (marked : Nat) : Simulation where
  rel := InFront extra marked
  within s := s.cursor.ahead ≠ []
  withinBefore last some := by
    cases last with
    | advance s =>
      intro none
      exact some (congrArg List.tail none)
    | syntaxError => exact some
    | broken => exact some
    | brokenAt => exact some
  closed h := h.closed
  fewer {s s'} h := by
    have lengths := congrArg List.length h.words
    simp only [State.words, List.length_map, List.length_append] at lengths
    rw [State.left, State.left, lengths]
    exact Nat.le_add_right _ _
  kind h := .inl h.kindEq
  text h _ _ := String.toList_inj.mp (congrArg Word.text h.currentEq)
  advance h _ more := .inl (h.advance more)
  syntaxError h e := ⟨h.closed, h.closed', h.some, h.words, h.mistaken⟩
  broken h rule := ⟨h.closed, h.closed', h.some, h.words, h.mistaken⟩
  brokenAt h _ _ rule := ⟨h.closed, h.closed', h.some, h.words, h.mistaken⟩

theorem Reads.ofRun {α : Type} [Spanned α] [Typed α] {m : Production α}
    (alike : ∀ (S : Simulation) (n : Nat), Simulates S n anywhere (Like S.change) m m) {ws extra : List Word} {w : Word}
    {s : State} (closed : s.isClosed) (fresh : s.mistakes = 0) (ahead : s.words = ws ++ [w])
    (after : (m.run s).2.words = [w]) (clean : (m.run s).2.mistakes = 0) :
    Reads ws (w :: extra) (Alike (m.run s).1) m := by
  intro s' closed' ahead'
  have some {s : State} (ws : List Word) (words : s.words = ws ++ [w]) : s.cursor.ahead ≠ [] := by
    intro none
    simp [State.words, none] at words
  have row : InFront extra s'.mistakes s s' := by
    refine ⟨closed, closed', some ws ahead, ?_, by rw [fresh, Nat.zero_add]⟩
    rw [ahead', ahead, List.append_assoc]
    rfl
  obtain ⟨found, last⟩ :=
    alike (inFront extra s'.mistakes) _ s s' row (Nat.lt_succ_self _) trivial (some [] after)
  refine ⟨found, ?_, ?_⟩
  · rw [last.words, after]
    rfl
  · rw [last.mistakes, clean, Nat.zero_add]

theorem cleanOfErrorFree {read : TokenList} {scanned text : List Char} {file : String} {s : State}
    (row : (State.start read text (Reading.logFaults (.empty file) (scanErrors scanned))).Reaches s)
    (errorFree : s.log.errorCount = 0) : (scan scanned).faulty = [] ∧ s.mistakes = 0 := by
  obtain ⟨counted, count⟩ := Reading.countedFaults (Log.countedEmpty file) (scanErrors scanned)
  have gated := State.gatedReached row (State.gatedStart counted)
  refine ⟨?_, Decidable.byContradiction fun some => gated.told some errorFree⟩
  have less : (Reading.logFaults (.empty file) (scanErrors scanned)).errorCount ≤ s.log.errorCount :=
    State.errorCountReached row
  rw [errorFree, count, Token.scanErrorsFaulty, List.length_map] at less
  exact List.length_eq_zero_iff.mp (Nat.eq_zero_of_add_eq_zero_left (Nat.le_zero.mp less))

def operandStart (text : List Char) (behind : List Token) : State :=
  .start ⟨(scan text).body ++ behind, (scan text).finish⟩ text (Reading.logFaults (.empty "") (scanErrors text))

/-- In front of some tokens the text is read as an operand of a relation: the whole of it, as the expression,
and without an error. -/
structure IsOperand (text : List Char) (behind : List Token) (e : Expr) : Prop where
  tree : IsTree e ((concatenation operand).run (operandStart text behind)).1
  whole : ((concatenation operand).run (operandStart text behind)).2.cursor.ahead = behind
  errorFree : ((concatenation operand).run (operandStart text behind)).2.log.errorCount = 0

theorem mistakenAtBrace {s : State} (brace : s.kind = .leftBrace) :
    s.mistakes < ((concatenation operand).run s).2.mistakes := by
  have later {α β : Type} {m : Production α} {f : α → Production β} (h : s.mistakes < (m.run s).2.mistakes) :
      s.mistakes < ((m >>= f).run s).2.mistakes :=
    Nat.lt_of_lt_of_le h ((f _).reaches _).mistakesLe
  have first : s.mistakes < ((unary operand).run s).2.mistakes := by
    have notOp : unaryOp s.kind = none := by rw [brace]; rfl
    have notExpr : exprStart.contains s.kind = false := by rw [brace]; decide
    simp [unary, currentKind, notOp, checkAny, notExpr, currentSpan, syntaxError, State.syntaxError]
  have power : s.mistakes < ((power operand).run s).2.mistakes := later first
  have product : s.mistakes < ((multiplicative operand).run s).2.mistakes := later power
  have sum : s.mistakes < ((additive operand).run s).2.mistakes := later product
  exact later sum

theorem operandStartClosed (text : List Char) (behind : List Token) : (operandStart text behind).isClosed := rfl

namespace IsOperand

variable {text : List Char} {behind : List Token} {e : Expr}

theorem clean (h : IsOperand text behind e) : (scan text).faulty = [] ∧
    ((concatenation operand).run (operandStart text behind)).2.mistakes = 0 :=
  cleanOfErrorFree ((concatenation operand).reaches (operandStart text behind)) h.errorFree

theorem startAhead (clean : (scan text).faulty = []) (real : ∀ t ∈ behind, t.kind.isTerminal = true) :
    (operandStart text behind).cursor.ahead = (scan text).body ++ behind := by
  show (((scan text).body ++ behind).filter fun t => t.kind.isTerminal) = _
  rw [List.filter_append, List.filter_eq_self.mpr real]
  exact congrArg (· ++ behind) (terminalsOfClean clean)

theorem startWords {t : Token} (h : IsOperand text [t] e) (real : t.kind.isTerminal = true) :
    (operandStart text [t]).words = words text ++ [Token.word t] := by
  rw [State.words, startAhead h.clean.1 (by simpa using real), List.map_append, Token.scanWords]
  rfl

theorem reads {t : Token} (h : IsOperand text [t] e) (real : t.kind.isTerminal = true) (rest : List Word) :
    Reads (words text) (Token.word t :: rest) (IsTree e) (concatenation operand) := by
  have alike (S : Simulation) (n : Nat) :
      Simulates S n anywhere (Like S.change) (concatenation operand) (concatenation operand) :=
    (alikeConcatenation fun l => alikeOperand l).mono (fun _ h => h) (Nat.le_succ n)
  have last : ((concatenation operand).run (operandStart text [t])).2.words = [Token.word t] := by
    rw [State.words, h.whole]
    rfl
  refine (Reads.ofRun alike (operandStartClosed text [t]) rfl (h.startWords real) last h.clean.2).weaken ?_
  exact fun a same => same.symm.trans h.tree

theorem noBrace {t : Token} (h : IsOperand text [t] e) (real : t.kind.isTerminal = true) (rest : List Word) :
    headKind (words text ++ Token.word t :: rest) ≠ .leftBrace := by
  intro brace
  have first : headKind (words text ++ [Token.word t]) = .leftBrace := by
    cases same : words text <;> simpa [same] using brace
  have here : (operandStart text [t]).kind = .leftBrace :=
    (State.kindOfWords (operandStartClosed text [t]) (h.startWords real)).trans first
  have less := mistakenAtBrace here
  rw [h.clean.2] at less
  exact absurd less (Nat.not_lt_zero _)

theorem noClosing (h : IsOperand text [] e) : ∀ w ∈ words text, isClosing w.kind = false := by
  intro w listed
  by_contra closing
  rw [Bool.not_eq_false] at closing
  rw [← Token.scanWords] at listed
  obtain ⟨t, mem, rfl⟩ := List.mem_map.mp listed
  obtain ⟨front, behind, split⟩ := List.append_of_mem mem
  have starts : isDeclRow (t :: behind) := ⟨t, behind, rfl, closing⟩
  have sound : front.filter (fun t => t.kind.isTerminal) = front := by
    refine List.filter_eq_self.mpr fun u inner => ?_
    have := List.filter_eq_nil_iff.mp h.clean.1 u (split ▸ List.mem_append_left _ inner)
    simpa using this
  let short : State := .start ⟨front, (scan text).finish⟩ text (Reading.logFaults (.empty "") (scanErrors text))
  have ahead : (operandStart text []).cursor.ahead = short.cursor.ahead ++ t :: behind := by
    rw [startAhead h.clean.1 (by simp), List.append_nil, split]
    exact congrArg (· ++ t :: behind) sound.symm
  have row : StandsBefore (t :: behind) short (operandStart text []) := ⟨rfl, rfl, ahead, rfl, rfl⟩
  have alike : Simulates (standsBefore (t :: behind) starts) (short.left + 1) anywhere Alike
      (concatenation operand) (concatenation operand) := alikeConcatenation fun l => alikeOperand l
  obtain ⟨_, last⟩ := alike short _ row (Nat.lt_succ_self _) trivial trivial
  have rest := last.ahead
  rw [h.whole] at rest
  simp at rest

theorem ofReads (clean : (scan text).faulty = []) (real : ∀ t ∈ behind, t.kind.isTerminal = true)
    (h : Reads (words text) (behind.map Token.word) (IsTree e) (concatenation operand)) :
    IsOperand text behind e := by
  have ahead : (operandStart text behind).cursor.ahead = (scan text).body ++ behind := startAhead clean real
  have row := (concatenation operand).reaches (operandStart text behind)
  obtain ⟨tree, after, unmarked⟩ := h (operandStart text behind) (operandStartClosed text behind) (by
    rw [State.words, ahead, List.map_append, Token.scanWords])
  refine ⟨tree, ?_, ?_⟩
  · have suffix := row.aheadSuffix
    rw [ahead] at suffix
    have lengths := congrArg List.length after
    rw [State.words, List.length_map, List.length_map] at lengths
    exact (List.suffix_of_suffix_length_le suffix (List.suffix_append _ _) lengths.le).eq_of_length lengths
  · rw [row.silent unmarked]
    show (Reading.logFaults (.empty "") (scanErrors text)).errorCount = 0
    rw [Reading.logFaultsNone clean]
    rfl

theorem found (expr : ((concatenation operand).run (operandStart text behind)).1.isBits = false)
    (whole : ((concatenation operand).run (operandStart text behind)).2.cursor.ahead = behind)
    (errorFree : ((concatenation operand).run (operandStart text behind)).2.log.errorCount = 0) :
    ∃ e, IsOperand text behind e := by
  cases operand : ((concatenation operand).run (operandStart text behind)).1 with
  | expr e => exact ⟨bare e, operand ▸ isTree rfl, whole, errorFree⟩
  | bits range =>
    rw [operand] at expr
    exact absurd expr nofun

end IsOperand

theorem readsRelation {ws ws' rest : List Word} {w w' : Word} {o o' : BinaryOp} {x x' : Expr}
    (compares : relationalOp w.kind = some o) (again : relationalOp w'.kind = some o')
    (left : Reads ws (w :: (ws' ++ w' :: rest)) (IsTree x) (concatenation operand))
    (right : Reads ws' (w' :: rest) (IsTree x') (concatenation operand)) :
    Reads (ws ++ w :: ws') (w' :: rest) (fun a => bare a = binaryTree o x x') expression := by
  have noMore : logicalOp w'.kind = none ∧ w'.kind ≠ .implies ∧ w'.kind ≠ .explies ∧ iffOp w'.kind = none := by
    cases kind : w'.kind <;> simp [kind, relationalOp] at again <;> decide
  obtain ⟨noLogical, noImplies, noExplies, noIff⟩ := noMore
  have logical : Reads (ws ++ w :: ws') (w' :: rest) (IsTree (binaryTree o x x')) (logical operand) := by
    refine .last (readsCompared compares left right) fun _ ofO => .byKind rfl ?_
    rw [List.nil_append, headKindCons, noLogical]
    exact .pure ofO
  have implication : Reads (ws ++ w :: ws') (w' :: rest) (IsTree (binaryTree o x x'))
      (implication operand false) := by
    refine .last logical fun _ ofO => .byKind rfl ?_
    rw [List.nil_append, headKindCons]
    split
    · contradiction
    · contradiction
    · exact .pure ofO
  exact readsExpression (.last implication fun _ ofO => readsChainDone noIff ofO)

theorem State.Reaches.distanceLe {s t : State} (row : s.Reaches t) (clean : t.mistakes = s.mistakes) :
    s.cursor.distance ≤ t.cursor.distance := by
  refine (row.keeps (P := fun t => s.mistakes ≤ t.mistakes ∧
    (t.mistakes = s.mistakes → s.cursor.distance ≤ t.cursor.distance)) ?_
    ⟨Nat.le_refl _, fun _ => Nat.le_refl _⟩).2 clean
  rintro t u last ⟨more, further⟩
  cases last with
  | advance => exact ⟨more, fun none => Nat.le_succ_of_le (further none)⟩
  | syntaxError | broken | brokenAt =>
    exact ⟨Nat.le_succ_of_le more, fun none => absurd none (Nat.ne_of_gt (Nat.lt_succ_of_le more))⟩

theorem runCutAxiom {s : State} {ws rest : List Word} {w : Word} {opening : Word} {e : Expr}
    (closed : s.isClosed) (opens : opening.kind = .kwAxiom) (ahead : s.words = opening :: (ws ++ w :: rest))
    (reads : Reads ws (w :: rest) (fun a => bare a = e) expression) (noBrace : headKind (ws ++ w :: rest) ≠ .leftBrace)
    (other : w.kind ≠ .semicolon) :
    ∃ t, s.Reaches t ∧ t.mistakes = s.mistakes ∧ t.words = w :: rest ∧
      bare (decl.run s).1 = [axiomTree e] ∧ (decl.run s).2 = t.syntaxError (.expected .semicolon) := by
  let front : Production (Token × List Attribute × Expr) := do
    let token ← advance
    let found ← attributes expression
    return (token, found, ← expression)
  have read : Reads (opening :: ws) (w :: rest) (fun p => p.2.1 = [] ∧ bare p.2.2 = e) front := by
    refine .advance fun token _ => .stay (readsNoAttributes noBrace) fun found none => ?_
    exact .last reads fun a ofA => .pure ⟨none, ofA⟩
  obtain ⟨⟨none, ofA⟩, words, clean⟩ := read s closed ahead
  have here : s.kind = .kwAxiom := (State.kindOfWords closed ahead).trans opens
  have missed : (front.run s).2.kind ≠ .semicolon := by
    rw [State.kindOfWords ((front.reaches s).isClosed closed) words]
    exact other
  have split : decl.run s = (do
      let p ← front
      expect .semicolon
      return [Decl.axiomatic ⟨p.2.2, p.2.1, ← spanFrom p.1.span⟩] : Production (List Decl)).run s := by
    simp only [decl, currentKind, Production.runBind, Production.runRead, here]
    rfl
  have cut : (expect .semicolon).run (front.run s).2 =
      ((), (front.run s).2.syntaxError (.expected .semicolon)) := by
    rw [expect, ifNext, Production.runBind, runEatNo missed]
    rfl
  rw [split, Production.runBind, Production.runBind, cut, none]
  refine ⟨_, front.reaches s, clean, words, ?_, rfl⟩
  subst ofA
  rfl

theorem runNoDecl {s : State} (other : declSync.contains s.kind = false) :
    decl.run s = ([], (s.syntaxError (.invalid "Declaration")).synchronize declSync) := by
  simp only [decl, currentKind, Production.runBind, Production.runRead]
  split
  case h_8 => rfl
  all_goals
    rename_i is
    rw [is] at other
    exact absurd other (by decide)

theorem synchronizeBehind {set : KindSet} (front : List Word) {behind : List Word} {s : State} (closed : s.isClosed)
    (ahead : s.words = front ++ behind) (others : ∀ w ∈ front, set.contains w.kind = false)
    (stops : set.contains (headKind behind) = true) : (s.synchronize set).words = behind := by
  induction front generalizing s with
  | nil =>
    have here : set.contains s.kind = true := by rwa [State.kindOfWords closed ahead]
    rw [Progresses.synchronizeHere (.inr here), ahead, List.nil_append]
  | cons w front ih =>
    have here : set.contains s.kind = false := by
      rw [State.kindOfWords closed ahead]
      exact others w List.mem_cons_self
    have some : 0 < s.left := by
      have lengths := congrArg List.length ahead
      simp only [State.words, List.length_map, List.cons_append, List.length_cons] at lengths
      rw [State.left, lengths]
      exact Nat.succ_pos _
    rw [Progresses.synchronizeOn some here]
    exact ih closed (State.wordsCons ahead).2 fun u mem => others u (.tail _ mem)

theorem notSyncing {k : Kind} (inner : isClosing k = false) (real : k ≠ .endOfText) (noVariables : k ≠ .kwVar) :
    declSync.contains k = false := by
  cases k <;> first | rfl | contradiction

theorem cleanBegins {tokens : TokenList} {text : List Char} {log : Log} (ends : tokens.finish.kind = .endOfText)
    (clean : (Reading.run tokens text log).2.mistakes = 0) :
    declSync.contains (State.start tokens text log).kind = true := by
  let start : State := .start tokens text log
  by_cases none : tokens.terminals = []
  · rw [State.kindOfNil (s := start) ends none]
    decide
  · by_contra other
    rw [Bool.not_eq_true] at other
    obtain ⟨rest, _, last⟩ := @Reading.runFirst text tokens log none
    have less := ((rounds more addDecl rest [(decl.run start).1]).reaches (decl.run start).2).mistakesLe
    rw [← last, clean, runNoDecl other] at less
    have row := State.reachesSynchronize declSync (start.syntaxError (.invalid "Declaration"))
    exact absurd (Nat.le_trans row.mistakesLe less) (Nat.not_succ_le_zero _)

theorem toldWhenOpen {tokens : TokenList} {text : List Char} {log : Log} {t : State}
    (row : (State.start tokens text log).Reaches t) (clean : t.mistakes = 0) (e : SyntaxError) :
    (t.syntaxError e).log.told = log.told ++ [(.error, .syntactic, e.message)] := by
  have further : reportDistance ≤ t.cursor.distance := row.distanceLe clean
  have due : t.cursor.isReportDue = true := by simpa [Cursor.isReportDue] using further
  show (if t.cursor.isReportDue then _ else _ : Log).told = _
  rw [if_pos due, row.silent clean]
  exact Log.toldReport ..

end Grammar

open Grammar

namespace Reading

theorem errorsTold (log : Log) : log.errors.map (fun e => (e.concern, e.message)) =
    (log.told.filter fun e => e.1 == .error).map Prod.snd := by
  rw [Log.errors, Log.told, List.filter_map, List.map_map]
  rfl

theorem runOfWords {file : String} {text : List Char} (tokens : TokenList)
    (errorFree : (ofText file text).2.errorCount = 0) (ends : tokens.finish.kind = .endOfText)
    (same : tokens.body.map Token.word = words text) :
    (run tokens text (.empty file)).2.mistakes = 0 ∧
      bare (run tokens text (.empty file)).1.decls = bare (ofText file text).1.decls := by
  obtain ⟨clean, unmarked⟩ := cleanOfErrorFree (Grammar.program.reaches _) errorFree
  have words : SameWords (scan text).body tokens.body := by
    refine List.forall₂_map_left_iff.mp (List.forall₂_map_right_iff.mp ?_)
    rw [same, Token.scanWords]
    exact List.forall₂_same.mpr fun _ _ => ⟨rfl, fun _ => rfl⟩
  have sound := cleanOfSame clean words
  have outcome : SameOutcome (ofTokens (scan text) text (.empty file)) (ofTokens tokens text (.empty file)) := by
    refine ofTokensSame rfl ends ?_ ?_ text text (Log.countedEmpty file)
    · exact fun t mem => scanInner (List.mem_of_mem_filter mem)
    · rwa [terminalsOfClean clean, terminalsOfClean sound]
  rw [ofText, logFaultsNone clean] at errorFree ⊢
  refine ⟨unmarkedOfErrorFree (Log.countedEmpty file) (outcome.errorCount.trans errorFree), ?_⟩
  exact congrArg Program.decls outcome.program

end Reading

theorem wordsInner {text : List Char} : ∀ w ∈ words text, w.kind ≠ .endOfText := by
  intro w listed
  rw [← Token.scanWords] at listed
  obtain ⟨t, mem, rfl⟩ := List.mem_map.mp listed
  exact scanInner mem

theorem cleanOfSound {text : List Char} (sound : ∀ w ∈ words text, w.kind ≠ .invalid) :
    (scan text).faulty = [] := by
  refine List.filter_eq_nil_iff.mpr fun t mem => ?_
  have real : t.kind ≠ .invalid := sound t.word (Token.scanWords text ▸ List.mem_map_of_mem mem)
  simpa [Kind.isTerminal] using real

namespace Grammar

theorem runOneAndNone {tokens behind : TokenList} {text text' : List Char} {log : Log} {file : String} {u v : State}
    (ends : tokens.finish.kind = .endOfText) (ends' : behind.finish.kind = .endOfText)
    (one : (decl.run (.start tokens text log)).2 = u) (none : decl.run u = ([], v)) (some : u.cursor.ahead ≠ [])
    (ahead : v.cursor.ahead = behind.terminals) (enough : behind.terminals.length + 2 ≤ tokens.terminals.length)
    (unmarked : (Reading.run behind text' (.empty file)).2.mistakes = 0) :
    bare (Reading.run tokens text log).1.decls = bare (decl.run (.start tokens text log)).1 ++
        bare (Reading.run behind text' (.empty file)).1.decls ∧
      (Reading.run tokens text log).2.log.told = v.log.told := by
  let start : State := .start tokens text log
  have closed : v.isClosed := by
    have row : start.Reaches (decl.run u).2 := one ▸ (decl.reaches start).trans (decl.reaches _)
    rw [none] at row
    exact row.isClosed ends
  obtain ⟨x, y, later, is⟩ : ∃ x y later, tokens.terminals = x :: y :: later := by
    match is : tokens.terminals with
    | x :: y :: later => exact ⟨x, y, later, rfl⟩
    | [_] | [] => simp [is] at enough
  have someStart : start.cursor.ahead ≠ [] := by
    show tokens.terminals ≠ []
    simp [is]
  have onward : (rounds more addDecl tokens.terminals []).run start =
      (rounds more addDecl later [[], (decl.run start).1]).run v := by
    rw [is, roundsCons someStart, one, roundsCons some, none]
  rw [is, List.length_cons, List.length_cons] at enough
  obtain ⟨decls, told⟩ := Reading.runBehind [[], (decl.run start).1] ends' closed ahead
    (Nat.le_of_succ_le_succ (Nat.le_of_succ_le_succ enough)) unmarked
  rw [Reading.declsOfRun, Reading.logOfRun, onward, decls, told]
  simp [start]

theorem errorFreeBegins {file : String} {text : List Char} (errorFree : (Reading.ofText file text).2.errorCount = 0) :
    declSync.contains (headKind (words text)) = true := by
  have unmarked := (Reading.runOfWords (scan text) errorFree rfl (Token.scanWords text)).1
  have sound : (scan text).faulty = [] := (cleanOfErrorFree (Grammar.program.reaches _) errorFree).1
  have closed : (State.start (scan text) text (.empty file)).isClosed := rfl
  have listed : (State.start (scan text) text (.empty file)).words = words text := by
    show (scan text).terminals.map Token.word = _
    rw [terminalsOfClean sound, Token.scanWords]
  rw [← State.kindOfWords closed listed]
  exact cleanBegins rfl unmarked

theorem skipsOperand {s : State} {e d : List Char} {x : Expr} {w closing : Word} (closed : s.isClosed)
    (ahead : s.words = w :: (words e ++ closing :: words d)) (noDecl : declSync.contains w.kind = false)
    (operand : IsOperand e [] x) (noVariables : ∀ w ∈ words e, w.kind ≠ .kwVar)
    (closes : closing.kind = .semicolon) (begins : declSync.contains (headKind (words d)) = true) :
    (s.synchronize declSync).words = words d := by
  refine synchronizeBehind (w :: (words e ++ [closing])) closed ?_ ?_ begins
  · rw [ahead, List.cons_append, List.append_assoc]
    rfl
  · intro u listed
    simp only [List.mem_cons, List.mem_append, List.not_mem_nil, or_false] at listed
    rcases listed with rfl | inner | rfl
    · exact noDecl
    · exact notSyncing (operand.noClosing u inner) (wordsInner u inner) (noVariables u inner)
    · rw [closes]
      decide

end Grammar

/-- Where two relational operators chain their operands in an axiom, the missing semicolon is reported and
nothing else; the axiom relates the first two operands, and the declarations behind it are read as they are
read alone. -/
theorem chainCostsOneError {file source : String} {defines : List String} {e₁ e₂ e₃ d : List Char}
    {x₁ x₂ x₃ : Expr} {o₁ o₂ : BinaryOp} {opening closing op₁ op₂ : Token} (opens : opening.kind = .kwAxiom)
    (closes : closing.kind = .semicolon) (compares : relationalOp op₁.kind = some o₁)
    (again : relationalOp op₂.kind = some o₂)
    (text : words (Reading.selected source defines).text =
      opening.word :: (words e₁ ++ op₁.word :: (words e₂ ++ op₂.word :: (words e₃ ++ closing.word :: words d))))
    (first : IsOperand e₁ [op₁] x₁) (second : IsOperand e₂ [op₂] x₂) (third : IsOperand e₃ [] x₃)
    (noVariables : ∀ w ∈ words e₃, w.kind ≠ .kwVar) (errorFree : (Reading.ofText file d).2.errorCount = 0) :
    (Reading.ofSource file source defines).log.errors.map (fun e => (e.concern, e.message)) =
        [(.syntactic, "\";\" expected")] ∧
      bare (Reading.parsed file source defines).1.decls =
        axiomTree (binaryTree o₁ x₁ x₂) :: bare (Reading.ofText file d).1.decls := by
  let tokens := Reading.tokens source defines
  let log := Reading.lexicalLog file source defines
  let start : State := .start tokens (Reading.selected source defines).text log
  have relational {op : Token} {o : BinaryOp} (h : relationalOp op.kind = some o) :
      op.kind.isTerminal = true ∧ op.kind ≠ .semicolon ∧ declSync.contains op.kind = false := by
    cases kind : op.kind <;> simp [kind, relationalOp] at h <;> decide
  obtain ⟨real₁, _, _⟩ := relational compares
  obtain ⟨real₂, noSemicolon, noDecl⟩ := relational again
  have soundD : (scan d).faulty = [] := (cleanOfErrorFree (Grammar.program.reaches _) errorFree).1
  -- nothing is wrong with the words, so all of them are read
  have sound : tokens.faulty = [] := by
    refine cleanOfSound fun w listed => ?_
    rw [text] at listed
    simp only [List.mem_cons, List.mem_append] at listed
    rcases listed with rfl | inFirst | rfl | inSecond | rfl | inThird | rfl | inRest
    · simp [Token.word, opens]
    · exact soundWords first.clean.1 w inFirst
    · simpa [Token.word, Kind.isTerminal] using real₁
    · exact soundWords second.clean.1 w inSecond
    · simpa [Token.word, Kind.isTerminal] using real₂
    · exact soundWords third.clean.1 w inThird
    · simp [Token.word, closes]
    · exact soundWords soundD w inRest
  have terminals : tokens.terminals = tokens.body := terminalsOfClean sound
  have ahead : start.words = opening.word :: ((words e₁ ++ op₁.word :: words e₂) ++
      op₂.word :: (words e₃ ++ closing.word :: words d)) := by
    show tokens.terminals.map Token.word = _
    rw [terminals, show tokens = scan _ from rfl, Token.scanWords, text, List.append_assoc]
    rfl
  have closed : start.isClosed := rfl
  have noBrace : headKind ((words e₁ ++ op₁.word :: words e₂) ++ op₂.word :: (words e₃ ++ closing.word :: words d)) ≠
      .leftBrace := by
    rw [List.append_assoc]
    exact first.noBrace real₁ _
  obtain ⟨t, row, clean, aheadT, found, cut⟩ := runCutAxiom closed opens ahead
    (readsRelation compares again (first.reads real₁ _) (second.reads real₂ _)) noBrace noSemicolon
  -- the semicolon is missed, where the gate is open; then the rest is skipped, where it is closed
  let u := t.syntaxError (.expected .semicolon)
  let v := (u.syntaxError (.invalid "Declaration")).synchronize declSync
  have closedT : t.isClosed := row.isClosed closed
  have told : v.log.told = log.told ++ [(.error, .syntactic, "\";\" expected")] :=
    toldWhenOpen row clean (.expected .semicolon)
  have kindU : u.kind = op₂.kind := State.kindOfWords (s := u) closedT aheadT
  have skipped : decl.run u = ([], v) := runNoDecl (kindU ▸ noDecl)
  have aheadV : v.words = words d := skipsOperand closedT aheadT noDecl third noVariables closes
    (errorFreeBegins errorFree)
  let behind : TokenList := ⟨v.cursor.ahead, tokens.finish⟩
  obtain ⟨unmarked, same⟩ := Reading.runOfWords behind errorFree rfl aheadV
  have all : behind.terminals = v.cursor.ahead := by
    refine List.filter_eq_self.mpr fun x mem => ?_
    have row : start.Reaches v := (row.step (.syntaxError _ _)).trans (skipped ▸ decl.reaches u)
    exact (List.mem_filter.mp (row.aheadSuffix.subset mem)).2
  have enough : behind.terminals.length + 2 ≤ tokens.terminals.length := by
    have lengths := congrArg List.length ahead
    have lengthsV := congrArg List.length aheadV
    simp only [State.words, List.length_map, List.length_cons, List.length_append] at lengths lengthsV
    rw [all, lengthsV]
    show _ ≤ start.cursor.ahead.length
    omega
  have someU : u.cursor.ahead ≠ [] := by
    intro none
    have words : u.words = [] := by rw [State.words, none]; rfl
    exact List.cons_ne_nil _ _ (aheadT.symm.trans words)
  obtain ⟨decls, last⟩ := @runOneAndNone tokens behind _ d log file u v rfl rfl cut skipped someU all.symm enough unmarked
  obtain ⟨counted, count⟩ := parsedCounted file source defines
  have noErrors : log.errors = [] := by
    rw [sound] at count
    exact List.length_eq_zero_iff.mp (counted.symm.trans count)
  have logged : (Reading.ofSource file source defines).log.told = v.log.told := last
  refine ⟨?_, ?_⟩
  · rw [Reading.errorsTold, logged, told, List.filter_append, List.map_append, ← Reading.errorsTold, noErrors]
    rfl
  · show bare (Reading.run tokens _ _).1.decls = _
    rw [decls, found, same]
    rfl

theorem chainOfNames :
    let name (c : Char) : Expr := .name .nowhere (String.singleton c)
    let source := "axiom a < b <= c; type T;"
    (Reading.ofSource "" source []).log.errors.map (fun e => (e.concern, e.message)) =
        [(.syntactic, "\";\" expected")] ∧
      bare (Reading.parsed "" source []).1.decls =
        axiomTree (binaryTree .less (name 'a') (name 'b')) ::
          bare (Reading.ofText "" "type T;".toList).1.decls := by
  have operand (c : Char) (behind : List Token) (written : words [c] = [⟨.identifier, [c]⟩])
      (clean : (scan [c]).faulty = []) (named : Reads.nameOf [c] = String.singleton c)
      (real : ∀ t ∈ behind, t.kind.isTerminal = true) (weak : strength (headKind (behind.map Token.word)) < 5) :
      IsOperand [c] behind (.name .nowhere (String.singleton c)) := by
    have derived : Derives .none (.expr .concatenation) (words [c]) (.name .nowhere (String.singleton c)) := by
      rw [written, ← named]
      exact .ofAtom .name .concatenation
    exact .ofReads clean real (derived.accepted Extras.noneAccepted _ weak)
  exact @chainCostsOneError "" "axiom a < b <= c; type T;" [] ['a'] ['b'] ['c'] "type T;".toList _ _ _ _ _
    (.sample .kwAxiom) (.sample .semicolon) (.sample .less) (.sample .atMost) rfl rfl rfl rfl (by decide +kernel)
    (operand 'a' _ (by decide +kernel) (by decide +kernel) (by decide +kernel) (by decide) (by decide))
    (operand 'b' _ (by decide +kernel) (by decide +kernel) (by decide +kernel) (by decide) (by decide))
    (operand 'c' _ (by decide +kernel) (by decide +kernel) (by decide +kernel) (by decide) (by decide))
    (by decide +kernel) (by decide +kernel)

/-- Each of the three texts is an operand by itself, and an axiom chains them with equalities. -/
def ChainsOperands (source first second third : String) : Prop :=
  (∃ x, IsOperand first.toList [] x) ∧ (∃ x, IsOperand second.toList [] x) ∧ (∃ x, IsOperand third.toList [] x) ∧
    words (Reading.selected source []).text = (Token.sample .kwAxiom).word ::
      (words first.toList ++ (Token.sample .equal).word ::
        (words second.toList ++ (Token.sample .equal).word ::
          (words third.toList ++ (Token.sample .semicolon).word :: words [])))

/-- The last branch of a conditional is a whole expression, so it takes the first operator, and a chain with a
conditional in front is none. A variable of a code expression begins a declaration when it is skipped, and behind it
there is another error. -/
theorem elseTakesTheOperator :
    (Reading.ofText "" []).2.errorCount = 0 ∧
      (let source := "axiom if a then b else c == d == e;";
        ChainsOperands source "if a then b else c" "d" "e" ∧ (Reading.ofSource "" source []).errorCount = 0) ∧
      let source := "axiom a == b == |\x7b var x: int; A: return true; \x7d|;"
      ChainsOperands source "a" "b" "|\x7b var x: int; A: return true; \x7d|" ∧
        (Reading.ofSource "" source []).errorCount = 2 := by
  refine ⟨?_, ⟨⟨IsOperand.found ?_ ?_ ?_, IsOperand.found ?_ ?_ ?_, IsOperand.found ?_ ?_ ?_, ?_⟩, ?_⟩,
    ⟨IsOperand.found ?_ ?_ ?_, IsOperand.found ?_ ?_ ?_, IsOperand.found ?_ ?_ ?_, ?_⟩, ?_⟩ <;> decide +kernel

end Boogie
