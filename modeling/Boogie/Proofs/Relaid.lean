import Boogie.Proofs.Recovery
import Boogie.Proofs.Token.Lossless
import Boogie.Proofs.Token.Relaid

/-! Layout and spelling do not matter. No production looks at a span, or at the text of a terminal that has
but one meaning, so a text laid out anew is read as before; and faulty pieces of text are not read at all. -/
namespace Boogie

open Token (Kind Word SameWord Relaid scan scanErrors cut words)

def SameWords : List Token → List Token → Prop :=
  List.Forall₂ fun t t' => SameWord (Token.word t) (Token.word t')

namespace Grammar

structure Rereads (s s' : State) : Prop where
  closed : s.isClosed
  closed' : s'.isClosed
  ahead : SameWords s.cursor.ahead s'.cursor.ahead
  distance : s'.cursor.distance = s.cursor.distance
  told : s'.log.told = s.log.told

namespace Rereads

variable {s s' : State}

theorem leftEq (h : Rereads s s') : s'.left = s.left := h.ahead.length_eq.symm

theorem atTokens (h : Rereads s s') : (s.cursor.ahead = [] ∧ s'.cursor.ahead = []) ∨
    ∃ t rest t' rest', s.cursor.ahead = t :: rest ∧ s'.cursor.ahead = t' :: rest' ∧
      SameWord (Token.word t) (Token.word t') ∧ SameWords rest rest' := by
  have ahead := h.ahead
  cases tokens : s.cursor.ahead with
  | nil =>
    rw [tokens] at ahead
    exact .inl ⟨rfl, List.forall₂_nil_left_iff.mp ahead⟩
  | cons t rest =>
    rw [tokens] at ahead
    obtain ⟨t', rest', same, more, tokens'⟩ := List.forall₂_cons_left_iff.mp ahead
    exact .inr ⟨t, rest, t', rest', rfl, tokens', same, more⟩

theorem kindEq (h : Rereads s s') : s'.kind = s.kind := by
  rcases h.atTokens with ⟨none, none'⟩ | ⟨t, rest, t', rest', tokens, tokens', same, _⟩
  · rw [State.kindOfNil h.closed none, State.kindOfNil h.closed' none']
  · rw [State.kind, State.kind, Cursor.currentOfCons tokens, Cursor.currentOfCons tokens']
    exact same.kind

end Rereads

def rereads : Simulation where
  rel := Rereads
  closed h := h.closed
  fewer h := Nat.le_of_eq h.leftEq.symm
  kind h := .inl h.kindEq
  text h more spelled := by
    rcases h.atTokens with ⟨none, _⟩ | ⟨t, rest, t', rest', tokens, tokens', same, _⟩
    · exact absurd (State.kindOfNil h.closed none) more
    · rw [State.kind, Cursor.currentOfCons tokens] at spelled
      rw [Cursor.currentOfCons tokens, Cursor.currentOfCons tokens']
      exact (String.toList_inj.mp (same.text spelled)).symm
  advance h more _ := by
    rcases h.atTokens with ⟨none, _⟩ | ⟨t, rest, t', rest', tokens, tokens', _, later⟩
    · exact absurd (State.kindOfNil h.closed none) more
    · refine .inl ⟨h.closed, h.closed', ?_, congrArg (· + 1) h.distance, h.told⟩
      simpa [State.advance, tokens, tokens'] using later
  syntaxError h e := by
    refine ⟨h.closed, h.closed', h.ahead, rfl, toldTogether h.distance h.told ?_⟩
    simp [Log.syntaxError, h.told]
  broken h rule := by
    refine ⟨h.closed, h.closed', h.ahead, rfl, toldTogether h.distance h.told ?_⟩
    simp [Log.semanticError, h.told]
  brokenAt h span span' rule := by
    refine ⟨h.closed, h.closed', h.ahead, h.distance, ?_⟩
    simp [State.brokenAt, Log.semanticError, h.told]

theorem rereadsToEnd (tokens tokens' : List Token) {s s' : State} (row : Rereads s s')
    (inner : ∀ t ∈ s.cursor.ahead, t.kind ≠ .endOfText) (enough : s.left ≤ tokens.length)
    (enough' : s.left ≤ tokens'.length) {acc acc' : List (List Decl)} (same : Alike acc acc') :
    Alike ((rounds more addDecl tokens acc).run s).1 ((rounds more addDecl tokens' acc').run s').1 ∧
      Rereads ((rounds more addDecl tokens acc).run s).2 ((rounds more addDecl tokens' acc').run s').2 := by
  induction tokens generalizing tokens' s s' acc acc' with
  | nil =>
    have none : s.cursor.ahead = [] := List.length_eq_zero_iff.mp (Nat.le_zero.mp enough)
    have none' : s'.cursor.ahead = [] := List.forall₂_nil_left_iff.mp (none ▸ row.ahead)
    rw [roundsDone none']
    exact ⟨same, row⟩
  | cons u tokens ih =>
    rcases row.atTokens with ⟨none, none'⟩ | ⟨t, rest, t', rest', next, next', _, _⟩
    · rw [roundsDone none, roundsDone none']
      exact ⟨same, row⟩
    · cases tokens' with
      | nil => simp [State.left, next] at enough'
      | cons u' tokens' =>
        have real : s.kind ≠ .endOfText := by
          rw [State.kind, Cursor.currentOfCons next]
          exact inner t (by simp [next])
        have alike : Simulates rereads (s.left + 1) (· ≠ .endOfText) Alike decl decl :=
          alikeDecl fun _ h => h
        obtain ⟨found, after⟩ := alike s s' row (Nat.lt_succ_self _) real trivial
        have less := Progresses.decl s row.closed real
        simp only [List.length_cons] at enough enough'
        rw [roundsCons (by simp [next]), roundsCons (by simp [next'])]
        exact ih tokens' after (fun t mem => inner t ((decl.reaches s).aheadSuffix.subset mem)) (by omega)
          (by omega) (found.cons same)

end Grammar

open Grammar

/-- The token list of `ts'` is that of `ts` with faulty pieces strewn in. -/
inductive Strewn : List Token → List Token → Prop where
  | nil : Strewn [] []
  | keep {ts ts'} (t : Token) (more : Strewn ts ts') : Strewn (t :: ts) (t :: ts')
  | fault {ts ts' t} (faulty : t.kind = .invalid) (more : Strewn ts ts') : Strewn ts (t :: ts')

theorem strewnTerminals {ts ts' : List Token} (h : Strewn ts ts') (finish : Token) :
    (TokenList.mk ts' finish).terminals = (TokenList.mk ts finish).terminals := by
  simp only [TokenList.terminals]
  induction h with
  | nil => rfl
  | keep t more ih => rw [List.filter_cons, List.filter_cons, ih]
  | fault faulty more ih => rw [List.filter_cons_of_neg (by simp [faulty, Kind.isTerminal]), ih]

namespace Reading

/-- Reads a text as it stands, without a selection of its lines. -/
def ofText (file : String) (text : List Char) : Program × Log :=
  ofTokens (scan text) text (logFaults (.empty file) (scanErrors text))

/-- The same program up to spans, and the same reports but for their places. -/
structure SameOutcome (r r' : Program × Log) : Prop where
  program : bare r'.1 = bare r.1
  told : r'.2.told = r.2.told
  errorCount : r'.2.errorCount = r.2.errorCount

theorem logFaultsNone {log : Log} {text : List Char} (clean : (scan text).faulty = []) :
    logFaults log (scanErrors text) = log := by rw [Token.scanErrorsFaulty, clean, List.map_nil, logFaults, List.foldl_nil]

theorem errorCountOfTold {log log' : Log} (counted : log.isCounted) (counted' : log'.isCounted)
    (same : log'.told = log.told) : log'.errorCount = log.errorCount := by
  have countTold (log : Log) : log.errors.length = (log.told.filter fun d => d.1 == .error).length := by
    rw [Log.errors, Log.told, List.filter_map, List.length_map]
    congr 2
  rw [counted, counted', countTold, countTold, same]

theorem ofTokensSame {tokens tokens' : TokenList} (ends : tokens.finish.kind = .endOfText)
    (ends' : tokens'.finish.kind = .endOfText) (inner : ∀ t ∈ tokens.terminals, t.kind ≠ .endOfText)
    (same : SameWords tokens.terminals tokens'.terminals) (text text' : List Char) {log : Log}
    (counted : log.isCounted) : SameOutcome (ofTokens tokens text log) (ofTokens tokens' text' log) := by
  have row : Rereads (.start tokens text log) (.start tokens' text' log) := ⟨ends, ends', same, rfl, rfl⟩
  obtain ⟨found, after⟩ := rereadsToEnd tokens.terminals tokens'.terminals row inner (Nat.le_refl _)
    (Nat.le_of_eq row.ahead.length_eq) (Alike.nil (α := List Decl))
  have gated (tokens : TokenList) (text : List Char) : (ofTokens tokens text log).2.isCounted :=
    (State.gatedReached (Grammar.program.reaches (.start tokens text log)) (State.gatedStart counted)).counted
  refine ⟨?_, after.told, errorCountOfTold (gated tokens text) (gated tokens' text') after.told⟩
  exact congrArg Program.mk (Alike.flatten found.reverse).symm

end Reading

theorem terminalsOfClean {tokens : TokenList} (clean : tokens.faulty = []) : tokens.terminals = tokens.body := by
  refine List.filter_eq_self.mpr fun t mem => ?_
  have := List.filter_eq_nil_iff.mp clean t mem
  simpa using this

theorem soundWords {text : List Char} (clean : (scan text).faulty = []) :
    ∀ w ∈ words text, w.kind ≠ .invalid := by
  intro w mem
  rw [← Token.scanWords] at mem
  obtain ⟨t, listed, rfl⟩ := List.mem_map.mp mem
  have terminal := List.filter_eq_nil_iff.mp clean t listed
  intro invalid
  exact terminal (by rw [show t.kind = .invalid from invalid]; rfl)

theorem sameTerminals {text text' : List Char} (same : words text' = words text) :
    SameWords (scan text).terminals (scan text').terminals := by
  have ofWords (text : List Char) :
      (scan text).terminals.map Token.word = (words text).filter fun w => w.kind.isTerminal := by
    rw [← Token.scanWords, List.filter_map]
    rfl
  refine List.forall₂_map_left_iff.mp (List.forall₂_map_right_iff.mp ?_)
  rw [ofWords, ofWords, same]
  exact List.forall₂_same.mpr fun _ _ => ⟨rfl, fun _ => rfl⟩

theorem scanRelaid {text text' : List Char} (clean : (scan text).faulty = [])
    (relaid : Relaid (cut text).rows (cut text).last text') :
    SameWords (scan text).body (scan text').body := by
  have cuts := Token.cutsCut text
  have sound : ∀ row ∈ (cut text).rows, row.word.kind ≠ .invalid := by
    intro row mem
    refine soundWords clean row.word ?_
    rw [Token.wordsCuts cuts]
    exact List.mem_map_of_mem mem
  have same := Token.wordsRelaid cuts sound relaid
  rw [← Token.wordsCuts cuts, ← Token.scanWords, ← Token.scanWords] at same
  exact List.forall₂_map_right_iff.mp (List.forall₂_map_left_iff.mp same)

theorem kindsOfSame {ts ts' : List Token} (same : SameWords ts ts') :
    ts'.map Token.kind = ts.map Token.kind := by
  induction same with
  | nil => rfl
  | cons one more ih => exact congrArg₂ List.cons one.kind ih

theorem cleanOfSame {tokens tokens' : TokenList} (clean : tokens.faulty = [])
    (same : SameWords tokens.body tokens'.body) : tokens'.faulty = [] := by
  refine List.filter_eq_nil_iff.mpr fun t' mem' => ?_
  have kinds : t'.kind ∈ tokens.body.map Token.kind := kindsOfSame same ▸ List.mem_map_of_mem mem'
  obtain ⟨t, mem, kind⟩ := List.mem_map.mp kinds
  rw [← kind]
  exact List.filter_eq_nil_iff.mp clean t mem

theorem scanInner {text : List Char} {t : Token} (mem : t ∈ (scan text).body) : t.kind ≠ .endOfText := by
  obtain ⟨c, rest, _, role, _⟩ := Token.scanCut mem
  rintro ended
  rw [show (Token.word t).kind = .endOfText from ended] at role
  exact Token.lexemeReal c rest role

/-- What is read goes by the words. -/
theorem Reading.outcomeOfWords {text text' : List Char} (same : words text' = words text) (file : String) :
    SameOutcome (ofTokens (scan text) text (.empty file)) (ofTokens (scan text') text' (.empty file)) :=
  ofTokensSame rfl rfl (fun _ mem => scanInner (List.mem_of_mem_filter mem)) (sameTerminals same) text text'
    (Log.countedEmpty file)

/-- Neither other layout between the words of a text nor other spellings of its operators change what is read
or what is reported; nor do faulty pieces strewn over a token list. -/
theorem layoutAndSpellingChangeNothing :
    (∀ (file : String) (text text' : List Char), (scan text).faulty = [] →
      Relaid (cut text).rows (cut text).last text' →
        Reading.SameOutcome (Reading.ofText file text) (Reading.ofText file text')) ∧
    ∀ (ts ts' : List Token) (finish : Token) (text : List Char) (log : Log), Strewn ts ts' →
      Reading.run ⟨ts', finish⟩ text log = Reading.run ⟨ts, finish⟩ text log := by
  refine ⟨fun file text text' clean relaid => ?_, fun ts ts' finish text log strewn => ?_⟩
  · have same := scanRelaid clean relaid
    have clean' := cleanOfSame clean same
    rw [Reading.ofText, Reading.ofText, Reading.logFaultsNone clean, Reading.logFaultsNone clean']
    refine Reading.ofTokensSame rfl rfl ?_ ?_ text text' (Log.countedEmpty file)
    · exact fun t mem => scanInner (List.mem_of_mem_filter mem)
    · rwa [terminalsOfClean clean, terminalsOfClean clean']
  · have same := strewnTerminals strewn finish
    have cursors : Cursor.ofTokens ⟨ts', finish⟩ = .ofTokens ⟨ts, finish⟩ := by
      rw [Cursor.ofTokens, Cursor.ofTokens, same]
    rw [Reading.run, Reading.run, State.start, State.start, cursors]

theorem arrowLaidAnew :
    let text := ['a', ' ', '⇒', ' ', 'b']
    let text' := ['a', ' ', '/', '/', '\n', '=', '=', '>', ' ', 'b']
    let tokens : List Token := [.sample .kwAxiom, .sample .kwTrue]
    (scan text).faulty = [] ∧ Relaid (cut text).rows (cut text).last text' ∧
      Reading.SameOutcome (Reading.ofText "" text) (Reading.ofText "" text') ∧
      Reading.run ⟨.sample .invalid :: tokens, .sample .endOfText⟩ [] (.empty "") =
        Reading.run ⟨tokens, .sample .endOfText⟩ [] (.empty "") := by
  have clean : (scan ['a', ' ', '⇒', ' ', 'b']).faulty = [] := by decide +kernel
  have rows : cut ['a', ' ', '⇒', ' ', 'b'] = ⟨[⟨[], ⟨.identifier, ['a']⟩⟩, ⟨[' '], ⟨.implies, ['⇒']⟩⟩,
    ⟨[' '], ⟨.identifier, ['b']⟩⟩], []⟩ := by decide +kernel
  have last : Relaid [⟨[' '], ⟨.identifier, ['b']⟩⟩] [] [' ', 'b'] := .keep .same (.done .same)
  have comment : Token.IsLayout [' ', '/', '/', '\n'] := .space rfl (@Token.IsLayout.line [] [] nofun .nil)
  have arrow : Relaid [⟨[' '], ⟨.implies, ['⇒']⟩⟩, ⟨[' '], ⟨.identifier, ['b']⟩⟩] []
      [' ', '/', '/', '\n', '=', '=', '>', ' ', 'b'] :=
    @Relaid.respell [' '] [' ', '/', '/', '\n'] ⟨.implies, ['⇒']⟩ _ _ _ [] ['=', '=', '>'] []
      (.other rfl comment) (show _ ∈ _ by decide) nofun ⟨[' ', '/', '/'], '\n', rfl, rfl⟩ rfl last
  have relaid : Relaid (cut ['a', ' ', '⇒', ' ', 'b']).rows (cut ['a', ' ', '⇒', ' ', 'b']).last
      ['a', ' ', '/', '/', '\n', '=', '=', '>', ' ', 'b'] := by
    rw [rows]
    exact .keep .same arrow
  have facts := layoutAndSpellingChangeNothing
  exact ⟨clean, relaid, facts.1 "" _ _ clean relaid, facts.2 _ _ _ [] _ (.fault rfl (.keep _ (.keep _ .nil)))⟩

end Boogie
