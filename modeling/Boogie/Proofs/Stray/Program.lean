import Boogie.Proofs.Located
import Boogie.Proofs.Stray.Lists

/-! Statement recovery is local. What begins no item of a statement list is skipped up to the next semicolon and
reported once; the block that is open stays open, and all that was read and will be read stays as it is. -/
namespace Boogie

open Token (Kind Word scan words)

namespace Grammar

variable {pt : Point} {n : Nat} {sort : Kind → Prop}

def bodyLists (body : Option (List Variable × StmtList)) : List StmtList := (body.map fun b => b.2.lists).getD []

theorem absorbsAdvance {α : Type} {W : α → α → Prop} {Q : α → Prop} {f f' : Token → Production α}
    (plain : ∀ k, sort k → isPlain k = true) (rest : ∀ t t', Absorbs pt 1 n anywhere Q W (f t) (f' t')) :
    Absorbs pt 1 n sort Q W (advance >>= f) (advance >>= f') := by
  have word (p : Insertion) : Simulates (before p) n sort (fun _ _ => True) advance advance :=
    fun s s' row left first inside => ⟨trivial, (Simulates.advance plain s s' row left first inside).2⟩
  exact .front (fun _ => trivial) word fun t t' _ => rest t t'

theorem absorbsBody : Absorbs pt 1 n sort (fun b => pt.start ∈ startsOf b.2.lists) Alike implementationBody
    implementationBody := by
  refine .expect (by decide) (.near (V := Alike) (fun _ => rfl) (fun p => nearsLocalVariables) fun l l' ofL => ?_)
  exact .last mendsStmtList.absorbs (fun log b b' ofB => .pure (Prod.ext ofL ofB)) fun b s inside => inside

theorem absorbsContract : Absorbs pt 1 n sort (fun c => pt.start ∈ startsOf (bodyLists c.2)) Alike contractAndBody
    contractAndBody := by
  refine .ifEats (by decide) (.never fun s => nofun) (.ifNext ?_ (.fault (.syntaxError _)))
  refine .front (V := Alike) (fun _ => rfl) (fun p => alikeSpecs) fun specs specs' ofSpecs => ?_
  refine .last absorbsBody (fun log b b' ofB => .pure (Prod.ext ofSpecs ?_)) fun b s inside => inside
  exact congrArg some ofB

theorem absorbsProcedure (plain : ∀ k, sort k → isPlain k = true) :
    Absorbs pt 1 n sort (fun ds => pt.start ∈ startsOf (ds.flatMap Decl.lists)) Alike procedure procedure := by
  refine absorbsAdvance plain fun t t' => ?_
  refine .front (V := Alike) (fun _ => rfl) (fun p => alikeSignature) fun sig sig' ofSig => ?_
  refine .last absorbsContract ?_ ?_
  · rintro log ⟨contract, body⟩ ⟨contract', body'⟩ same
    obtain ⟨ofContract, ofBody⟩ := same.pair
    exact .bind .spanFrom fun _ _ _ => .pure (alikeProcedureDecls (c := none) ofSig ofContract ofBody)
  · rintro ⟨contract, _ | body⟩ s inside
    · exact inside
    · simpa [procedureDecls, Decl.lists, bodyLists] using inside

theorem absorbsImplementation (plain : ∀ k, sort k → isPlain k = true) :
    Absorbs pt 1 n sort (fun ds => pt.start ∈ startsOf (ds.flatMap Decl.lists)) Alike implementation
      implementation := by
  refine absorbsAdvance plain fun t t' => ?_
  refine .front (V := Alike) (fun _ => rfl) (fun p => alikeSignature) fun sig sig' ofSig => ?_
  refine .last absorbsBody ?_ ?_
  · rintro log ⟨locals, stmts⟩ ⟨locals', stmts'⟩ same
    obtain ⟨ofLocals, ofStmts⟩ := same.pair
    obtain ⟨_, _, _, _, _⟩ := sig
    obtain ⟨_, _, _, _, _⟩ := sig'
    refine .bind .spanFrom fun _ _ _ => .pure ?_
    simp_all [Alike, bare]
  · rintro ⟨locals, stmts⟩ s inside
    simpa [Decl.lists] using inside

theorem absorbsDecl : Absorbs pt 1 n (· ≠ .endOfText) (fun ds => pt.start ∈ startsOf (ds.flatMap Decl.lists)) Alike
    decl decl := by
  have unlisted {m m' : Production (List Decl)} {k : Kind} (none : ∀ s, Gives s NoLists m) :
      Absorbs pt 1 n (· = k) (fun ds => pt.start ∈ startsOf (ds.flatMap Decl.lists)) Alike m m' := by
    refine .never fun s inside => ?_
    rw [List.flatMap_eq_nil_iff.mpr (none s s .refl)] at inside
    exact absurd inside nofun
  refine .byKind fun k _ => ?_
  split
  · exact unlisted fun _ => givesConstants
  · exact unlisted fun _ => givesFunction
  · exact unlisted fun _ => givesAxiomDecl
  · exact unlisted fun _ => givesTypeDecls
  · exact unlisted fun _ => givesGlobals
  · exact absorbsProcedure (by rintro _ rfl; decide)
  · exact absorbsImplementation (by rintro _ rfl; decide)
  · exact .fault (.syntaxError _)

theorem resumedDecls {log : Log} (tokens tokens' : List Token) {s s' : State} (row : Resumed log s s')
    (enough : s.left ≤ tokens.length) (enough' : s'.left ≤ tokens'.length) {acc acc' : List (List Decl)}
    (same : Alike acc acc') (clean : ((rounds more addDecl tokens acc).run s).2.mistakes = 0) :
    Alike ((rounds more addDecl tokens acc).run s).1 ((rounds more addDecl tokens' acc').run s').1 ∧
      ((rounds more addDecl tokens' acc').run s').2.log = log := by
  obtain ⟨found, after⟩ := declsTogether (S := resumed log) Resumed.leftEq tokens tokens' row enough
    (row.leftEq ▸ enough') same clean trivial
  exact ⟨found, after.silent clean⟩

theorem absorbsDecls (tokens : List Token) {s : State} (placed : Placed pt s) (enough : s.left ≤ tokens.length)
    {acc : List (List Decl)} (clean : ((rounds more addDecl tokens acc).run s).2.mistakes = 0)
    (mem : ∃ ds ∈ ((rounds more addDecl tokens acc).run s).1, pt.start ∈ startsOf (ds.flatMap Decl.lists))
    (fresh : ∀ ds ∈ acc, pt.start ∉ startsOf (ds.flatMap Decl.lists)) :
    pt.total < pt.place + s.left ∧ ∀ (p : Insertion) (s' : State) (tokens' : List Token) (acc' : List (List Decl)),
      pt.total = pt.place + p.behind.length → Before p s s' → s'.left ≤ tokens'.length → Alike acc acc' →
      Alike ((rounds more addDecl tokens acc).run s).1 ((rounds more addDecl tokens' acc').run s').1 ∧
        ((rounds more addDecl tokens' acc').run s').2.log = p.reported := by
  induction tokens generalizing s acc with
  | nil =>
    obtain ⟨ds, listed, inside⟩ := mem
    exact absurd inside (fresh ds listed)
  | cons u tokens ih =>
    by_cases some : s.cursor.ahead = []
    · rw [roundsDone some] at mem
      obtain ⟨ds, listed, inside⟩ := mem
      exact absurd inside (fresh ds listed)
    · rw [roundsCons some] at clean mem
      have real := realOfClean clean
      have cleanDecl := unmarkedBefore clean
      have less := Progresses.decl s placed.closed real
      simp only [List.length_cons] at enough
      have once {p : Insertion} {s' : State} {tokens' : List Token} (row : Before p s s')
          (early : p.behind.length < s.left) (enough' : s'.left ≤ tokens'.length) (found : List (List Decl)) :
          ∃ rest, (decl.run s').2.left ≤ rest.length ∧ (rounds more addDecl tokens' found).run s' =
            (rounds more addDecl rest ((decl.run s').1 :: found)).run (decl.run s').2 := by
        have less' := Progresses.decl s' row.closed' (by rwa [row.kindEq early])
        cases tokens' with
        | nil => exact absurd less' (by simp only [List.length_nil] at enough'; omega)
        | cons u' rest =>
          have some' : s'.cursor.ahead ≠ [] := by
            intro none
            simp [State.left, none] at less'
          simp only [List.length_cons] at enough'
          exact ⟨rest, by omega, roundsCons some' _ _ _⟩
      by_cases here : pt.start ∈ startsOf ((decl.run s).1.flatMap Decl.lists)
      · obtain ⟨early, matched⟩ := absorbsDecl s placed (Nat.lt_succ_self _) real cleanDecl here
        refine ⟨early, fun p s' tokens' acc' same row enough' ofAcc => ?_⟩
        obtain ⟨found, after⟩ := matched p s' same row
        obtain ⟨rest, enough', same'⟩ := once row (by omega) enough' acc'
        rw [roundsCons some, same']
        exact resumedDecls tokens rest after (by omega) enough' (found.cons ofAcc) clean
      · obtain ⟨early, matched⟩ := ih (placed.reached (decl.reaches s)) (by omega) clean mem
          (List.forall_mem_cons.mpr ⟨here, fresh⟩)
        refine ⟨by omega, fun p s' tokens' acc' same row enough' ofAcc => ?_⟩
        have later : p.behind.length < (decl.run s).2.left := by omega
        have alike : Simulates (before p) (s.left + 1) (· ≠ .endOfText) Alike decl decl := alikeDecl fun _ h => h
        obtain ⟨found, after⟩ := alike s s' ⟨row, by omega⟩ (Nat.lt_succ_self _) real later
        obtain ⟨rest, enough', same'⟩ := once row (by omega) enough' acc'
        rw [roundsCons some, same']
        exact matched p _ rest _ same after.1 enough' (found.cons ofAcc)

end Grammar

open Grammar

def TokenList.starts (tokens : TokenList) : List Nat :=
  (tokens.terminals.map fun t => t.span.start) ++ [tokens.finish.span.start]

/-- Tokens that are the words, each of which begins behind where the one before it begins. -/
structure WordsApart (tokens : TokenList) (ws : List Word) : Prop where
  words : tokens.terminals.map Token.word = ws
  ends : tokens.finish.kind = .endOfText
  apart : tokens.starts.Pairwise (· < ·)

namespace WordsApart

variable {tokens : TokenList} {ws : List Word} {k : Nat}

def pointAt (h : WordsApart tokens ws) (within : k ≤ tokens.terminals.length) : Point where
  offset i := tokens.starts[i]?.getD 0
  total := tokens.terminals.length
  place := k
  apart i j less bound := by
    have length : tokens.starts.length = tokens.terminals.length + 1 := by simp [TokenList.starts]
    have inside : j < tokens.starts.length := by omega
    have inside' : i < tokens.starts.length := by omega
    simpa [inside, inside'] using List.pairwise_iff_getElem.mp h.apart i j inside' inside less
  within

theorem pointStart (h : WordsApart tokens ws) {t : Token} (listed : tokens.terminals[k]? = some t)
    (within : k ≤ tokens.terminals.length) : (h.pointAt within).start = t.span.start := by
  obtain ⟨inside, same⟩ := List.getElem?_eq_some_iff.mp listed
  show tokens.starts[k]?.getD 0 = _
  simp [TokenList.starts, List.getElem?_append_left, inside, same]

theorem placedAtStart (h : WordsApart tokens ws) (within : k ≤ tokens.terminals.length) (text : List Char)
    (log : Log) : Placed (h.pointAt within) (.start tokens text log) := by
  refine ⟨h.ends, ?_, ?_, Nat.le_refl _⟩
  · show tokens.terminals.map _ =
      (List.range' (tokens.terminals.length - tokens.terminals.length) tokens.terminals.length).map _
    refine List.ext_getElem (by simp) fun i inside _ => ?_
    have inside : i < tokens.terminals.length := by simpa using inside
    simp [pointAt, TokenList.starts, List.getElem?_append_left, inside]
  · show tokens.finish.span.start = tokens.starts[tokens.terminals.length]?.getD 0
    simp [TokenList.starts]

end WordsApart

theorem apartOfShort {text : List Char} (short : byteLength text < Text.wordCount 32)
    (clean : (scan text).faulty = []) : WordsApart (scan text) (words text) := by
  have ordered := (Token.scanSpread text).ordered
  have filled {t : Token} (mem : t ∈ (scan text).body) : t.span.start < t.span.stop ∧ t.span.start < byteLength text := by
    obtain ⟨_, ⟨inside, _⟩, filled⟩ := Token.scanExtent mem
    rw [Text.wordCount32] at short
    exact ⟨filled (by simp only [Span.maxOffset]; omega), inside⟩
  rw [← terminalsOfClean clean] at filled ordered
  refine ⟨by rw [terminalsOfClean clean, Token.scanWords], rfl, ?_⟩
  rw [TokenList.starts, List.pairwise_append, List.pairwise_map]
  refine ⟨?_, List.pairwise_singleton _ _, ?_⟩
  · refine List.Pairwise.imp_of_mem (fun {t u} mem _ behind => ?_) ordered
    exact Nat.lt_of_lt_of_le (filled mem).1 behind
  · rintro _ listed _ last
    obtain ⟨t, mem, rfl⟩ := List.mem_map.mp listed
    rw [List.mem_singleton.mp last]
    have ends : (scan text).finish.span.start = min (byteLength text) Span.maxOffset := rfl
    rw [Text.wordCount32] at short
    rw [ends, Nat.min_eq_left (by simp only [Span.maxOffset]; omega)]
    exact (filled mem).2

/-- So many words stand in front of an item of a statement list, or of the brace at its end. -/
def IsPoint (p : Program) (tokens : TokenList) (k : Nat) : Prop :=
  ∃ t ∈ tokens.terminals[k]?, t.span.start ∈ startsOf p.stmtLists

instance (p : Program) (tokens : TokenList) (k : Nat) : Decidable (IsPoint p tokens k) :=
  decidable_of_iff ((tokens.terminals[k]?.any fun t => t.span.start ∈ startsOf p.stmtLists) = true) <| by
    simp [IsPoint, Option.any_eq_true]

namespace Reading

theorem runWithStray {tokens tokens' : TokenList} {ws : List Word} {text text' : List Char} {log : Log} {k : Nat}
    {front : List Token} (p : Insertion) (apart : WordsApart tokens ws) (unmarked : (run tokens text log).2.mistakes = 0)
    (point : IsPoint (run tokens text log).1 tokens k) (ends : tokens'.finish.kind = .endOfText)
    (ahead : tokens'.terminals = front ++ p.tokens) (before : front.map Token.word = ws.take k)
    (behind : p.behind = ws.drop k) :
    bare (run tokens' text' p.log).1 = bare (run tokens text log).1 ∧ (run tokens' text' p.log).2.log = p.reported := by
  obtain ⟨t, listed, start⟩ := point
  obtain ⟨inside, -⟩ := List.getElem?_eq_some_iff.mp listed
  have within := Nat.le_of_lt inside
  have length : tokens.terminals.length = ws.length := by rw [← apart.words, List.length_map]
  have row : Before p (.start tokens text log) (.start tokens' text' p.log) := by
    refine ⟨apart.ends, ends, ⟨front, ahead, ?_⟩, fun _ => ⟨rfl, rfl⟩⟩
    show tokens.terminals.map Token.word = _
    rw [apart.words, before, behind, List.take_append_drop]
  have mem : ∃ ds ∈ ((rounds more addDecl tokens.terminals []).run (.start tokens text log)).1,
      (apart.pointAt within).start ∈ startsOf (ds.flatMap Decl.lists) := by
    rw [← apart.pointStart listed within] at start
    obtain ⟨l, among, here⟩ := List.mem_flatMap.mp start
    obtain ⟨d, declared, inside⟩ := List.mem_flatMap.mp among
    obtain ⟨ds, read, listed⟩ := List.mem_flatten.mp declared
    exact ⟨ds, List.mem_reverse.mp read, List.mem_flatMap.mpr ⟨l, List.mem_flatMap.mpr ⟨d, listed, inside⟩, here⟩⟩
  obtain ⟨-, matched⟩ :=
    absorbsDecls tokens.terminals (apart.placedAtStart within text log) (Nat.le_refl _) unmarked mem nofun
  have total : tokens.terminals.length = k + p.behind.length := by
    rw [behind, List.length_drop]
    omega
  obtain ⟨decls, reported⟩ := matched p _ tokens'.terminals [] total row (Nat.le_refl _) rfl
  exact ⟨congrArg Program.mk (Alike.flatten decls.reverse).symm, reported⟩

/-- What is read of a source when its words are put at other places. -/
def placed (file source : String) (defines : List String) (tokens : TokenList) : Program × Grammar.State :=
  run tokens (selected source defines).text (lexicalLog file source defines)

theorem placedOwn (file source : String) (defines : List String) :
    placed file source defines (tokens source defines) = parsed file source defines := rfl

theorem placedSame {file source : String} {defines : List String} {p : Program} {tokens : TokenList}
    (found : p ∈ (ofSource file source defines).program)
    (apart : WordsApart tokens (words (selected source defines).text)) :
    bare (placed file source defines tokens).1 = bare p ∧ (placed file source defines tokens).2.mistakes = 0 := by
  obtain ⟨rfl, errorFree, clean⟩ := ofAccepted found
  have counted := (parsedCounted file source defines).1
  have same : SameWords (Reading.tokens source defines).terminals tokens.terminals := by
    refine List.forall₂_map_left_iff.mp (List.forall₂_map_right_iff.mp ?_)
    rw [apart.words, terminalsOfClean clean, Reading.tokens, Token.scanWords]
    exact List.forall₂_same.mpr fun _ _ => ⟨rfl, fun _ => rfl⟩
  have outcome : SameOutcome (ofTokens (Reading.tokens source defines) _ _) (ofTokens tokens _ _) :=
    ofTokensSame rfl apart.ends (fun t mem => scanInner (List.mem_of_mem_filter mem)) same
      (selected source defines).text (selected source defines).text counted
  exact ⟨outcome.program, unmarkedOfErrorFree counted (outcome.errorCount.trans errorFree)⟩

theorem fileOfLexical (file source : String) (defines : List String) : (lexicalLog file source defines).file = file := by
  have warned (warnings : List (Nat × Conditional.Warning)) (log : Log) : (logWarnings log warnings).file = log.file := by
    induction warnings generalizing log with
    | nil => rfl
    | cons w rest ih => exact ih _
  have faults (errors : List Token.ScanError) (log : Log) : (logFaults log errors).file = log.file := by
    induction errors generalizing log with
    | nil => rfl
    | cons e rest ih => exact ih _
  rw [lexicalLog, faults, warned]
  rfl

end Reading

/-- Stray words up to a semicolon, put in at a point of a source without errors, cost one report where the first of
them stands, and the program is recovered as it was. The point may be found by the places of the tokens in the
source, or by any other places that tell them apart. -/
theorem statementRecoveryIsLocal {file source source' : String} {defines defines' : List String} {p : Program}
    {tokens : TokenList} {k : Nat} {stray : List Word} {mark : Word}
    (found : p ∈ (Reading.ofSource file source defines).program)
    (apart : WordsApart tokens (words (Reading.selected source defines).text))
    (point : IsPoint (Reading.placed file source defines tokens).1 tokens k) (isStray : IsStray stray)
    (closes : mark.kind = .semicolon)
    (put : words (Reading.selected source' defines').text = (words (Reading.selected source defines).text).take k ++
      (stray ++ mark :: (words (Reading.selected source defines).text).drop k)) :
    ∃ t ∈ (Reading.tokens source' defines').body[k]?,
      (Reading.ofSource file source' defines').log.errors =
        [⟨.error, .syntactic, file, t.position, (SyntaxError.invalid "StmtList").message⟩] ∧
      bare (Reading.parsed file source' defines').1 = bare p := by
  obtain ⟨same, unmarked⟩ := Reading.placedSame found apart
  obtain ⟨-, -, clean⟩ := Reading.ofAccepted found
  generalize text : words (Reading.selected source defines).text = ws at apart put
  have sound : ∀ w ∈ words (Reading.selected source' defines').text, w.kind ≠ .invalid := by
    have before := soundWords clean
    rw [text] at before
    rw [put]
    simp only [List.mem_append, List.mem_cons]
    rintro w (first | stray | rfl | behind)
    · exact before w (List.mem_of_mem_take first)
    · exact isStray.sound w stray
    · rw [closes]
      decide
    · exact before w (List.mem_of_mem_drop behind)
  have clean' : (Reading.tokens source' defines').faulty = [] := cleanOfSound sound
  have body : (Reading.tokens source' defines').body.map Token.word = words (Reading.selected source' defines').text :=
    Token.scanWords _
  rw [put] at body
  have inside : k < ws.length := by
    obtain ⟨t, listed, -⟩ := point
    obtain ⟨less, -⟩ := List.getElem?_eq_some_iff.mp listed
    rwa [← apart.words, List.length_map]
  have taken : (ws.take k).length = k := by
    rw [List.length_take]
    omega
  let inserted : Insertion :=
    { stray, mark, behind := ws.drop k, tokens := (Reading.tokens source' defines').body.drop k,
      log := Reading.lexicalLog file source' defines', isStray, closes,
      words := by rw [List.map_drop, body, List.drop_left' taken] }
  have split := List.take_append_drop k (Reading.tokens source' defines').body
  obtain ⟨decls, reported⟩ : bare (Reading.parsed file source' defines').1 = _ ∧
      (Reading.parsed file source' defines').2.log = inserted.reported :=
    Reading.runWithStray inserted apart unmarked point rfl ((terminalsOfClean clean').trans split.symm)
      (by rw [List.map_take, body, List.take_left' taken]) rfl
  have some : k < (Reading.tokens source' defines').body.length := by
    have lengths := congrArg List.length body
    simp only [List.length_map, List.length_append, List.length_cons, taken] at lengths
    omega
  refine ⟨_, List.getElem?_eq_getElem some, ?_, decls.trans same⟩
  have position : inserted.position = ((Reading.tokens source' defines').body[k]).position := by
    simp [inserted, Insertion.position, List.head?_drop, some]
  obtain ⟨counted, count⟩ := parsedCounted file source' defines'
  have silent : (Reading.lexicalLog file source' defines').errors = [] := by
    refine List.eq_nil_of_length_eq_zero ?_
    rw [← counted, count, clean', List.length_nil]
  show (Reading.parsed file source' defines').2.log.errors = _
  rw [reported, Insertion.reported, position, Log.errors, Log.syntaxError, Log.toListReport, List.filter_append,
    ← Log.errors, silent, List.nil_append, Reading.fileOfLexical]
  rfl

def openBlock : String := "procedure p() \x7b while (*) \x7b a: yield; \x7d \x7d"

def openBlockBroken : String := "procedure p() \x7b while (*) \x7b a: ) 2; yield; \x7d \x7d"

theorem openBlockSurvives : ∃ p ∈ (Reading.ofSource "" openBlock []).program,
    WordsApart (Reading.tokens openBlock []) (words (Reading.selected openBlock []).text) ∧
    IsPoint p (Reading.tokens openBlock []) 12 ∧ IsStray [⟨.rightParen, [')']⟩, ⟨.digits, ['2']⟩] ∧
    ∃ t ∈ (Reading.tokens openBlockBroken []).body[12]?,
      (Reading.ofSource "" openBlockBroken []).log.errors =
        [⟨.error, .syntactic, "", t.position, (SyntaxError.invalid "StmtList").message⟩] ∧
      bare (Reading.parsed "" openBlockBroken []).1 = bare p := by
  have accepted : (Reading.ofSource "" openBlock []).program.isSome = true := by decide +kernel
  obtain ⟨p, found⟩ := Option.isSome_iff_exists.mp accepted
  have apart : WordsApart (Reading.tokens openBlock []) (words (Reading.selected openBlock []).text) :=
    apartOfShort (by decide +kernel) (by decide +kernel)
  have point : IsPoint (Reading.placed "" openBlock [] (Reading.tokens openBlock [])).1 (Reading.tokens openBlock []) 12 := by
    decide +kernel
  have stray : IsStray [⟨.rightParen, [')']⟩, ⟨.digits, ['2']⟩] :=
    ⟨by decide, by decide, by decide⟩
  obtain ⟨same, -, -⟩ := Reading.ofAccepted found
  refine ⟨p, found, apart, ?_, stray, ?_⟩
  · rwa [Reading.placedOwn, ← same] at point
  · exact @statementRecoveryIsLocal "" openBlock openBlockBroken [] [] p _ 12 _ ⟨.semicolon, [';']⟩ found apart point
      stray rfl (by decide +kernel)

end Boogie
