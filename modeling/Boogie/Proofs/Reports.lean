import Boogie.Proofs.Relaid
import Boogie.Proofs.Termination
import Boogie.Proofs.Token.Far

/-! Reports are spread out. A reading is a row of steps, and each of them reads a token or finds a mistake;
a mistake is reported at the gate, kept back there, or reported past it. Whatever the row, at least two
tokens are read between two reports at the gate. -/
namespace Boogie

theorem terminalsRise {text : List Char} (short : byteLength text < Span.maxOffset) :
    ((Token.scan text).terminals ++ [(Token.scan text).finish]).Pairwise fun t u => t.position < u.position := by
  have spread := Token.scanSpread text
  have ends : (Token.scan text).finish.position = Position.behind text := by
    have place := LineTable.positionBehind text [] short
    rw [List.append_nil] at place
    rw [Token.scan, Token.scanAll, Span.ofRange, Nat.min_eq_left (Nat.le_of_lt short), place]
  refine List.pairwise_append.mpr ⟨(spread.rising short).filter _, List.pairwise_singleton _ _, fun t mem u finish => ?_⟩
  obtain ⟨front, back, cut, stands⟩ := spread.slice t (List.mem_of_mem_filter mem)
  rw [List.nil_append] at stands
  have inside := (stands.extent cut).2.1.1
  rw [List.append_assoc] at cut
  rw [List.mem_singleton.mp finish, ends, (stands.place cut (by omega)).2, cut]
  exact Position.behindLater front _ (by simp [stands.some])

namespace Grammar

inductive Event where
  | read (t : Token)
  /-- A mistake that the gate lets through. -/
  | report (d : Diagnostic)
  /-- A mistake that the gate keeps back. -/
  | silence
  /-- A mistake that is reported past the gate. -/
  | reportAt (d : Diagnostic)

namespace Event

def told : Event → List Diagnostic
  | report d | reportAt d => [d]
  | read _ | silence => []

def isReport : Event → Bool
  | report _ => true
  | _ => false

def readsTerminal : Event → Bool
  | read t => t.kind.isTerminal && t.kind != .endOfText
  | _ => false

end Event

namespace State

def atGate (s : State) (concern : Concern) (position : Position) (message : String) : Event :=
  if s.cursor.isReportDue then .report ⟨.error, concern, s.log.file, position, message⟩ else .silence

inductive Happens : State → Event → State → Prop
  | advance (s) : Happens s (.read s.cursor.current) s.advance
  | syntaxError (e s) : Happens s (s.atGate .syntactic s.cursor.current.position e.message) (s.syntaxError e)
  | broken (rule s) : Happens s (s.atGate .semantic s.cursor.previous.position rule.message) (s.broken rule)
  | brokenAt (span rule s) :
      Happens s (.reportAt ⟨.error, .semantic, s.log.file, s.lines.position span.start, rule.message⟩)
        (s.brokenAt span rule)

inductive Row (s : State) : List Event → State → Prop
  | refl : Row s [] s
  | step {events e t u} (before : Row s events t) (last : Happens t e u) : Row s (events ++ [e]) u

theorem Reaches.row {s t : State} (h : s.Reaches t) : ∃ events, s.Row events t := by
  induction h with
  | refl => exact ⟨[], .refl⟩
  | step _ last ih =>
    obtain ⟨events, row⟩ := ih
    cases last with
    | advance => exact ⟨_, row.step (.advance _)⟩
    | syntaxError => exact ⟨_, row.step (.syntaxError _ _)⟩
    | broken => exact ⟨_, row.step (.broken _ _)⟩
    | brokenAt => exact ⟨_, row.step (.brokenAt _ _ _)⟩

end State

theorem snocCut {α : Type} {front back row : List α} {x e : α} (same : row ++ [e] = front ++ x :: back) :
    (row = front ∧ e = x ∧ back = []) ∨ ∃ back', row = front ++ x :: back' ∧ back = back' ++ [e] := by
  rcases List.eq_nil_or_concat back with rfl | ⟨back', last, rfl⟩
  · obtain ⟨rows, ends⟩ := List.append_inj' same rfl
    exact .inl ⟨rows, by simpa using ends, rfl⟩
  · have whole : row ++ [e] = (front ++ x :: back') ++ [last] := by simpa using same
    obtain ⟨rows, ends⟩ := List.append_inj' whole rfl
    exact .inr ⟨back', rows, by rw [List.concat_eq_append, List.singleton_inj.mp ends]⟩

structure Spaced (all : List Token) (finish : Token) (start : Log) (events : List Event) (s : State) : Prop where
  accounted : s.cursor.taken.reverse ++ s.cursor.ahead = all
  atEnd : s.cursor.finish = finish
  logged : s.log.toList = start.toList ++ events.flatMap Event.told
  since : ∀ front d back, events = front ++ .report d :: back →
    s.cursor.distance ≤ back.countP Event.readsTerminal
  apart : ∀ front d between d' back, events = front ++ .report d :: (between ++ .report d' :: back) →
    reportDistance ≤ between.countP Event.readsTerminal
  placed : ∀ d ∈ events.flatMap Event.told, d.concern = .syntactic →
    ∃ k t, (all ++ [finish])[k]? = some t ∧ d.position = t.position ∧ k + s.cursor.distance ≤ s.cursor.taken.length
  rising : (all ++ [finish]).Pairwise (fun t u => t.position < u.position) →
    ((events.flatMap Event.told).filter fun d => d.concern = .syntactic).Pairwise fun d d' => d.position < d'.position
  few : reportDistance * events.countP Event.isReport + s.cursor.distance ≤
    s.cursor.taken.length + reportDistance

namespace Spaced

variable {all : List Token} {finish : Token} {start : Log} {events : List Event} {s : State}

theorem begin {tokens : TokenList} {text : List Char} :
    Spaced tokens.terminals tokens.finish start [] (.start tokens text start) where
  accounted := rfl
  atEnd := rfl
  logged := (List.append_nil _).symm
  since front d back same := by simp at same
  apart front d between d' back same := by simp at same
  placed := nofun
  rising _ := .nil
  few := Nat.le_refl _

theorem current (h : Spaced all finish start events s) :
    (all ++ [finish])[s.cursor.taken.length]? = some s.cursor.current := by
  rw [← h.accounted, List.append_assoc, ← List.length_reverse, List.getElem?_append_right (Nat.le_refl _), Nat.sub_self,
    Cursor.current, ← h.atEnd]
  cases s.cursor.ahead <;> rfl

theorem advance (h : Spaced all finish start events s) (terminal : ∀ t ∈ all, t.kind.isTerminal = true)
    (ends : finish.kind = .endOfText) (real : s.cursor.current.kind ≠ .endOfText) :
    Spaced all finish start (events ++ [.read s.cursor.current]) s.advance := by
  obtain ⟨t, rest, ahead⟩ : ∃ t rest, s.cursor.ahead = t :: rest := by
    cases ahead : s.cursor.ahead with
    | nil => exact absurd (by rw [Cursor.currentOfNil ahead, h.atEnd, ends]) real
    | cons t rest => exact ⟨t, rest, rfl⟩
  have current : s.cursor.current = t := Cursor.currentOfCons ahead
  have counted : Event.readsTerminal (.read s.cursor.current) = true := by
    have mem : t ∈ all := by rw [← h.accounted, ahead]; simp
    simp only [Event.readsTerminal, Bool.and_eq_true, bne_iff_ne]
    exact ⟨current ▸ terminal t mem, real⟩
  refine ⟨?_, h.atEnd, ?_, fun front d back same => ?_, fun front d between d' back same => ?_, ?_, ?_, ?_⟩
  · rw [← h.accounted, ahead]
    simp [State.advance, Cursor.advance, current, ahead]
  · simpa [State.advance, Event.told] using h.logged
  · rcases snocCut same with ⟨_, other, _⟩ | ⟨back', row, rfl⟩
    · exact absurd other Event.noConfusion
    · have := h.since front d back' row
      rw [List.countP_append, List.countP_singleton, if_pos counted]
      exact Nat.succ_le_succ this
  · rw [← List.cons_append, ← List.append_assoc] at same
    rcases snocCut same with ⟨_, other, _⟩ | ⟨back', row, _⟩
    · exact absurd other Event.noConfusion
    · exact h.apart front d between d' back' (by simpa using row)
  · intro d mem syntactic
    obtain ⟨k, t, found, place, enough⟩ := h.placed d (by simpa [Event.told] using mem) syntactic
    refine ⟨k, t, found, place, ?_⟩
    simp only [State.advance, Cursor.advance, List.length_cons]
    omega
  · simpa [Event.told] using h.rising
  · have := h.few
    simp only [List.countP_append, List.countP_singleton, Event.isReport, Bool.false_eq_true, if_false,
      Nat.add_zero, State.advance, Cursor.advance, List.length_cons]
    omega

theorem past (h : Spaced all finish start events s) {u : State} (cursor : u.cursor = s.cursor) {d : Diagnostic}
    (log : u.log.toList = s.log.toList ++ [d]) (semantic : d.concern = .semantic) :
    Spaced all finish start (events ++ [.reportAt d]) u := by
  have other : ¬ d.concern = .syntactic := by rw [semantic]; exact Concern.noConfusion
  refine ⟨cursor ▸ h.accounted, cursor ▸ h.atEnd, ?_, fun front d' back same => ?_,
    fun front d' between d'' back same => ?_, ?_, ?_, ?_⟩
  · rw [log, h.logged]
    simp [Event.told]
  · rcases snocCut same with ⟨_, other, _⟩ | ⟨back', row, rfl⟩
    · exact absurd other Event.noConfusion
    · rw [cursor, List.countP_append]
      exact Nat.le_trans (h.since front d' back' row) (Nat.le_add_right _ _)
  · rw [← List.cons_append, ← List.append_assoc] at same
    rcases snocCut same with ⟨_, other, _⟩ | ⟨back', row, _⟩
    · exact absurd other Event.noConfusion
    · exact h.apart front d' between d'' back' (by simpa using row)
  · intro d' mem syntactic
    rw [cursor]
    refine h.placed d' ?_ syntactic
    rcases List.mem_append.mp (by simpa only [List.flatMap_append, List.flatMap_singleton] using mem) with mem | last
    · exact mem
    · exact absurd (List.mem_singleton.mp last ▸ syntactic) other
  · simpa [Event.told, other] using h.rising
  · rw [cursor]
    simpa [Event.isReport] using h.few

theorem silence (h : Spaced all finish start events s) {u : State} (cursor : u.cursor = s.cursor.noteMistake)
    (log : u.log = s.log) : Spaced all finish start (events ++ [.silence]) u := by
  refine ⟨by rw [cursor]; exact h.accounted, by rw [cursor]; exact h.atEnd, ?_, fun front d back _ => ?_,
    fun front d between d' back same => ?_, fun d mem syntactic => ?_, ?_, ?_⟩
  · rw [log, h.logged]
    simp [Event.told]
  · rw [cursor]
    exact Nat.zero_le _
  · rw [← List.cons_append, ← List.append_assoc] at same
    rcases snocCut same with ⟨_, other, _⟩ | ⟨back', row, _⟩
    · exact absurd other Event.noConfusion
    · exact h.apart front d between d' back' (by simpa using row)
  · obtain ⟨k, t, found, place, enough⟩ := h.placed d (by simpa [Event.told] using mem) syntactic
    refine ⟨k, t, found, place, ?_⟩
    rw [cursor]
    exact Nat.le_trans (Nat.le_add_right _ _) enough
  · simpa [Event.told] using h.rising
  · have := h.few
    rw [cursor]
    simp only [List.countP_append, List.countP_singleton, Event.isReport, Bool.false_eq_true, if_false,
      Nat.add_zero, Cursor.noteMistake]
    omega

theorem report (h : Spaced all finish start events s) (due : s.cursor.isReportDue = true) {u : State}
    (cursor : u.cursor = s.cursor.noteMistake) {d : Diagnostic} (log : u.log.toList = s.log.toList ++ [d])
    (place : d.concern = .syntactic → d.position = s.cursor.current.position) :
    Spaced all finish start (events ++ [.report d]) u := by
  have enough : reportDistance ≤ s.cursor.distance := of_decide_eq_true due
  have reported : (events ++ [Event.report d]).flatMap Event.told = events.flatMap Event.told ++ [d] := by
    simp [Event.told]
  refine ⟨by rw [cursor]; exact h.accounted, by rw [cursor]; exact h.atEnd, by rw [log, h.logged]; simp [reported],
    fun front d' back _ => ?_, fun front d' between d'' back same => ?_, fun d' mem syntactic => ?_, fun rises => ?_, ?_⟩
  · rw [cursor]
    exact Nat.zero_le _
  · rw [← List.cons_append, ← List.append_assoc] at same
    rcases snocCut same with ⟨row, _, _⟩ | ⟨back', row, _⟩
    · exact Nat.le_trans enough (h.since front d' between row)
    · exact h.apart front d' between d'' back' (by simpa using row)
  · rw [reported, List.mem_append, List.mem_singleton] at mem
    rcases mem with mem | rfl
    · obtain ⟨k, t, found, place, less⟩ := h.placed d' mem syntactic
      refine ⟨k, t, found, place, ?_⟩
      rw [cursor]
      exact Nat.le_trans (Nat.le_add_right _ _) less
    · exact ⟨_, _, h.current, place syntactic, by rw [cursor]; exact Nat.le_refl _⟩
  · rw [reported, List.filter_append]
    refine List.pairwise_append.mpr ⟨h.rising rises, (List.pairwise_singleton _ d).filter _, fun d' mem d'' last => ?_⟩
    obtain ⟨mem, syntactic'⟩ := List.mem_filter.mp mem
    obtain ⟨last, syntactic⟩ := List.mem_filter.mp last
    obtain rfl := List.mem_singleton.mp last
    obtain ⟨k, t, found, place', less⟩ := h.placed d' mem (of_decide_eq_true syntactic')
    have before : k < s.cursor.taken.length := by
      have : 0 < reportDistance := by decide
      omega
    obtain ⟨inRow, rfl⟩ := List.getElem?_eq_some_iff.mp found
    obtain ⟨inRow', same⟩ := List.getElem?_eq_some_iff.mp h.current
    rw [place', place (of_decide_eq_true syntactic), ← same]
    exact List.pairwise_iff_getElem.mp rises _ _ inRow inRow' before
  · have := h.few
    rw [cursor]
    simp only [List.countP_append, List.countP_singleton, Event.isReport, Cursor.noteMistake, if_true, Nat.mul_add]
    omega

theorem gate (h : Spaced all finish start events s) {concern : Concern} {position : Position} {message : String}
    {u : State} (cursor : u.cursor = s.cursor.noteMistake)
    (log : u.log = if s.cursor.isReportDue then s.log.report .error concern position message else s.log)
    (place : concern = .syntactic → position = s.cursor.current.position) :
    Spaced all finish start (events ++ [s.atGate concern position message]) u := by
  rw [State.atGate]
  cases due : s.cursor.isReportDue with
  | true => exact h.report due cursor (by rw [log, due, if_pos rfl, Log.toListReport]) place
  | false => exact h.silence cursor (by rw [log, due, if_neg Bool.false_ne_true])

theorem ofRow {tokens : TokenList} {text : List Char}
    (terminal : ∀ t ∈ tokens.terminals, t.kind.isTerminal = true) (ends : tokens.finish.kind = .endOfText)
    (row : State.Row (.start tokens text start) events s) (real : ∀ t ∈ s.cursor.taken, t.kind ≠ .endOfText) :
    Spaced tokens.terminals tokens.finish start events s := by
  induction row with
  | refl => exact begin
  | step before last ih =>
    cases last with
    | advance =>
      obtain ⟨first, earlier⟩ := List.forall_mem_cons.mp real
      exact (ih earlier).advance terminal ends first
    | syntaxError e => exact (ih real).gate rfl rfl fun _ => rfl
    | broken rule => exact (ih real).gate rfl rfl nofun
    | brokenAt span rule =>
      rename_i t
      have cursor : (t.brokenAt span rule).cursor = t.cursor := rfl
      exact (ih real).past cursor (Log.toListReport t.log _ _ _ _) rfl

theorem coincides (h : Spaced all finish start events s) {place : Position}
    (there : ∀ t ∈ all ++ [finish], t.position = place) {d : Diagnostic} (mem : d ∈ events.flatMap Event.told)
    (syntactic : d.concern = .syntactic) : d.position = place := by
  obtain ⟨_, t, found, position, _⟩ := h.placed d mem syntactic
  rw [position, there t (List.mem_of_getElem? found)]

end Spaced

end Grammar

open Grammar

theorem spacedOfScan {text : List Char} {log : Log} {events : List Event}
    (row : State.Row (.start (Token.scan text) text log) events (Reading.run (Token.scan text) text log).2) :
    Spaced (Token.scan text).terminals (Token.scan text).finish log events
      (Reading.run (Token.scan text) text log).2 := by
  have inner : ∀ t ∈ (Token.scan text).body, t.kind ≠ .endOfText := fun t mem => scanInner mem
  obtain ⟨_, once⟩ := readsEachOnce rfl inner text log
  refine .ofRow (fun t mem => (List.mem_filter.mp mem).2) rfl row fun t mem => ?_
  have listed : t ∈ (Token.scan text).terminals := once ▸ List.mem_reverse.mpr mem
  exact inner t (List.mem_of_mem_filter listed)

structure SpreadOut (tokens : TokenList) (start last : Log) (events : List Event) : Prop where
  logged : last.toList = start.toList ++ events.flatMap Event.told
  apart : ∀ front d between d' back, events = front ++ .report d :: (between ++ .report d' :: back) →
    2 ≤ between.countP Event.readsTerminal
  few : events.countP Event.isReport ≤
    (tokens.toList.countP fun t => t.kind.isTerminal && t.kind != .endOfText) / 2 + 1

/-- Whatever the row of steps that makes up the reading of a text, its reports are spread out. Where 32 bits hold the
offsets of the text, the reports of tokens out of place stand one behind the other. -/
theorem reportsSpreadOut (text : List Char) (log : Log) :
    let tokens := Token.scan text
    let start : State := .start tokens text log
    let last := (Reading.run tokens text log).2
    (∃ events, start.Row events last) ∧
      ∀ events, start.Row events last → SpreadOut tokens log last.log events ∧
        (byteLength text < Span.maxOffset →
          ((events.flatMap Event.told).filter fun d => d.concern = .syntactic).Pairwise
            fun d d' => d.position < d'.position) := by
  intro tokens start last
  refine ⟨(Grammar.program.reaches start).row, fun events row => ?_⟩
  have spaced : Spaced tokens.terminals tokens.finish log events last := spacedOfScan row
  refine ⟨⟨spaced.logged, spaced.apart, ?_⟩, fun short => spaced.rising (terminalsRise short)⟩
  have inner : ∀ t ∈ tokens.body, t.kind ≠ .endOfText := fun t mem => scanInner mem
  obtain ⟨_, once⟩ := readsEachOnce rfl inner text log
  have count : (tokens.toList.countP fun t => t.kind.isTerminal && t.kind != .endOfText) = last.cursor.taken.length := by
    have ofBody : (tokens.body.countP fun t => t.kind.isTerminal && t.kind != .endOfText) = tokens.terminals.length := by
      rw [TokenList.terminals, ← List.countP_eq_length_filter]
      refine List.countP_congr fun t mem => ?_
      simp [inner t mem]
    rw [TokenList.toList, List.countP_append, ofBody, ← once, List.length_reverse]
    rfl
  have := spaced.few
  rw [count]
  simp only [reportDistance] at this
  omega

def twoAxioms : List Char := "axiom ; axiom ;".toList

theorem spreadOverTwoAxioms :
    let start : State := .start (Token.scan twoAxioms) twoAxioms (.empty "")
    let last := (Reading.run (Token.scan twoAxioms) twoAxioms (.empty "")).2
    ∃ events, start.Row events last ∧ SpreadOut (Token.scan twoAxioms) (.empty "") last.log events ∧
      ((events.flatMap Event.told).filter fun d => d.concern = .syntactic).Pairwise
        fun d d' => d.position < d'.position := by
  obtain ⟨⟨events, row⟩, spread⟩ := reportsSpreadOut twoAxioms (.empty "")
  obtain ⟨apart, rising⟩ := spread events row
  exact ⟨events, row, apart, rising (by decide)⟩

theorem reportsCoincide {text : List Char} {place : Position} (same : Token.words text = Token.words twoAxioms)
    (there : ∀ t ∈ (Token.scan text).toList, t.position = place) :
    ∃ events, State.Row (.start (Token.scan text) text (.empty "")) events
        (Reading.run (Token.scan text) text (.empty "")).2 ∧
      ¬ ((events.flatMap Event.told).filter fun d => d.concern = .syntactic).Pairwise fun d d' =>
        d.position < d'.position := by
  let start : State := .start (Token.scan text) text (.empty "")
  obtain ⟨events, row⟩ := (Grammar.program.reaches start).row
  have spaced := spacedOfScan row
  refine ⟨events, row, fun rising => ?_⟩
  -- the words are those of a short text, which can be read
  have outcome := Reading.outcomeOfWords same ""
  have told : (events.flatMap Event.told).map (fun d => (d.severity, d.concern, d.message)) =
      [(.error, .syntactic, "invalid UnaryExpression"), (.error, .syntactic, "invalid UnaryExpression")] := by
    have short : (Reading.ofTokens (Token.scan twoAxioms) twoAxioms (.empty "")).2.told =
      [(.error, .syntactic, "invalid UnaryExpression"), (.error, .syntactic, "invalid UnaryExpression")] := by decide +kernel
    rw [← short, ← outcome.told, Reading.ofTokens, Log.told, spaced.logged]
    rfl
  obtain ⟨d, rest, both, first, more⟩ := List.map_eq_cons_iff.mp told
  obtain ⟨d', rfl, last⟩ := List.map_eq_singleton_iff.mp more
  have concern : d.concern = .syntactic := congrArg (·.2.1) first
  have concern' : d'.concern = .syntactic := congrArg (·.2.1) last
  rw [both] at rising
  have listed : ∀ t ∈ (Token.scan text).terminals ++ [(Token.scan text).finish], t.position = place := by
    intro t mem
    rcases List.mem_append.mp mem with terminal | last
    · exact there t (List.mem_append_left _ (List.mem_of_mem_filter terminal))
    · exact there t (List.mem_append_right _ last)
  have less : d.position < d'.position := by simpa [concern, concern'] using rising
  rw [spaced.coincides listed (by simp [both]) concern, spaced.coincides listed (by simp [both]) concern'] at less
  exact Position.ltIrrefl less

/-- Behind a newline and as many spaces as a span can tell, the reports do not stand one behind the other. -/
theorem farReportsCoincide :
    let text := Token.farFront ++ twoAxioms
    ∃ events, State.Row (.start (Token.scan text) text (.empty "")) events
        (Reading.run (Token.scan text) text (.empty "")).2 ∧
      ¬ ((events.flatMap Event.told).filter fun d => d.concern = .syntactic).Pairwise fun d d' =>
        d.position < d'.position :=
  reportsCoincide (Token.wordsFar twoAxioms) fun t mem => (Token.scanFar twoAxioms t mem).position

end Boogie
