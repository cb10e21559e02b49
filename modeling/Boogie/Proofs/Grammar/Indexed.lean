import Boogie.Grammar.Cursor
import Mathlib.Data.List.Basic

/-! A cursor that goes by two indices over all the tokens, the faulty ones and the end of the text included, and looks
up a token each time it needs one. However it is used, and in whatever order, the indices stay within the tokens,
and it is where the cursor that keeps the terminals ahead is. What both reply can be told from how many tokens were
read and how many of them since the last mistake. -/
namespace Boogie.Grammar

def maxDistance : Nat := 4294967295

structure Indexed where
  tokens : List Token
  next : Nat
  last : Nat
  distance : Nat
  returned : List Token
  deriving DecidableEq, Repr

namespace Indexed

def skipFaulty (tokens : List Token) (i : Nat) : Nat :=
  if i + 1 < tokens.length ∧ (tokens[i]?.any fun t => !t.kind.isTerminal) = true then skipFaulty tokens (i + 1) else i
termination_by tokens.length - i

theorem leSkipFaulty (tokens : List Token) (i : Nat) : i ≤ skipFaulty tokens i := by
  fun_induction skipFaulty tokens i <;> omega

def start (tokens : List Token) : Indexed :=
  ⟨tokens, skipFaulty tokens 0, skipFaulty tokens 0, reportDistance, []⟩

def current (s : Indexed) : Option Token := s.tokens[s.next]?

def previous (s : Indexed) : Option Token := s.tokens[s.last]?

def past (t : Token) (s : Indexed) : Indexed where
  tokens := s.tokens
  next := if t.kind = .endOfText then s.next else skipFaulty s.tokens (s.next + 1)
  last := s.next
  distance := min (s.distance + 1) maxDistance
  returned := t :: s.returned

def advance (s : Indexed) : Option (Token × Indexed) := s.current.map fun t => (t, s.past t)

def takeErrorSlot (s : Indexed) : Bool × Indexed := (decide (reportDistance ≤ s.distance), { s with distance := 0 })

def synchronize (set : Token.KindSet) (s : Indexed) : Option (Bool × Indexed) :=
  match _here : s.current with
  | none => none
  | some t =>
    if _ends : t.kind = .endOfText then some (false, s)
    else if set.contains t.kind then some (true, s)
    else (s.past t).synchronize set
termination_by s.tokens.length - s.next
decreasing_by
  obtain ⟨inside, -⟩ := List.getElem?_eq_some_iff.mp _here
  have := leSkipFaulty s.tokens (s.next + 1)
  simp only [past, if_neg _ends]
  omega

end Indexed

inductive Use where
  | advance
  | takeErrorSlot
  | synchronize (set : Token.KindSet)
  deriving DecidableEq, Repr

inductive Reply where
  | token (t : Token)
  | due (report : Bool)
  | found (some : Bool)
  deriving DecidableEq, Repr

def Indexed.use (s : Indexed) : Use → Option (Reply × Indexed)
  | .advance => s.advance.map (Prod.map .token id)
  | .takeErrorSlot => some (Prod.map .due id s.takeErrorSlot)
  | .synchronize set => (s.synchronize set).map (Prod.map .found id)

def Indexed.uses (s : Indexed) : List Use → Option (List Reply × Indexed)
  | [] => some ([], s)
  | use :: rest =>
    match s.use use with
    | none => none
    | some (reply, s) => (s.uses rest).map (Prod.map (reply :: ·) id)

def Cursor.use (c : Cursor) : Use → Reply × Cursor
  | .advance => (.token c.current, c.advance)
  | .takeErrorSlot => (.due c.isReportDue, c.noteMistake)
  | .synchronize set => (.found !(c.synchronize set).isAtEnd, c.synchronize set)

def Cursor.uses (c : Cursor) : List Use → List Reply × Cursor
  | [] => ([], c)
  | use :: rest => Prod.map ((c.use use).1 :: ·) id ((c.use use).2.uses rest)

variable {ts : TokenList} {s : Indexed} {c : Cursor}

def terminalsFrom (ts : TokenList) (i : Nat) : List Token := (ts.body.drop i).filter fun t => t.kind.isTerminal

structure Settled (ts : TokenList) (i : Nat) : Prop where
  inside : i ≤ ts.body.length
  terminal (t : Token) (here : ts.body[i]? = some t) : t.kind.isTerminal = true

theorem terminalsFromEnd {i : Nat} (last : i = ts.body.length) : terminalsFrom ts i = [] := by
  rw [terminalsFrom, last, List.drop_length, List.filter_nil]

namespace Settled

variable {i : Nat}

theorem terminalsCons (h : Settled ts i) (less : i < ts.body.length) :
    terminalsFrom ts i = ts.body[i] :: terminalsFrom ts (i + 1) := by
  have terminal := h.terminal _ (List.getElem?_eq_getElem less)
  rw [terminalsFrom, List.drop_eq_getElem_cons less]
  exact List.filter_cons_of_pos terminal

theorem lookup (h : Settled ts i) : ts.toList[i]? = some ((terminalsFrom ts i).headD ts.finish) := by
  rcases Nat.lt_or_eq_of_le h.inside with less | last
  · rw [h.terminalsCons less, TokenList.toList, List.getElem?_append_left less, List.getElem?_eq_getElem less]
    rfl
  · rw [terminalsFromEnd last, TokenList.toList, last]
    simp

end Settled

theorem skipFaultySettles {i : Nat} (inside : i ≤ ts.body.length) :
    Settled ts (Indexed.skipFaulty ts.toList i) ∧
      terminalsFrom ts (Indexed.skipFaulty ts.toList i) = terminalsFrom ts i := by
  have length : ts.toList.length = ts.body.length + 1 := List.length_append
  fun_induction Indexed.skipFaulty ts.toList i with
  | case1 i skipped ih =>
    obtain ⟨more, faulty⟩ := skipped
    have here : i < ts.body.length := by omega
    obtain ⟨settled, same⟩ := ih here
    refine ⟨settled, same.trans ?_⟩
    rw [TokenList.toList, List.getElem?_append_left here, List.getElem?_eq_getElem here] at faulty
    rw [terminalsFrom, terminalsFrom, List.drop_eq_getElem_cons here, List.filter_cons_of_neg (by simpa using faulty)]
  | case2 i stays =>
    refine ⟨⟨inside, fun t here => ?_⟩, rfl⟩
    obtain ⟨less, rfl⟩ := List.getElem?_eq_some_iff.mp here
    by_contra faulty
    refine stays ⟨by omega, ?_⟩
    rw [TokenList.toList, List.getElem?_append_left less, here]
    simpa using faulty

structure Matches (ts : TokenList) (s : Indexed) (c : Cursor) : Prop where
  tokens : s.tokens = ts.toList
  finish : c.finish = ts.finish
  settled : Settled ts s.next
  ahead : c.ahead = terminalsFrom ts s.next
  previous : s.previous = some c.previous
  distance : s.distance = min c.distance maxDistance
  returned : s.returned = c.taken

theorem matchesStart (ts : TokenList) : Matches ts (.start ts.toList) (.ofTokens ts) := by
  obtain ⟨settled, same⟩ := skipFaultySettles (Nat.zero_le ts.body.length)
  exact ⟨rfl, rfl, settled, same.symm, settled.lookup.trans (by rw [same]; rfl), rfl, rfl⟩

namespace Matches

theorem current (h : Matches ts s c) : s.current = some c.current := by
  rw [Indexed.current, h.tokens, h.settled.lookup, Cursor.current, h.ahead, h.finish]

theorem endsIff (ends : ts.finish.kind = .endOfText) (inner : ∀ t ∈ ts.body, t.kind ≠ .endOfText)
    (h : Matches ts s c) : c.current.kind = .endOfText ↔ c.ahead = [] := by
  cases ahead : c.ahead with
  | nil => simp [Cursor.currentOfNil ahead, h.finish, ends]
  | cons t rest =>
    have mem : t ∈ terminalsFrom ts s.next := by simp [← h.ahead, ahead]
    simp [Cursor.currentOfCons ahead, inner t (List.mem_of_mem_drop (List.mem_of_mem_filter mem))]

theorem past (ends : ts.finish.kind = .endOfText) (inner : ∀ t ∈ ts.body, t.kind ≠ .endOfText)
    (h : Matches ts s c) : Matches ts (s.past c.current) c.advance := by
  have moved : Settled ts (s.past c.current).next ∧ c.advance.ahead = terminalsFrom ts (s.past c.current).next := by
    rw [Cursor.advanceAhead]
    by_cases atEnd : c.current.kind = .endOfText
    · have stays : (s.past c.current).next = s.next := if_pos atEnd
      rw [stays, ← h.ahead, (h.endsIff ends inner).mp atEnd]
      exact ⟨h.settled, rfl⟩
    · have next : (s.past c.current).next = Indexed.skipFaulty ts.toList (s.next + 1) := h.tokens ▸ if_neg atEnd
      have less : s.next < ts.body.length := by
        refine Nat.lt_of_le_of_ne h.settled.inside fun last => atEnd ((h.endsIff ends inner).mpr ?_)
        rw [h.ahead, terminalsFromEnd last]
      obtain ⟨settled, same⟩ := skipFaultySettles (i := s.next + 1) less
      rw [next, same, h.ahead, h.settled.terminalsCons less]
      exact ⟨settled, rfl⟩
  have distance : min (s.distance + 1) maxDistance = min (c.distance + 1) maxDistance := by
    rw [h.distance]
    omega
  exact ⟨h.tokens, h.finish, moved.1, moved.2, h.current, distance, congrArg (c.current :: ·) h.returned⟩

theorem synchronize (ends : ts.finish.kind = .endOfText) (inner : ∀ t ∈ ts.body, t.kind ≠ .endOfText)
    (set : Token.KindSet) (h : Matches ts s c) :
    ∃ s', s.synchronize set = some (!(c.synchronize set).isAtEnd, s') ∧ Matches ts s' (c.synchronize set) := by
  -- the indexed cursor looks at the token that the other one has as the first ahead
  have step (s : Indexed) (c : Cursor) (h : Matches ts s c) : s.synchronize set =
      if c.ahead = [] then some (false, s) else if set.contains c.current.kind then some (true, s)
      else (s.past c.current).synchronize set := by
    rw [Indexed.synchronize]
    split
    · simp_all [h.current]
    · rename_i t here
      obtain rfl : c.current = t := Option.some.inj (h.current.symm.trans here)
      simp only [h.endsIff ends inner, dite_eq_ite]
  rw [Cursor.synchronize]
  induction ahead : c.ahead generalizing s c with
  | nil =>
    rw [step s c h, if_pos ahead, Cursor.skipTo, Cursor.isAtEnd, ahead]
    exact ⟨s, rfl, h⟩
  | cons t rest ih =>
    have current := Cursor.currentOfCons ahead
    rw [step s c h, if_neg (by simp [ahead]), Cursor.skipTo, current]
    by_cases mem : set.contains t.kind = true
    · rw [if_pos mem, if_pos mem, Cursor.isAtEnd, ahead]
      exact ⟨s, rfl, h⟩
    · rw [if_neg mem, if_neg mem, ← current]
      exact ih (h.past ends inner) (by rw [Cursor.advanceAhead, ahead, List.tail_cons])

theorem use (ends : ts.finish.kind = .endOfText) (inner : ∀ t ∈ ts.body, t.kind ≠ .endOfText) (use : Use)
    (h : Matches ts s c) : ∃ s', s.use use = some ((c.use use).1, s') ∧ Matches ts s' (c.use use).2 := by
  cases use with
  | advance =>
    refine ⟨s.past c.current, ?_, h.past ends inner⟩
    rw [Indexed.use, Indexed.advance, h.current]
    rfl
  | takeErrorSlot =>
    have due : reportDistance ≤ s.distance ↔ reportDistance ≤ c.distance := by
      rw [h.distance, reportDistance, maxDistance]
      omega
    refine ⟨s.takeErrorSlot.2, ?_, { h with distance := rfl }⟩
    simp [Indexed.use, Indexed.takeErrorSlot, Cursor.use, Cursor.isReportDue, due]
  | synchronize set =>
    obtain ⟨s', found, matched⟩ := h.synchronize ends inner set
    refine ⟨s', ?_, matched⟩
    rw [Indexed.use, found]
    rfl

theorem uses (ends : ts.finish.kind = .endOfText) (inner : ∀ t ∈ ts.body, t.kind ≠ .endOfText) (uses : List Use)
    (h : Matches ts s c) : ∃ s', s.uses uses = some ((c.uses uses).1, s') ∧ Matches ts s' (c.uses uses).2 := by
  induction uses generalizing s c with
  | nil => exact ⟨s, rfl, h⟩
  | cons use rest ih =>
    obtain ⟨s', replied, matched⟩ := h.use ends inner use
    obtain ⟨s'', others, last⟩ := ih matched
    refine ⟨s'', ?_, last⟩
    rw [Indexed.uses, replied]
    simp [others, Cursor.uses]

end Matches

def nth (ts : TokenList) (n : Nat) : Token := ts.terminals.getD n ts.finish

/-- How many tokens are read, and how many of them since the last mistake. There was none at first, which counts like
one that lies far enough back. -/
structure Count where
  read : Nat
  since : Nat
  deriving DecidableEq, Repr

def Count.start : Count := ⟨0, reportDistance⟩

inductive Replies (ts : TokenList) (before : Count) : Use → Reply → Count → Prop
  | advance : Replies ts before .advance (.token (nth ts before.read)) ⟨before.read + 1, before.since + 1⟩
  | takeErrorSlot : Replies ts before .takeErrorSlot (.due (decide (reportDistance ≤ before.since))) ⟨before.read, 0⟩
  | found {set} {after : Count} (ahead : before.read ≤ after.read) (inside : after.read < ts.terminals.length)
      (mem : set.contains (nth ts after.read).kind = true)
      (first : ∀ i, before.read ≤ i → i < after.read → set.contains (nth ts i).kind = false)
      (since : after.since = before.since + (after.read - before.read)) :
      Replies ts before (.synchronize set) (.found true) after
  | missed {set} {after : Count} (last : after.read = max before.read ts.terminals.length)
      (none : ∀ i, before.read ≤ i → i < ts.terminals.length → set.contains (nth ts i).kind = false)
      (since : after.since = before.since + (after.read - before.read)) :
      Replies ts before (.synchronize set) (.found false) after

inductive RepliesAll (ts : TokenList) : Count → List Use → List Reply → Count → Prop
  | nil {count} : RepliesAll ts count [] [] count
  | cons {before between after use reply uses replies} (first : Replies ts before use reply between)
      (rest : RepliesAll ts between uses replies after) :
      RepliesAll ts before (use :: uses) (reply :: replies) after

structure Stands (ts : TokenList) (c : Cursor) (count : Count) : Prop where
  finish : c.finish = ts.finish
  ahead : c.ahead = ts.terminals.drop count.read
  previous : c.previous = c.taken.headD (nth ts 0)
  taken : c.taken.reverse = (List.range count.read).map (nth ts)
  distance : c.distance = count.since

variable {count : Count}

theorem standsStart (ts : TokenList) : Stands ts (.ofTokens ts) .start := by
  refine ⟨rfl, rfl, ?_, rfl, rfl⟩
  cases h : ts.terminals <;> simp [Cursor.ofTokens, nth, h]

namespace Stands

theorem current (h : Stands ts c count) : c.current = nth ts count.read := by
  rw [Cursor.current, h.ahead, h.finish, nth, List.headD_eq_head?_getD, List.head?_drop, List.getD_eq_getElem?_getD]

theorem advance (h : Stands ts c count) : Stands ts c.advance ⟨count.read + 1, count.since + 1⟩ where
  finish := h.finish
  ahead := by rw [Cursor.advanceAhead, h.ahead, List.tail_drop]
  previous := rfl
  taken := by
    rw [Cursor.advance, List.reverse_cons, h.taken, h.current, List.range_succ, List.map_append, List.map_singleton]
  distance := congrArg (· + 1) h.distance

end Stands

theorem Replies.behind {before after : Count} {set : Token.KindSet} {reply : Reply}
    (other : set.contains (nth ts before.read).kind = false) (less : before.read < ts.terminals.length)
    (h : Replies ts ⟨before.read + 1, before.since + 1⟩ (.synchronize set) reply after) :
    Replies ts before (.synchronize set) reply after := by
  have extend (stop : Nat) (first : ∀ i, before.read + 1 ≤ i → i < stop → set.contains (nth ts i).kind = false)
      (i : Nat) (from_ : before.read ≤ i) (below : i < stop) : set.contains (nth ts i).kind = false := by
    rcases Nat.eq_or_lt_of_le from_ with rfl | later
    · exact other
    · exact first i later below
  cases h with
  | found ahead inside mem first since =>
    simp only at ahead since
    exact .found (by omega) inside mem (extend _ first) (by omega)
  | missed last none since =>
    simp only at last since
    exact .missed (by omega) (extend _ none) (by omega)

namespace Stands

theorem synchronize (set : Token.KindSet) (h : Stands ts c count) :
    ∃ after, Replies ts count (.synchronize set) (.found !(c.synchronize set).isAtEnd) after ∧
      Stands ts (c.synchronize set) after := by
  rw [Cursor.synchronize]
  induction ahead : c.ahead generalizing c count with
  | nil =>
    have none : ts.terminals.length ≤ count.read := List.drop_eq_nil_iff.mp (h.ahead.symm.trans ahead)
    rw [Cursor.skipTo, Cursor.isAtEnd, ahead]
    exact ⟨count, .missed (by omega) (fun i from_ below => by omega) (by omega), h⟩
  | cons t rest ih =>
    have less : count.read < ts.terminals.length := by
      refine Nat.lt_of_not_le fun none => ?_
      simp [h.ahead, List.drop_eq_nil_of_le none] at ahead
    have current : nth ts count.read = t := h.current.symm.trans (Cursor.currentOfCons ahead)
    rw [Cursor.skipTo]
    by_cases mem : set.contains t.kind = true
    · rw [if_pos mem, Cursor.isAtEnd, ahead]
      exact ⟨count, .found (Nat.le_refl _) less (current ▸ mem) (fun i from_ below => by omega) (by omega), h⟩
    · rw [if_neg mem]
      obtain ⟨after, replies, stands⟩ := ih h.advance (by rw [Cursor.advanceAhead, ahead, List.tail_cons])
      exact ⟨after, replies.behind (by simpa [current] using mem) less, stands⟩

theorem use (use : Use) (h : Stands ts c count) :
    ∃ after, Replies ts count use (c.use use).1 after ∧ Stands ts (c.use use).2 after := by
  cases use with
  | advance =>
    rw [Cursor.use, h.current]
    exact ⟨_, .advance, h.advance⟩
  | takeErrorSlot =>
    rw [Cursor.use, Cursor.isReportDue, h.distance]
    exact ⟨_, .takeErrorSlot, ⟨h.finish, h.ahead, h.previous, h.taken, rfl⟩⟩
  | synchronize set => exact h.synchronize set

theorem uses (uses : List Use) (h : Stands ts c count) :
    ∃ after, RepliesAll ts count uses (c.uses uses).1 after ∧ Stands ts (c.uses uses).2 after := by
  induction uses generalizing c count with
  | nil => exact ⟨count, .nil, h⟩
  | cons use rest ih =>
    obtain ⟨between, first, stands⟩ := h.use use
    obtain ⟨after, others, last⟩ := ih stands
    exact ⟨after, .cons first others, last⟩

end Stands

structure Sound (ts : TokenList) (s : Indexed) (c : Cursor) (read : Nat) : Prop where
  next : s.next < ts.toList.length
  last : s.last < ts.toList.length
  current : s.current = some c.current
  previous : s.previous = some c.previous
  terminal : c.current.kind.isTerminal = true
  ahead : c.current = nth ts read
  returned : s.returned.reverse = (List.range read).map (nth ts)
  behind : c.previous = s.returned.headD (nth ts 0)

theorem soundOf (ends : ts.finish.kind = .endOfText) (matched : Matches ts s c) (stands : Stands ts c count) :
    Sound ts s c count.read where
  next := matched.tokens ▸ (List.getElem?_eq_some_iff.mp matched.current).1
  last := matched.tokens ▸ (List.getElem?_eq_some_iff.mp matched.previous).1
  current := matched.current
  previous := matched.previous
  terminal := by
    cases ahead : c.ahead with
    | nil => rw [Cursor.currentOfNil ahead, matched.finish, ends]; rfl
    | cons t rest =>
      have mem : t ∈ terminalsFrom ts s.next := by simp [← matched.ahead, ahead]
      rw [Cursor.currentOfCons ahead]
      exact (List.mem_filter.mp mem).2
  ahead := stands.current
  returned := by rw [matched.returned, stands.taken]
  behind := by rw [matched.returned, stands.previous]

/-- Over the tokens of a text, any row of uses has its replies, with nothing looked up outside: a terminal after the
other, then the end of the text again and again, and skipping to the first of a set. The cursor that keeps the
terminals ahead gives the same replies and shows the same tokens. -/
theorem usesReplied (ts : TokenList) (ends : ts.finish.kind = .endOfText)
    (inner : ∀ t ∈ ts.body, t.kind ≠ .endOfText) (uses : List Use) :
    ∃ s after, (Indexed.start ts.toList).uses uses = some (((Cursor.ofTokens ts).uses uses).1, s) ∧
      RepliesAll ts .start uses ((Cursor.ofTokens ts).uses uses).1 after ∧
      Sound ts s ((Cursor.ofTokens ts).uses uses).2 after.read := by
  obtain ⟨s, replied, matched⟩ := (matchesStart ts).uses ends inner uses
  obtain ⟨after, told, stands⟩ := (standsStart ts).uses uses
  exact ⟨s, after, replied, told, soundOf ends matched stands⟩

def mixedTokens : TokenList :=
  ⟨[.sample .invalid, .sample .semicolon, .sample .invalid, .sample .invalid, .sample .kwAxiom, .sample .invalid],
    .sample .endOfText⟩

def mixedUses : List Use :=
  [.synchronize (.ofList [.kwAxiom, .endOfText]), .takeErrorSlot, .advance, .takeErrorSlot,
    .synchronize (.ofList [.semicolon, .endOfText]), .advance]

def mixedReplies : List Reply :=
  [.found true, .due true, .token (.sample .kwAxiom), .due false, .found false, .token (.sample .endOfText)]

theorem mixedTokensReplied :
    (∀ t ∈ mixedTokens.body, t.kind ≠ .endOfText) ∧
      ∃ s after, (Indexed.start mixedTokens.toList).uses mixedUses = some (mixedReplies, s) ∧
        RepliesAll mixedTokens .start mixedUses mixedReplies after ∧
        Sound mixedTokens s ((Cursor.ofTokens mixedTokens).uses mixedUses).2 after.read := by
  have inner : ∀ t ∈ mixedTokens.body, t.kind ≠ .endOfText := by decide
  exact ⟨inner, usesReplied mixedTokens rfl inner mixedUses⟩

end Boogie.Grammar
