import Boogie.Grammar.Decl

/-! Progress. A production progresses where every run of it reads a token, whether the token fits or not.
Loops and nesting are bounded by the tokens ahead, so what they repeat must progress. -/
namespace Boogie.Grammar

open Token (Kind KindSet)

namespace State

def isClosed (s : State) : Prop := s.cursor.finish.kind = .endOfText

theorem Reaches.isClosed {s t : State} (h : s.Reaches t) (closed : s.isClosed) : t.isClosed := by
  rw [State.isClosed, h.finishEq]
  exact closed

theorem kindOfNil {s : State} (closed : s.isClosed) (none : s.cursor.ahead = []) : s.kind = .endOfText :=
  (congrArg Token.kind (Cursor.currentOfNil none)).trans closed

theorem aheadCons {s : State} (closed : s.isClosed) (more : s.kind ≠ .endOfText) :
    ∃ t rest, s.cursor.ahead = t :: rest := by
  cases tokens : s.cursor.ahead with
  | nil => exact absurd (kindOfNil closed tokens) more
  | cons t rest => exact ⟨t, rest, rfl⟩

theorem currentSame {s s' : State} (closed : s.isClosed) (ahead : s'.cursor.ahead = s.cursor.ahead)
    (more : s.kind ≠ .endOfText) : s'.cursor.current = s.cursor.current := by
  obtain ⟨t, rest, tokens⟩ := aheadCons closed more
  rw [Cursor.currentOfCons tokens, Cursor.currentOfCons (ahead.trans tokens)]

theorem kindSame {s s' : State} (closed : s.isClosed) (closed' : s'.isClosed)
    (ahead : s'.cursor.ahead = s.cursor.ahead) : s'.kind = s.kind := by
  by_cases ended : s.kind = .endOfText
  · cases tokens : s.cursor.ahead with
    | nil => rw [ended, kindOfNil closed' (ahead.trans tokens)]
    | cons t rest =>
      rw [kind, kind, Cursor.currentOfCons tokens, Cursor.currentOfCons (ahead.trans tokens)]
  · exact congrArg Token.kind (currentSame closed ahead ended)

theorem leftPos {s : State} (closed : s.isClosed) (more : s.kind ≠ .endOfText) : 0 < s.left := by
  obtain ⟨t, rest, tokens⟩ := aheadCons closed more
  simp [left, tokens]

@[simp] theorem leftAdvance (s : State) : s.advance.left = s.left - 1 := by
  simp [advance, left]

theorem advanceLt {s : State} (closed : s.isClosed) (more : s.kind ≠ .endOfText) :
    s.advance.left < s.left := by
  have := leftPos closed more
  rw [leftAdvance]
  omega

end State

def Stays {α : Type} (m : Production α) : Prop := ∀ s, (m.run s).2.cursor.ahead = s.cursor.ahead

namespace Stays

variable {α β : Type}

theorem read (view : State → α) : Stays (.read view) := fun _ => rfl

theorem syntaxError (e : SyntaxError) : Stays (syntaxError e) := fun _ => rfl

theorem pure (a : α) : Stays (Pure.pure a : Production α) := fun _ => rfl

theorem given {found : Bool} {report : Production Unit} (h : Stays report) : Stays (given found report) := by
  cases found
  · exact .pure ()
  · exact h

theorem kindEq {m : Production α} (h : Stays m) (s : State) : (m.run s).2.kind = s.kind := by
  rw [State.kind, State.kind, Cursor.current, Cursor.current, h s, (m.reaches s).finishEq]

theorem leftEq {m : Production α} (h : Stays m) (s : State) : (m.run s).2.left = s.left := by
  rw [State.left, h s, State.left]

end Stays

def Faults (m : Production Unit) : Prop := ∀ s, s.mistakes < (m.run s).2.mistakes

theorem Faults.syntaxError (e : SyntaxError) : Faults (syntaxError e) := fun _ => Nat.lt_succ_self _

theorem Faults.broken (rule : Rule) : Faults (broken rule) := fun _ => Nat.lt_succ_self _

theorem Faults.brokenAt (span : Span) (rule : Rule) : Faults (brokenAt span rule) :=
  fun _ => Nat.lt_succ_self _

@[simp] theorem runNextIs (sort : Kind → Bool) (s : State) : (nextIs sort).run s = (sort s.kind, s) := rfl

theorem runEat (k : Kind) (s : State) :
    (eat k).run s = if s.kind = k then (true, s.advance) else (false, s) := by
  by_cases same : s.kind = k
  · simp [eat, check, advance, same]
  · simp [eat, check, same]

theorem runEatYes {k : Kind} {s : State} (h : s.kind = k) : (eat k).run s = (true, s.advance) := by
  rw [runEat, if_pos h]

theorem runEatNo {k : Kind} {s : State} (h : s.kind ≠ k) : (eat k).run s = (false, s) := by
  rw [runEat, if_neg h]

abbrev anywhere : Kind → Prop := fun _ => True

def Progresses {α : Type} (sort : Kind → Prop) (m : Production α) : Prop :=
  ∀ s, s.isClosed → sort s.kind → (m.run s).2.left < s.left

namespace Progresses

variable {α β : Type} {sort : Kind → Prop} {m : Production α} {f : α → Production β}

theorem mono {wide : Kind → Prop} (h : Progresses wide m) (narrow : ∀ k, sort k → wide k) :
    Progresses sort m := fun s closed first => h s closed (narrow _ first)

theorem first (h : Progresses sort m) : Progresses sort (m >>= f) := fun s closed first =>
  Nat.lt_of_le_of_lt ((f _).reaches _).leftLe (h s closed first)

theorem stay (stays : Stays m) (h : ∀ a, Progresses sort (f a)) : Progresses sort (m >>= f) := by
  intro s closed first
  have last := h (m.run s).1 (m.run s).2 ((m.reaches s).isClosed closed) (by rwa [stays.kindEq])
  rwa [stays.leftEq] at last

theorem advance (more : ∀ k, sort k → k ≠ .endOfText) : Progresses sort advance :=
  fun _ closed first => State.advanceLt closed (more _ first)

theorem ifNext {p : Kind → Bool} {yes no : Production α}
    (holds : Progresses (fun k => sort k ∧ p k = true) yes)
    (fails : Progresses (fun k => sort k ∧ p k = false) no) :
    Progresses sort (nextIs p >>= fun b => if b = true then yes else no) := by
  intro s closed first
  cases h : p s.kind
  · simpa [h] using fails s closed ⟨first, h⟩
  · simpa [h] using holds s closed ⟨first, h⟩

theorem eat {k : Kind} {f : Bool → Production β} (more : k ≠ .endOfText)
    (fails : Progresses (fun k' => sort k' ∧ k' ≠ k) (f false)) : Progresses sort (eat k >>= f) := by
  intro s closed first
  by_cases same : s.kind = k
  · rw [Production.runBind, runEatYes same]
    exact Nat.lt_of_le_of_lt ((f true).reaches _).leftLe (State.advanceLt closed (same ▸ more))
  · rw [Production.runBind, runEatNo same]
    exact fails s closed ⟨first, same⟩

theorem expect {k : Kind} (more : k ≠ .endOfText) : Progresses (· = k) (expect k) := by
  refine .eat more ?_
  intro s _ ⟨same, other⟩
  exact absurd same other

theorem identWritten : Progresses (· = .identifier) identWritten := by
  refine .ifNext (.first (.advance ?_)) ?_
  · rintro k ⟨rfl, _⟩
    decide
  · rintro s _ ⟨same, other⟩
    simp [same] at other

theorem ident : Progresses (· = .identifier) ident := .first identWritten

theorem byKind {f : Kind → Production β} (h : ∀ k, sort k → Progresses (· = k) (f k)) :
    Progresses sort (currentKind >>= f) :=
  fun s closed first => h s.kind first s closed rfl

theorem synchronizeHere {set : KindSet} {s : State} (h : s.cursor.ahead = [] ∨ set.contains s.kind = true) :
    s.synchronize set = s := by
  cases tokens : s.cursor.ahead with
  | nil => simp [State.synchronize, Cursor.synchronize, tokens, Cursor.skipTo]
  | cons t rest =>
    have here : set.contains t.kind = true := by simpa [tokens, State.kind, Cursor.current] using h
    simp [State.synchronize, Cursor.synchronize, tokens, Cursor.skipTo, here]

theorem synchronizeOn {set : KindSet} {s : State} (more : 0 < s.left) (other : set.contains s.kind = false) :
    s.synchronize set = s.advance.synchronize set := by
  cases tokens : s.cursor.ahead with
  | nil => simp [State.left, tokens] at more
  | cons t rest =>
    have other : set.contains t.kind = false := by simpa [tokens, State.kind, Cursor.current] using other
    simp [State.synchronize, Cursor.synchronize, State.advance, tokens, Cursor.skipTo, other]

theorem synchronize {set : KindSet} (ends : set.contains .endOfText = true) :
    Progresses (fun k => set.contains k = false) (synchronize set) := by
  intro s closed first
  have more : s.kind ≠ .endOfText := fun ended => by simp [ended, ends] at first
  show (s.synchronize set).left < s.left
  rw [synchronizeOn (State.leftPos closed more) first]
  exact Nat.lt_of_le_of_lt (State.reachesSynchronize set _).leftLe (State.advanceLt closed more)

theorem nest {ι : Type} {placeholder : ι → Production α} {level : (ι → Production α) → ι → Production α}
    {i : ι} (h : ∀ nested, Progresses sort (level nested i)) :
    Progresses sort (ahead >>= fun tokens => nest placeholder level tokens i) := by
  intro s closed first
  show ((Grammar.nest placeholder level s.cursor.ahead i).run s).2.left < s.left
  cases s.cursor.ahead with
  | nil => exact h _ s closed first
  | cons t rest => exact h _ s closed first

end Progresses

end Boogie.Grammar
