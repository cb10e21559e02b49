import Boogie.Proofs.Chained
import Boogie.Proofs.Grammar.Yields

/-! Words put in front of others. One reading finds the words behind a point at once, another finds some more
in front of them. As long as the first reads what stands before the point, the second does the same; where it
stops just at the point, the second stops in front of what was put there. Each rule here takes that through one
step of a production. -/
namespace Boogie.Grammar

open Token (Kind KindSet Word)

/-- Words that begin no item of a statement list, go on with none, and hold nothing at which skipping ends. -/
structure IsStray (ws : List Word) : Prop where
  skipped : ∀ w ∈ ws, (statementSync.insert .semicolon).contains w.kind = false
  sound : ∀ w ∈ ws, w.kind ≠ .invalid
  first : ∀ w ∈ ws.head?, w.kind ≠ .identifier ∧ w.kind ≠ .kwElse ∧ w.kind ≠ .kwVar

structure Insertion where
  stray : List Word
  mark : Word
  behind : List Word
  tokens : List Token
  log : Log
  isStray : IsStray stray
  closes : mark.kind = .semicolon
  words : tokens.map Token.word = stray ++ mark :: behind

namespace Insertion

variable (p : Insertion)

def position : Position := (p.tokens.head?.map Token.position).getD ⟨0, 0⟩

def reported : Log := p.log.syntaxError p.position (.invalid "StmtList")

def firstKind : Kind := headKind (p.stray ++ p.mark :: p.behind)

theorem firstKindCases : p.firstKind = .semicolon ∨
    (statementSync.insert .semicolon).contains p.firstKind = false ∧
      p.firstKind ≠ .identifier ∧ p.firstKind ≠ .kwElse ∧ p.firstKind ≠ .kwVar := by
  unfold firstKind
  cases stray : p.stray with
  | nil => exact .inl p.closes
  | cons w ws =>
    refine .inr ⟨p.isStray.skipped w (stray ▸ List.mem_cons_self), p.isStray.first w ?_⟩
    rw [stray]
    rfl

theorem firstKindNe {k : Kind} (other : k ≠ .semicolon)
    (ends : (statementSync.insert .semicolon).contains k = true ∨ k = .identifier ∨ k = .kwElse ∨ k = .kwVar) :
    p.firstKind ≠ k := by
  rintro rfl
  rcases p.firstKindCases with mark | ⟨skipped, name, elsePart, var⟩
  · exact other mark
  · rcases ends with stops | is | is | is
    · rw [skipped] at stops
      exact absurd stops nofun
    · exact name is
    · exact elsePart is
    · exact var is

end Insertion

structure Before (p : Insertion) (s s' : State) : Prop where
  closed : s.isClosed
  closed' : s'.isClosed
  ahead : ∃ ts, s'.cursor.ahead = ts ++ p.tokens ∧ s.words = ts.map Token.word ++ p.behind
  silent : s.mistakes = 0 → s'.log = p.log ∧ s'.cursor.isReportDue = true

structure Resumed (log : Log) (s s' : State) : Prop where
  closed : s.isClosed
  closed' : s'.isClosed
  words : s'.words = s.words
  silent : s.mistakes = 0 → s'.log = log

namespace Before

variable {p : Insertion} {s s' : State}

theorem bound (h : Before p s s') : p.behind.length ≤ s.left := by
  obtain ⟨ts, _, words⟩ := h.ahead
  have lengths := congrArg List.length words
  simp only [State.words, List.length_map, List.length_append] at lengths
  rw [State.left]
  omega

theorem fewer (h : Before p s s') : s.left ≤ s'.left := by
  obtain ⟨ts, ahead, words⟩ := h.ahead
  have lengths := congrArg List.length words
  have lengths' := congrArg List.length p.words
  simp only [State.words, List.length_map, List.length_append, List.length_cons] at lengths lengths'
  rw [State.left, State.left, lengths, ahead, List.length_append]
  omega

theorem next (h : Before p s s') (early : p.behind.length < s.left) :
    ∃ w ws ws', s.words = w :: ws ∧ s'.words = w :: ws' := by
  obtain ⟨ts, ahead, words⟩ := h.ahead
  cases ts with
  | nil =>
    have lengths := congrArg List.length words
    simp only [State.words, List.length_map, List.map_nil, List.nil_append] at lengths
    rw [State.left] at early
    omega
  | cons t ts => exact ⟨_, _, _, words, by rw [State.words, ahead]; rfl⟩

theorem kindEq (h : Before p s s') (early : p.behind.length < s.left) : s'.kind = s.kind := by
  obtain ⟨w, ws, ws', words, words'⟩ := h.next early
  rw [State.kindOfWords h.closed words, State.kindOfWords h.closed' words']
  rfl

theorem textEq (h : Before p s s') (early : p.behind.length < s.left) :
    s.cursor.current.text = s'.cursor.current.text := by
  obtain ⟨w, ws, ws', words, words'⟩ := h.next early
  have same : Token.word s.cursor.current = Token.word s'.cursor.current := by
    rw [(State.wordsCons words).1, (State.wordsCons words').1]
  exact String.toList_inj.mp (congrArg Word.text same)

theorem advance (h : Before p s s') (early : p.behind.length < s.left) : Before p s.advance s'.advance := by
  refine ⟨h.closed, h.closed', ?_, fun clean => ?_⟩
  · obtain ⟨ts, ahead, words⟩ := h.ahead
    cases ts with
    | nil =>
      have lengths := congrArg List.length words
      simp only [State.words, List.length_map, List.map_nil, List.nil_append] at lengths
      rw [State.left] at early
      omega
    | cons t ts =>
      refine ⟨ts, ?_, ?_⟩
      · show s'.cursor.ahead.tail = _
        rw [ahead]
        rfl
      · exact (State.wordsCons words).2
  · obtain ⟨log, due⟩ := h.silent clean
    refine ⟨log, ?_⟩
    simp only [Cursor.isReportDue, decide_eq_true_eq] at due ⊢
    exact Nat.le_succ_of_le due

theorem atPoint (h : Before p s s') (here : s.left = p.behind.length) :
    s.words = p.behind ∧ s'.cursor.ahead = p.tokens := by
  obtain ⟨ts, ahead, words⟩ := h.ahead
  have lengths := congrArg List.length words
  simp only [State.words, List.length_map, List.length_append] at lengths
  rw [State.left] at here
  have none : ts = [] := List.eq_nil_of_length_eq_zero (by omega)
  subst none
  exact ⟨words, ahead⟩

theorem kindAtPoint (h : Before p s s') (here : s.left = p.behind.length) : s'.kind = p.firstKind := by
  refine State.kindOfWords h.closed' ?_
  rw [State.words, (h.atPoint here).2, p.words]

end Before

def before (p : Insertion) : Simulation where
  rel s s' := Before p s s' ∧ p.behind.length < s.left
  within s := p.behind.length < s.left
  withinBefore last more := Nat.lt_of_lt_of_le more (State.Reaches.one last).leftLe
  closed h := h.1.closed
  fewer h := h.1.fewer
  kind h := .inl (h.1.kindEq h.2)
  text h _ _ := h.1.textEq h.2
  advance h _ early := .inl ⟨h.1.advance h.2, early⟩
  syntaxError h _ := ⟨⟨h.1.closed, h.1.closed', h.1.ahead, nofun⟩, h.2⟩
  broken h _ := ⟨⟨h.1.closed, h.1.closed', h.1.ahead, nofun⟩, h.2⟩
  brokenAt h _ _ _ := ⟨⟨h.1.closed, h.1.closed', h.1.ahead, nofun⟩, h.2⟩

@[simp] theorem beforeChange (p : Insertion) : (before p).change = none := rfl

theorem Resumed.kindEq {log : Log} {s s' : State} (h : Resumed log s s') : s'.kind = s.kind := by
  rw [State.kindOfWords h.closed rfl, State.kindOfWords h.closed' h.words]

theorem Resumed.leftEq {log : Log} {s s' : State} (h : Resumed log s s') : s'.left = s.left := by
  simpa [State.words, State.left] using congrArg List.length h.words

def resumed (log : Log) : Simulation where
  rel := Resumed log
  closed h := h.closed
  fewer h := Nat.le_of_eq h.leftEq.symm
  kind h := .inl h.kindEq
  text {s s'} h more _ := by
    obtain ⟨t, rest, tokens⟩ := State.aheadCons h.closed more
    have words : s.words = Token.word t :: rest.map Token.word := by rw [State.words, tokens]; rfl
    have same : Token.word s.cursor.current = Token.word s'.cursor.current := by
      rw [(State.wordsCons words).1, (State.wordsCons (h.words.trans words)).1]
    exact String.toList_inj.mp (congrArg Word.text same)
  advance {s s'} h _ _ := by
    left
    refine ⟨h.closed, h.closed', ?_, h.silent⟩
    show s'.cursor.ahead.tail.map Token.word = s.cursor.ahead.tail.map Token.word
    rw [List.map_tail, List.map_tail]
    exact congrArg List.tail h.words
  syntaxError h _ := ⟨h.closed, h.closed', h.words, nofun⟩
  broken h _ := ⟨h.closed, h.closed', h.words, nofun⟩
  brokenAt h _ _ _ := ⟨h.closed, h.closed', h.words, nofun⟩

/-! Productions that read something, unless they find something wrong. -/

def Takes (n : Nat) {α : Type} (m : Production α) : Prop :=
  ∀ s, s.isClosed → s.left < n → (m.run s).2.mistakes = 0 → (m.run s).2.left < s.left

theorem unmarkedBefore {α : Type} {m : Production α} {s : State} (clean : (m.run s).2.mistakes = 0) :
    s.mistakes = 0 := Nat.eq_zero_of_le_zero (clean ▸ (m.reaches s).mistakesLe)

namespace Takes

variable {n : Nat} {α β : Type} {m : Production α} {f : α → Production β}

theorem first (h : Takes n m) : Takes n (m >>= f) := fun s closed left clean =>
  Nat.lt_of_le_of_lt ((f _).reaches _).leftLe (h s closed left (unmarkedBefore clean))

theorem behind (h : ∀ a, Takes n (f a)) : Takes n (m >>= f) := fun s closed left clean =>
  have less := (m.reaches s).leftLe
  Nat.lt_of_lt_of_le (h _ _ ((m.reaches s).isClosed closed) (Nat.lt_of_le_of_lt less left) clean) less

theorem expect {k : Kind} (real : k ≠ .endOfText) : Takes n (expect k) := by
  intro s closed _ clean
  by_cases here : s.kind = k
  · have same : ((Grammar.expect k).run s).2 = s.advance := by simp [Grammar.expect, ifNext, runEatYes here]
    rw [same]
    exact State.advanceLt closed (here ▸ real)
  · have same : ((Grammar.expect k).run s).2 = s.syntaxError (.expected k) := by
      simp [Grammar.expect, ifNext, runEatNo here, syntaxError]
    rw [same] at clean
    exact absurd clean (Nat.succ_ne_zero _)

theorem mark {k : Kind} {f : Unit → Production β} (real : k ≠ .endOfText) : Takes n (Grammar.expect k >>= f) :=
  (expect real).first

theorem eat {k : Kind} {f : Bool → Production β} (real : k ≠ .endOfText) (fails : Takes n (f false)) :
    Takes n (Grammar.eat k >>= f) := by
  intro s closed left clean
  by_cases here : s.kind = k
  · rw [Production.runBind, runEatYes here]
    exact Nat.lt_of_le_of_lt ((f true).reaches _).leftLe (State.advanceLt closed (here ▸ real))
  · rw [Production.runBind, runEatNo here] at clean ⊢
    exact fails s closed left clean

theorem fault {report : Production Unit} {f : Unit → Production β} (h : Faults report) : Takes n (report >>= f) := by
  intro s _ _ clean
  have := h s
  have := unmarkedBefore (m := f (report.run s).1) clean
  omega

theorem ifElse {p : Production Bool} {yes no : Production α} (holds : Takes n yes) (fails : Takes n no) :
    Takes n (p >>= fun b => if b = true then yes else no) := by
  refine behind fun b => ?_
  cases b
  · exact fails
  · exact holds

end Takes

def Nears (p : Insertion) (d n : Nat) (sort : Kind → Prop) {α : Type} (V : α → α → Prop)
    (m m' : Production α) : Prop :=
  ∀ s s', Before p s s' → p.behind.length + d ≤ s.left → s.left < n → sort s.kind →
    (m.run s).2.mistakes = 0 → p.behind.length ≤ (m.run s).2.left →
    V (m.run s).1 (m'.run s').1 ∧ Before p (m.run s).2 (m'.run s').2

namespace Nears

variable {p : Insertion} {d n k : Nat} {sort : Kind → Prop} {α β : Type} {V : α → α → Prop}
  {W : β → β → Prop} {m m' : Production α} {f f' : α → Production β}

theorem mono {d' : Nat} {wide : Kind → Prop} (h : Nears p d k wide V m m') (narrow : ∀ x, sort x → wide x)
    (fewer : n ≤ k) (less : d ≤ d') : Nears p d' n sort V m m' :=
  fun s s' row early left first => h s s' row (by omega) (Nat.lt_of_lt_of_le left fewer) (narrow _ first)

theorem ofTakes (takes : Takes n m) (h : Nears p 1 n sort V m m') : Nears p d n sort V m m' := by
  intro s s' row early left first clean stops
  have less := takes s row.closed left clean
  exact h s s' row (by omega) left first clean stops

theorem pure {a a' : α} (h : V a a') : Nears p d n sort V (Pure.pure a) (Pure.pure a') :=
  fun _ _ row _ _ _ _ _ => ⟨h, row⟩

theorem look {view : State → α} (rest : ∀ a a', Nears p d n sort W (f a) (f' a')) :
    Nears p d n sort W (.read view >>= f) (.read view >>= f') :=
  fun s s' row early left first clean stops => rest (view s) (view s') s s' row early left first clean stops

theorem spanFrom {start start' : Span} {f f' : Span → Production β}
    (rest : ∀ span span', Nears p d n sort W (f span) (f' span')) :
    Nears p d n sort W (Grammar.spanFrom start >>= f) (Grammar.spanFrom start' >>= f') :=
  fun s s' row early left first clean stops => rest _ _ s s' row early left first clean stops

theorem bind (step : Nears p d n sort V m m') (rest : ∀ a a', V a a' → Nears p 0 n anywhere W (f a) (f' a')) :
    Nears p d n sort W (m >>= f) (m' >>= f') := by
  intro s s' row early left first clean stops
  have further : p.behind.length ≤ (m.run s).2.left :=
    Nat.le_trans stops ((f (m.run s).1).reaches (m.run s).2).leftLe
  obtain ⟨found, after⟩ := step s s' row early left first (unmarkedBefore clean) further
  exact rest _ _ found _ _ after after.bound (Nat.lt_of_le_of_lt (m.reaches s).leftLe left) trivial clean stops

theorem front (step : Simulates (before p) n sort V m m') (takes : ∀ a, Takes n (f a))
    (rest : ∀ a a', V a a' → Nears p 1 n anywhere W (f a) (f' a')) :
    Nears p 1 n sort W (m >>= f) (m' >>= f') := by
  intro s s' row early left first clean stops
  have left' := Nat.lt_of_le_of_lt (m.reaches s).leftLe left
  have less := takes (m.run s).1 (m.run s).2 ((m.reaches s).isClosed row.closed) left' clean
  have later : p.behind.length < (m.run s).2.left := Nat.lt_of_le_of_lt stops less
  obtain ⟨found, after⟩ := step s s' ⟨row, by omega⟩ left first later
  exact rest _ _ found _ _ after.1 (by omega) left' trivial clean stops

theorem expect {x : Kind} {f f' : Unit → Production β} (real : x ≠ .endOfText)
    (rest : Nears p 0 (n - 1) anywhere W (f ()) (f' ())) :
    Nears p 1 n sort W (Grammar.expect x >>= f) (Grammar.expect x >>= f') := by
  intro s s' row early left first clean stops
  have kind := row.kindEq (by omega : p.behind.length < s.left)
  by_cases here : s.kind = x
  · have same : (Grammar.expect x).run s = ((), s.advance) := by simp [Grammar.expect, Grammar.ifNext, runEatYes here]
    have same' : (Grammar.expect x).run s' = ((), s'.advance) := by
      simp [Grammar.expect, Grammar.ifNext, runEatYes (kind.trans here)]
    simp only [Production.runBind, same, same'] at clean stops ⊢
    have less := State.advanceLt row.closed (here ▸ real)
    have after := row.advance (by omega : p.behind.length < s.left)
    exact rest _ _ after after.bound (by omega) trivial clean stops
  · have same : ((Grammar.expect x).run s).2 = s.syntaxError (.expected x) := by
      simp [Grammar.expect, Grammar.ifNext, runEatNo here, syntaxError]
    have marked := unmarkedBefore (m := f ((Grammar.expect x).run s).1) clean
    rw [same] at marked
    exact absurd marked (Nat.succ_ne_zero _)

theorem eat {x : Kind} {f f' : Bool → Production β} (real : x ≠ .endOfText) (other : d = 0 → p.firstKind ≠ x)
    (holds : Nears p 0 n anywhere W (f true) (f' true))
    (fails : Nears p d n (fun y => sort y ∧ y ≠ x) W (f false) (f' false)) :
    Nears p d n sort W (Grammar.eat x >>= f) (Grammar.eat x >>= f') := by
  intro s s' row early left first clean stops
  by_cases here : s.kind = x
  · rw [Production.runBind, runEatYes here] at clean stops ⊢
    dsimp only at clean stops
    have less := State.advanceLt row.closed (here ▸ real)
    have far := Nat.le_trans stops ((f true).reaches s.advance).leftLe
    have early : p.behind.length < s.left := Nat.lt_of_le_of_lt far less
    have after := row.advance early
    rw [Production.runBind, runEatYes ((row.kindEq early).trans here)]
    exact holds _ _ after after.bound (Nat.lt_trans less left) trivial clean stops
  · rw [Production.runBind, runEatNo here] at clean stops ⊢
    have here' : s'.kind ≠ x := by
      rcases Nat.lt_or_ge p.behind.length s.left with before | at_
      · rwa [row.kindEq before]
      · rw [row.kindAtPoint (Nat.le_antisymm at_ row.bound)]
        exact other (by omega)
    rw [Production.runBind, runEatNo here']
    exact fails _ _ row early left ⟨first, here⟩ clean stops

theorem ifNext {q : Kind → Bool} {yes yes' no no' : Production α}
    (holds : Nears p 1 n (fun x => sort x ∧ q x = true) V yes yes')
    (fails : Nears p 1 n (fun x => sort x ∧ q x = false) V no no') :
    Nears p 1 n sort V (nextIs q >>= fun b => if b = true then yes else no)
      (nextIs q >>= fun b => if b = true then yes' else no') := by
  intro s s' row early left first
  have same := row.kindEq early
  cases h : q s.kind
  · simpa [h, same] using fails s s' row early left ⟨first, h⟩
  · simpa [h, same] using holds s s' row early left ⟨first, h⟩

theorem byKind {f f' : Kind → Production α} (h : ∀ x, sort x → Nears p 1 n (· = x) V (f x) (f' x)) :
    Nears p 1 n sort V (currentKind >>= f) (currentKind >>= f') := by
  intro s s' row early left first
  have same := row.kindEq early
  simpa [currentKind, same] using h s.kind first s s' row early left rfl

theorem ifEats {x : Kind} {yes yes' no no' : Production α} (real : x ≠ .endOfText) (other : d = 0 → p.firstKind ≠ x)
    (holds : Nears p 0 n anywhere V yes yes') (fails : Nears p d n (fun y => sort y ∧ y ≠ x) V no no') :
    Nears p d n sort V (Grammar.eat x >>= fun b => if b = true then yes else no)
      (Grammar.eat x >>= fun b => if b = true then yes' else no') := by
  refine eat real other ?_ ?_
  · simpa using holds
  · simpa using fails

theorem manyNext {α : Type} [Spanned α] {item item' : Production α} {q : Kind → Bool} (never : q p.firstKind = false)
    (moves : Progresses (fun x => q x = true) item) (moves' : Progresses (fun x => q x = true) item')
    (step : Nears p 1 n (fun x => q x = true) Alike item item') :
    Nears p 0 n sort Alike (many (nextIs q) item) (many (nextIs q) item') := by
  have once {item : Production α} (moves : Progresses (fun x => q x = true) item) {s : State} (closed : s.isClosed)
      (holds : q s.kind = true) : (many (nextIs q) item).run s =
        (do let a ← item; let as ← many (nextIs q) item; return a :: as).run s :=
    manyOnce looksNext (fun s closed holds => moves s closed holds) closed holds
  intro s s' row _ left first clean stops
  clear first
  induction count : s.left using Nat.strongRecOn generalizing s s' with
  | _ c ih =>
    subst count
    cases holds : q s.kind with
    | false =>
      have holds' : q s'.kind = false := by
        rcases Nat.lt_or_ge p.behind.length s.left with before | at_
        · rwa [row.kindEq before]
        · rwa [row.kindAtPoint (Nat.le_antisymm at_ row.bound)]
      rw [manyNextNone holds, manyNextNone holds']
      exact ⟨rfl, row⟩
    | true =>
      rw [once moves row.closed holds] at clean stops ⊢
      have less := moves s row.closed holds
      simp only [Production.runBind, Production.runPure] at clean stops ⊢
      have far := Nat.le_trans stops ((many (nextIs q) item).reaches (item.run s).2).leftLe
      have early : p.behind.length < s.left := Nat.lt_of_le_of_lt far less
      rw [once moves' row.closed' (by rwa [row.kindEq early])]
      obtain ⟨one, after⟩ := step s s' row early left holds (unmarkedBefore clean) far
      obtain ⟨more, last⟩ := ih _ less _ _ after after.bound (Nat.lt_trans less left) clean stops rfl
      exact ⟨one.cons more, last⟩

theorem fault {report : Production Unit} {f f' : Unit → Production β} (h : Faults report) :
    Nears p d n sort W (report >>= f) (report >>= f') := by
  intro s s' _ _ _ _ clean
  have := h s
  have := unmarkedBefore (m := f (report.run s).1) clean
  omega

end Nears

structure Point where
  offset : Nat → Nat
  total : Nat
  place : Nat
  apart : ∀ i j, i < j → j ≤ total → offset i < offset j
  within : place ≤ total

namespace Point

variable (pt : Point)

def start : Nat := pt.offset pt.place

theorem offsetLe {i j : Nat} (le : i ≤ j) (within : j ≤ pt.total) : pt.offset i ≤ pt.offset j := by
  rcases Nat.lt_or_eq_of_le le with less | same
  · exact Nat.le_of_lt (pt.apart i j less within)
  · exact Nat.le_of_eq (congrArg pt.offset same)

theorem placeOfStart {i : Nat} (within : i ≤ pt.total) (same : pt.start = pt.offset i) : pt.place = i := by
  rcases Nat.lt_trichotomy pt.place i with less | here | more
  · exact absurd same (Nat.ne_of_lt (pt.apart _ _ less within))
  · exact here
  · exact absurd same (Nat.ne_of_gt (pt.apart _ _ more pt.within))

end Point

structure Placed (pt : Point) (s : State) : Prop where
  closed : s.isClosed
  starts : (s.cursor.ahead.map fun t => t.span.start) = (List.range' (pt.total - s.left) s.left).map pt.offset
  finish : s.cursor.finish.span.start = pt.offset pt.total
  bound : s.left ≤ pt.total

theorem Placed.reached {pt : Point} {s t : State} (h : Placed pt s) (row : s.Reaches t) : Placed pt t := by
  obtain ⟨front, ahead⟩ := row.aheadSuffix
  have bound := h.bound
  have lengths : front.length + t.left = s.left := by
    rw [State.left, State.left, ← ahead, List.length_append]
  have starts := h.starts
  rw [← ahead, List.map_append, ← lengths, ← List.range'_append_1, List.map_append] at starts
  have behind := List.append_inj_right starts (by simp)
  refine ⟨row.isClosed h.closed, ?_, row.finishEq ▸ h.finish, by omega⟩
  rw [behind]
  congr 2
  omega

theorem Placed.current {pt : Point} {s : State} (h : Placed pt s) :
    s.cursor.current.span.start = pt.offset (pt.total - s.left) := by
  have starts := h.starts
  cases ahead : s.cursor.ahead with
  | nil => simp [Cursor.currentOfNil ahead, h.finish, State.left, ahead]
  | cons t rest =>
    rw [ahead, State.left, ahead, List.length_cons, List.range'_succ, List.map_cons, List.map_cons] at starts
    rw [Cursor.currentOfCons ahead, (List.cons.inj starts).1, State.left, ahead, List.length_cons]

section Absorbs

variable (pt : Point)

def Absorbs (d n : Nat) (sort : Kind → Prop) {α : Type} (Q : α → Prop) (V : α → α → Prop)
    (m m' : Production α) : Prop :=
  ∀ s, Placed pt s → s.left < n → sort s.kind → (m.run s).2.mistakes = 0 → Q (m.run s).1 →
    pt.total + d ≤ pt.place + s.left ∧ ∀ p s', pt.total = pt.place + p.behind.length → Before p s s' →
      V (m.run s).1 (m'.run s').1 ∧ Resumed p.reported (m.run s).2 (m'.run s').2

namespace Absorbs

variable {pt} {d n k : Nat} {sort : Kind → Prop} {α β : Type} {P : α → Prop} {Q : β → Prop}
  {V : α → α → Prop} {W : β → β → Prop} {m m' : Production α} {f f' : α → Production β}

theorem mono {d' : Nat} {wide : Kind → Prop} (h : Absorbs pt d k wide P V m m')
    (narrow : ∀ x, sort x → wide x) (fewer : n ≤ k) (less : d' ≤ d) :
    Absorbs pt d' n sort P V m m' := fun s placed left first clean found =>
  have ⟨early, matched⟩ := h s placed (Nat.lt_of_lt_of_le left fewer) (narrow _ first) clean found
  ⟨by omega, matched⟩

theorem never (h : ∀ s, ¬P (m.run s).1) : Absorbs pt d n sort P V m m' :=
  fun s _ _ _ _ found => absurd found (h s)

theorem pure {a a' : α} (h : ¬P a) : Absorbs pt d n sort P V (Pure.pure a) (Pure.pure a') := never fun _ => h

theorem look {view : State → α} (rest : ∀ a a', Absorbs pt d n sort Q W (f a) (f' a')) :
    Absorbs pt d n sort Q W (.read view >>= f) (.read view >>= f') := fun s placed left first clean found =>
  ⟨(rest (view s) (view s) s placed left first clean found).1, fun p s' same row =>
    (rest (view s) (view s') s placed left first clean found).2 p s' same row⟩

theorem front (reflexive : ∀ a, V a a) (step : ∀ p, Simulates (before p) n sort V m m')
    (rest : ∀ a a', V a a' → Absorbs pt 1 n anywhere Q W (f a) (f' a')) :
    Absorbs pt 1 n sort Q W (m >>= f) (m' >>= f') := by
  intro s placed left first clean found
  have less := (m.reaches s).leftLe
  have left' := Nat.lt_of_le_of_lt less left
  have after := placed.reached (m.reaches s)
  refine ⟨?_, fun p s' same row => ?_⟩
  · have early := (rest _ _ (reflexive _) _ after left' trivial clean found).1
    omega
  · have early := (rest _ _ (reflexive _) _ after left' trivial clean found).1
    have later : p.behind.length < (m.run s).2.left := by omega
    obtain ⟨one, row⟩ := step p s s' ⟨row, Nat.lt_of_lt_of_le later less⟩ left first later
    exact (rest _ _ one _ after left' trivial clean found).2 p _ same row.1

theorem either (reflexive : ∀ a, V a a) (absorbs : Absorbs pt 0 n sort P V m m')
    (nears : ∀ p, Nears p 0 n sort V m m')
    (after : ∀ log a a', V a a' → Simulates (resumed log) n anywhere W (f a) (f' a'))
    (rest : ∀ a a', V a a' → Absorbs pt 0 n anywhere (fun b => Q b ∧ ¬P a) W (f a) (f' a')) :
    Absorbs pt 0 n sort Q W (m >>= f) (m' >>= f') := by
  intro s placed left first clean found
  have less := (m.reaches s).leftLe
  have left' := Nat.lt_of_le_of_lt less left
  have placed' := placed.reached (m.reaches s)
  by_cases here : P (m.run s).1
  · obtain ⟨early, matched⟩ := absorbs s placed left first (unmarkedBefore clean) here
    refine ⟨early, fun p s' same row => ?_⟩
    obtain ⟨one, row⟩ := matched p s' same row
    exact after p.reported _ _ one _ _ row left' trivial trivial
  · have early := (rest _ _ (reflexive _) _ placed' left' trivial clean ⟨found, here⟩).1
    refine ⟨by omega, fun p s' same row => ?_⟩
    obtain ⟨one, row⟩ := nears p s s' row row.bound left first (unmarkedBefore clean) (by omega)
    exact (rest _ _ one _ placed' left' trivial clean ⟨found, here⟩).2 p _ same row

theorem near (reflexive : ∀ a, V a a) (nears : ∀ p, Nears p 0 n sort V m m')
    (rest : ∀ a a', V a a' → Absorbs pt 0 n anywhere Q W (f a) (f' a')) :
    Absorbs pt 0 n sort Q W (m >>= f) (m' >>= f') := by
  intro s placed left first clean found
  have less := (m.reaches s).leftLe
  have left' := Nat.lt_of_le_of_lt less left
  have placed' := placed.reached (m.reaches s)
  have early := (rest _ _ (reflexive _) _ placed' left' trivial clean found).1
  refine ⟨by omega, fun p s' same row => ?_⟩
  obtain ⟨one, row⟩ := nears p s s' row row.bound left first (unmarkedBefore clean) (by omega)
  exact (rest _ _ one _ placed' left' trivial clean found).2 p _ same row

theorem last (absorbs : Absorbs pt d n sort P V m m')
    (after : ∀ log a a', V a a' → Simulates (resumed log) n anywhere W (f a) (f' a'))
    (part : ∀ a s, Q ((f a).run s).1 → P a) : Absorbs pt d n sort Q W (m >>= f) (m' >>= f') := by
  intro s placed left first clean found
  have left' := Nat.lt_of_le_of_lt (m.reaches s).leftLe left
  obtain ⟨early, matched⟩ := absorbs s placed left first (unmarkedBefore clean) (part _ _ found)
  refine ⟨early, fun p s' same row => ?_⟩
  obtain ⟨one, row⟩ := matched p s' same row
  exact after p.reported _ _ one _ _ row left' trivial trivial

theorem expect {x : Kind} {f f' : Unit → Production β} (real : x ≠ .endOfText)
    (rest : Absorbs pt 0 (n - 1) anywhere Q W (f ()) (f' ())) :
    Absorbs pt 1 n sort Q W (Grammar.expect x >>= f) (Grammar.expect x >>= f') := by
  intro s placed left first clean found
  by_cases here : s.kind = x
  · have run (t : State) (same : t.kind = x) : (Grammar.expect x).run t = ((), t.advance) := by
      simp [Grammar.expect, Grammar.ifNext, runEatYes same]
    rw [Production.runBind, run s here] at clean found ⊢
    have less := State.advanceLt placed.closed (here ▸ real)
    have placed' := placed.reached (.one (.advance s))
    obtain ⟨early, matched⟩ := rest s.advance placed' (by omega) trivial clean found
    refine ⟨by omega, fun p s' same row => ?_⟩
    have before : p.behind.length < s.left := by omega
    rw [Production.runBind, run s' ((row.kindEq before).trans here)]
    exact matched p _ same (row.advance before)
  · have same : ((Grammar.expect x).run s).2 = s.syntaxError (.expected x) := by
      simp [Grammar.expect, Grammar.ifNext, runEatNo here, syntaxError]
    have marked := unmarkedBefore (m := f ((Grammar.expect x).run s).1) clean
    rw [same] at marked
    exact absurd marked (Nat.succ_ne_zero _)

theorem ifEats {x : Kind} {yes yes' no no' : Production β} (real : x ≠ .endOfText)
    (holds : Absorbs pt 0 n anywhere Q W yes yes') (fails : Absorbs pt 1 n anywhere Q W no no') :
    Absorbs pt 1 n sort Q W (Grammar.eat x >>= fun b => if b = true then yes else no)
      (Grammar.eat x >>= fun b => if b = true then yes' else no') := by
  intro s placed left first clean found
  by_cases here : s.kind = x
  · simp only [Production.runBind, runEatYes here, ↓reduceIte] at clean found ⊢
    have less := State.advanceLt placed.closed (here ▸ real)
    have placed' := placed.reached (.one (.advance s))
    obtain ⟨early, matched⟩ := holds s.advance placed' (Nat.lt_trans less left) trivial clean found
    refine ⟨by omega, fun p s' same row => ?_⟩
    have before : p.behind.length < s.left := by omega
    simp only [runEatYes ((row.kindEq before).trans here), ↓reduceIte]
    exact matched p _ same (row.advance before)
  · simp only [Production.runBind, runEatNo here, Bool.false_eq_true, ↓reduceIte] at clean found ⊢
    obtain ⟨early, matched⟩ := fails s placed left trivial clean found
    refine ⟨early, fun p s' same row => ?_⟩
    have before : p.behind.length < s.left := by omega
    have here' : s'.kind ≠ x := by rwa [row.kindEq before]
    simp only [runEatNo here', Bool.false_eq_true, ↓reduceIte]
    exact matched p _ same row

theorem ifNext {q : Kind → Bool} {yes yes' no no' : Production α}
    (holds : Absorbs pt 1 n (fun x => sort x ∧ q x = true) P V yes yes')
    (fails : Absorbs pt 1 n (fun x => sort x ∧ q x = false) P V no no') :
    Absorbs pt 1 n sort P V (nextIs q >>= fun b => if b = true then yes else no)
      (nextIs q >>= fun b => if b = true then yes' else no') := by
  intro s placed left first clean found
  cases h : q s.kind
  · simp only [Production.runBind, runNextIs, h, Bool.false_eq_true, ↓reduceIte] at clean found ⊢
    obtain ⟨early, matched⟩ := fails s placed left ⟨first, h⟩ clean found
    refine ⟨early, fun p s' same row => ?_⟩
    have kind := row.kindEq (by omega)
    simpa [kind, h] using matched p s' same row
  · simp only [Production.runBind, runNextIs, h, ↓reduceIte] at clean found ⊢
    obtain ⟨early, matched⟩ := holds s placed left ⟨first, h⟩ clean found
    refine ⟨early, fun p s' same row => ?_⟩
    have kind := row.kindEq (by omega)
    simpa [kind, h] using matched p s' same row

theorem byKind {f f' : Kind → Production α} (h : ∀ x, sort x → Absorbs pt 1 n (· = x) P V (f x) (f' x)) :
    Absorbs pt 1 n sort P V (currentKind >>= f) (currentKind >>= f') := by
  intro s placed left first clean found
  obtain ⟨early, matched⟩ := h s.kind first s placed left rfl clean found
  refine ⟨early, fun p s' same row => ?_⟩
  have kind := row.kindEq (by omega)
  simpa [currentKind, kind] using matched p s' same row

theorem fault {report : Production Unit} {f f' : Unit → Production β} (h : Faults report) :
    Absorbs pt d n sort Q W (report >>= f) (report >>= f') := by
  intro s _ _ _ clean
  have := h s
  have := unmarkedBefore (m := f (report.run s).1) clean
  omega

end Absorbs

end Absorbs

end Boogie.Grammar
