import Boogie.Proofs.Grammar.Reads
import Boogie.Proofs.Grammar.Yields

/-! What clean runs have read. Of every run that finds nothing wrong, and that begins with fewer than `n`
tokens ahead, all of certain kinds and the first of some sort, the words that it reads stand in a relation to
what it finds. Each rule here takes that through one step of a production. -/
namespace Boogie.Grammar

open Token (Kind Word)

def Finds (inside : Kind → Prop) (n : Nat) (sort : Kind → Prop) {α : Type} (T : List Word → α → Prop)
    (m : Production α) : Prop :=
  ∀ s, s.isClosed → (∀ w ∈ s.words, inside w.kind) → s.left < n → sort s.kind →
    (m.run s).2.mistakes = s.mistakes → ∃ ws, s.words = ws ++ (m.run s).2.words ∧ T ws (m.run s).1

theorem State.Reaches.wordsSuffix {s t : State} (h : s.Reaches t) : t.words <:+ s.words :=
  h.aheadSuffix.map Token.word

theorem State.kindInside {inside : Kind → Prop} {s : State} (closed : s.isClosed)
    (within : ∀ w ∈ s.words, inside w.kind) : inside s.kind ∨ s.kind = .endOfText := by
  rw [kindOfWords closed rfl]
  cases words : s.words with
  | nil => exact .inr rfl
  | cons w ws => exact .inl (within w (words ▸ List.mem_cons_self))

namespace Finds

variable {inside : Kind → Prop} {n k : Nat} {sort : Kind → Prop} {α β : Type} {T : List Word → α → Prop}
  {U : List Word → β → Prop} {m : Production α} {f : α → Production β}

theorem mono {wide : Kind → Prop} (h : Finds inside k wide T m) (narrow : ∀ x, sort x → wide x)
    (fewer : n ≤ k) : Finds inside n sort T m :=
  fun s closed within left first => h s closed within (Nat.lt_of_lt_of_le left fewer) (narrow _ first)

theorem always (h : Finds inside n anywhere T m) : Finds inside n sort T m :=
  h.mono (fun _ _ => trivial) (Nat.le_refl n)

theorem weaken {T' : List Word → α → Prop} (h : Finds inside n sort T' m) (imp : ∀ ws a, T' ws a → T ws a) :
    Finds inside n sort T m := fun s closed within left first clean =>
  have ⟨ws, words, found⟩ := h s closed within left first clean
  ⟨ws, words, imp _ _ found⟩

theorem known (h : Finds inside n (fun x => sort x ∧ (inside x ∨ x = .endOfText)) T m) :
    Finds inside n sort T m := fun s closed within left first =>
  h s closed within left ⟨first, State.kindInside closed within⟩

theorem pure {a : α} (h : T [] a) : Finds inside n sort T (Pure.pure a) := fun _ _ _ _ _ _ => ⟨[], rfl, h⟩

theorem ends {ws : List Word} {a : α} (h : T ws a) :
    Finds inside n sort (fun ws' => T (ws ++ ws')) (Pure.pure a) := pure (by rwa [List.append_nil])

theorem follow {s : State} {after : Kind → Prop} (step : Finds inside n sort T m)
    (rest : ∀ ws a, T ws a → Finds inside k after (fun ws' => U (ws ++ ws')) (f a)) (closed : s.isClosed)
    (within : ∀ w ∈ s.words, inside w.kind) (left : s.left < n) (first : sort s.kind)
    (clean : ((m >>= f).run s).2.mistakes = s.mistakes) (fewer : (m.run s).2.left < k)
    (next : after (m.run s).2.kind) :
    ∃ ws, s.words = ws ++ ((m >>= f).run s).2.words ∧ U ws ((m >>= f).run s).1 := by
  have before := (m.reaches s).mistakesLe
  have behind := ((f (m.run s).1).reaches (m.run s).2).mistakesLe
  simp only [Production.runBind] at clean ⊢
  obtain ⟨ws, words, found⟩ := step s closed within left first (by omega)
  have within' : ∀ w ∈ (m.run s).2.words, inside w.kind := fun w mem =>
    within w ((m.reaches s).wordsSuffix.subset mem)
  obtain ⟨ws', words', found'⟩ :=
    rest ws _ found _ ((m.reaches s).isClosed closed) within' fewer next (by omega)
  exact ⟨ws ++ ws', by rw [words, words', List.append_assoc], found'⟩

theorem bind (step : Finds inside n sort T m)
    (rest : ∀ ws a, T ws a → Finds inside n anywhere (fun ws' => U (ws ++ ws')) (f a)) :
    Finds inside n sort U (m >>= f) := fun s closed within left first clean =>
  follow step rest closed within left first clean (Nat.lt_of_le_of_lt (m.reaches s).leftLe left) trivial

theorem commute {g : α → β} (step : Finds inside n sort T m) (imp : ∀ ws a, T ws a → U ws (g a)) :
    Finds inside n sort U (do return g (← m)) :=
  bind step fun ws a found => pure (by simpa using imp ws a found)

theorem progress (moves : Progresses sort m) (step : Finds inside (n + 1) sort T m)
    (rest : ∀ ws a, T ws a → Finds inside n anywhere (fun ws' => U (ws ++ ws')) (f a)) :
    Finds inside (n + 1) sort U (m >>= f) := by
  intro s closed within left first clean
  have := moves s closed first
  exact follow step rest closed within left first clean (by omega) trivial

theorem look {view : State → α} (rest : ∀ a, Finds inside n sort U (f a)) :
    Finds inside n sort U (.read view >>= f) :=
  fun s closed within left first clean => rest (view s) s closed within left first clean

theorem spanFrom {start : Span} {f : Span → Production β} (rest : ∀ span, Finds inside n sort U (f span)) :
    Finds inside n sort U (Grammar.spanFrom start >>= f) :=
  fun s closed within left first clean => rest _ s closed within left first clean

theorem fault {report : Production Unit} {f : Unit → Production β} (h : Faults report) :
    Finds inside n sort U (report >>= f) := by
  intro s _ _ _ _ clean
  have := h s
  have := ((f (report.run s).1).reaches (report.run s).2).mistakesLe
  simp only [Production.runBind] at clean
  omega

theorem given {report : Production Unit} {found : Bool} {f : Unit → Production β} (h : Faults report)
    (rest : found = false → Finds inside n sort U (f ())) :
    Finds inside n sort U (Grammar.given found report >>= f) := by
  cases found with
  | false => exact rest rfl
  | true => exact fault h

theorem heads (h : Finds inside n sort T m) :
    Finds inside n sort (fun ws a => T ws a ∧ (ws = [] ∨ sort (headKind ws))) m := by
  intro s closed within left first clean
  obtain ⟨ws, words, found⟩ := h s closed within left first clean
  refine ⟨ws, words, found, ?_⟩
  cases ws with
  | nil => exact .inl rfl
  | cons w ws =>
    rw [State.kindOfWords closed words] at first
    exact .inr first

theorem any : Finds inside n sort (fun _ _ => True) m := fun s _ _ _ _ _ =>
  have ⟨ws, words⟩ := (m.reaches s).wordsSuffix
  ⟨ws, words.symm, trivial⟩

theorem behind (join : ∀ ws ws' b, U ws' b → U (ws ++ ws') b) (rest : ∀ a, Finds inside n anywhere U (f a)) :
    Finds inside n sort U (m >>= f) :=
  bind any fun ws a _ => (rest a).weaken fun ws' b found => join ws ws' b found

theorem skip {P : β → Prop} (rest : ∀ a, Finds inside n anywhere (fun _ => P) (f a)) :
    Finds inside n sort (fun _ => P) (m >>= f) := behind (fun _ _ _ found => found) rest

theorem separated {P : α → Prop} {mark : Kind} (item : Finds inside n sort (fun _ => P) m) :
    Finds inside n sort (fun _ as => ∃ a rest, as = a :: rest ∧ P a) (Grammar.separated mark m) :=
  bind item fun _ a ofA => skip fun rest => pure ⟨a, rest, rfl, ofA⟩

theorem both {T' : List Word → α → Prop} (h : Finds inside n sort T m) (h' : Finds inside n sort T' m) :
    Finds inside n sort (fun ws a => T ws a ∧ T' ws a) m := by
  intro s closed within left first clean
  obtain ⟨ws, words, found⟩ := h s closed within left first clean
  obtain ⟨ws', words', found'⟩ := h' s closed within left first clean
  obtain rfl : ws = ws' := List.append_cancel_right (words.symm.trans words')
  exact ⟨ws, words, found, found'⟩

theorem byFirst (h : ∀ x, sort x → Finds inside n (· = x) T m) : Finds inside n sort T m :=
  fun s closed within left first => h s.kind first s closed within left rfl

theorem byKind {f : Kind → Production α} (h : ∀ x, sort x → Finds inside n (· = x) T (f x)) :
    Finds inside n sort T (currentKind >>= f) :=
  fun s closed within left first clean => h s.kind first s closed within left rfl clean

theorem ifNext {p : Kind → Bool} {yes no : Production α}
    (holds : Finds inside n (fun x => sort x ∧ p x = true) T yes)
    (fails : Finds inside n (fun x => sort x ∧ p x = false) T no) :
    Finds inside n sort T (nextIs p >>= fun b => if b = true then yes else no) := by
  intro s closed within left first
  cases h : p s.kind
  · simpa [h] using fails s closed within left ⟨first, h⟩
  · simpa [h] using holds s closed within left ⟨first, h⟩

theorem impossible (never : ∀ x, sort x → ¬inside x ∧ x ≠ .endOfText) : Finds inside n sort T m :=
  fun _ closed within _ first => absurd (State.kindInside closed within)
    (not_or.mpr (never _ first))

theorem advance (real : ∀ x, sort x → x ≠ .endOfText) :
    Finds inside n sort (fun ws t => ws = [Token.word t] ∧ sort t.kind) advance := by
  intro s closed _ _ first _
  obtain ⟨t, rest, tokens⟩ := State.aheadCons closed (real _ first)
  refine ⟨[Token.word s.cursor.current], ?_, rfl, first⟩
  simp [State.words, State.advance, Grammar.advance, tokens, Cursor.currentOfCons tokens]

theorem wordsOfKind {s : State} {x : Kind} (closed : s.isClosed) (real : x ≠ .endOfText) (same : s.kind = x) :
    ∃ text, s.words = ⟨x, text⟩ :: s.advance.words := by
  subst same
  obtain ⟨t, rest, tokens⟩ := State.aheadCons closed real
  refine ⟨t.text.toList, ?_⟩
  simp [State.words, State.advance, tokens, State.kind, Cursor.currentOfCons tokens, Token.word]

theorem token {x : Kind} {f : Token → Production α} (real : x ≠ .endOfText)
    (rest : ∀ t, t.kind = x → Finds inside k anywhere (fun ws => T (⟨x, t.text.toList⟩ :: ws)) (f t))
    (fewer : n ≤ k + 1) : Finds inside n (· = x) T (Grammar.advance >>= f) := by
  have more : ∀ y, y = x → y ≠ .endOfText := by
    rintro _ rfl
    exact real
  refine (progress (n := k) (.advance more) (advance more) fun ws t ⟨same, kind⟩ => ?_).mono (fun _ h => h) fewer
  subst same kind
  exact rest t rfl

theorem eat {x : Kind} {f : Bool → Production α} (real : x ≠ .endOfText)
    (holds : ∀ text, Finds inside k anywhere (fun ws => T (⟨x, text⟩ :: ws)) (f true))
    (fails : Finds inside n (fun y => sort y ∧ y ≠ x) T (f false)) (fewer : n ≤ k + 1) :
    Finds inside n sort T (Grammar.eat x >>= f) := by
  intro s closed within left first
  by_cases same : s.kind = x
  · simp only [Production.runBind, runEatYes same]
    have less := State.advanceLt closed (same ▸ real)
    obtain ⟨text, words⟩ := wordsOfKind closed real same
    intro clean
    obtain ⟨ws, words', found⟩ := holds text s.advance closed (fun w mem => within w (words ▸ .tail _ mem))
      (by omega) trivial clean
    exact ⟨⟨x, text⟩ :: ws, by rw [words, words', List.cons_append], found⟩
  · simp only [Production.runBind, runEatNo same]
    exact fails s closed within left ⟨first, same⟩

theorem ifEats {x : Kind} {yes no : Production α} (real : x ≠ .endOfText)
    (holds : ∀ text, Finds inside n anywhere (fun ws => T (⟨x, text⟩ :: ws)) yes)
    (fails : Finds inside (n + 1) (fun y => sort y ∧ y ≠ x) T no) :
    Finds inside (n + 1) sort T (Grammar.eat x >>= fun b => if b = true then yes else no) := by
  refine eat real (k := n) (fun text => ?_) ?_ (Nat.le_refl _)
  · simpa using holds text
  · simpa using fails

theorem expectThen {x : Kind} {f : Unit → Production α} (real : x ≠ .endOfText)
    (rest : ∀ text, Finds inside n anywhere (fun ws => T (⟨x, text⟩ :: ws)) (f ())) :
    Finds inside (n + 1) sort T (Grammar.expect x >>= f) := by
  have split : Grammar.expect x >>= f =
      Grammar.eat x >>= fun b => if b = true then f () else syntaxError (.expected x) >>= f := by
    refine Production.ext fun s => ?_
    by_cases here : s.kind = x
    · simp [Grammar.expect, Grammar.ifNext, runEatYes here]
    · simp [Grammar.expect, Grammar.ifNext, runEatNo here]
  rw [split]
  exact ifEats real rest (fault (Faults.syntaxError (.expected x)))

theorem expect {x : Kind} {f : Unit → Production α} (real : x ≠ .endOfText)
    (rest : ∀ text, Finds inside n anywhere (fun ws => T (⟨x, text⟩ :: ws)) (f ())) :
    Finds inside n sort T (Grammar.expect x >>= f) :=
  (expectThen real rest).mono (fun _ h => h) (Nat.le_succ n)

theorem identWritten {f : Ident × Bool → Production α} (rest : ∀ text span, Finds inside n anywhere
    (fun ws => T (⟨.identifier, text⟩ :: ws)) (f (⟨Reads.nameOf text, span⟩, Reads.nameOf text != String.ofList text))) :
    Finds inside (n + 1) sort T (Grammar.identWritten >>= f) := by
  have split : Grammar.identWritten >>= f = check .identifier >>= fun b =>
      if b = true then Grammar.advance >>= fun t => f (⟨Name.unescape t.text, t.span⟩, Name.unescape t.text != t.text)
      else syntaxError (.expected .identifier) >>= fun _ => currentSpan >>= fun span => f (⟨"", span⟩, false) := by
    refine Production.ext fun s => ?_
    cases here : s.kind == Kind.identifier <;> simp [Grammar.identWritten, check, here]
  rw [split]
  refine ifNext ?_ (fault (Faults.syntaxError _))
  refine (token (x := .identifier) (by decide) (fun t _ => ?_) (Nat.le_refl _)).mono ?_ (Nat.le_refl _)
  · have spelled := rest t.text.toList t.span
    rwa [Reads.nameOf, String.ofList_toList] at spelled
  · exact fun x named => by simpa using named.2

theorem ident {f : Ident → Production α} (rest : ∀ text span, Finds inside n anywhere
    (fun ws => T (⟨.identifier, text⟩ :: ws)) (f ⟨Reads.nameOf text, span⟩)) :
    Finds inside (n + 1) sort T (Grammar.ident >>= f) :=
  have step : Finds inside (n + 1) sort T (Grammar.identWritten >>= fun p => f p.1) := identWritten rest
  step

theorem rounds {ι : Type} {Q : ι → α → Prop} {T : ι → List Word → ι → Prop} {condition : Production Bool}
    {body : α → Production α} (none : ∀ i, T i [] i)
    (round : ∀ i a, Q i a → ∀ rest : α → Production α,
      (∀ j b, Q j b → Finds inside n anywhere (fun ws c => ∃ l, Q l c ∧ T j ws l) (rest b)) →
      Finds inside n anywhere (fun ws c => ∃ l, Q l c ∧ T i ws l)
        (condition >>= fun b => if b = true then body a >>= rest else Pure.pure a))
    (tokens : List Token) {i : ι} {a : α} (start : Q i a) :
    Finds inside n anywhere (fun ws b => ∃ j, Q j b ∧ T i ws j) (Grammar.rounds condition body tokens a) := by
  induction tokens generalizing i a with
  | nil => exact pure ⟨i, start, none i⟩
  | cons t tokens ih => exact round i a start _ fun j b found => ih found

section Loops

variable {ι : Type} {Q : ι → α → Prop} {T : ι → List Word → ι → Prop} {body : α → Production α}

theorem whileNext {p : Kind → Bool} (none : ∀ i, T i [] i)
    (round : ∀ i a, Q i a → Finds inside n (fun x => p x = true)
      (fun ws b => ∃ j, Q j b ∧ ∀ ws' l, T j ws' l → T i (ws ++ ws') l) (body a)) {i : ι} {a : α} (start : Q i a) :
    Finds inside n sort (fun ws b => ∃ j, Q j b ∧ T i ws j) (whileHolds (nextIs p) body a) := by
  refine look fun tokens => (rounds none (fun i a found rest more => ?_) tokens start).always
  refine ifNext ?_ (pure ⟨i, found, none i⟩)
  refine bind ((round i a found).mono (fun _ h => h.2) (Nat.le_refl n)) fun ws b ⟨j, ofB, join⟩ => ?_
  exact (more j b ofB).weaken fun ws' c ⟨l, ofC, tail⟩ => ⟨l, ofC, join ws' l tail⟩

theorem whileEats {x : Kind} (real : x ≠ .endOfText) (none : ∀ i, T i [] i)
    (round : ∀ i a text, Q i a → Finds inside n anywhere
      (fun ws b => ∃ j, Q j b ∧ ∀ ws' l, T j ws' l → T i (⟨x, text⟩ :: (ws ++ ws')) l) (body a))
    {i : ι} {a : α} (start : Q i a) :
    Finds inside n sort (fun ws b => ∃ j, Q j b ∧ T i ws j) (whileHolds (Grammar.eat x) body a) := by
  refine look fun tokens => (rounds none (fun i a found rest more => ?_) tokens start).always
  refine eat (k := n) real (fun text => ?_) (pure ⟨i, found, none i⟩) (Nat.le_succ n)
  simp only [↓reduceIte]
  refine bind (round i a text found) fun ws b ⟨j, ofB, join⟩ => ?_
  exact (more j b ofB).weaken fun ws' c ⟨l, ofC, tail⟩ => ⟨l, ofC, join ws' l tail⟩

theorem soFarNext {Q : List Word → α → Prop} {p : Kind → Bool} {before : List Word} {a : α} (known : Q before a)
    (round : ∀ before a, Q before a → Finds inside n (fun x => p x = true) (fun ws => Q (before ++ ws)) (body a)) :
    Finds inside n sort (fun ws => Q (before ++ ws)) (whileHolds (nextIs p) body a) := by
  have loop : Finds inside n sort (fun ws b => ∃ whole, Q whole b ∧ whole = before ++ ws)
      (whileHolds (nextIs p) body a) := by
    refine whileNext (T := fun before ws whole => whole = before ++ ws) (fun _ => by simp) ?_ known
    refine fun before a known => (round before a known).weaken fun ws b found => ⟨_, found, ?_⟩
    rintro ws' _ rfl
    rw [List.append_assoc]
  refine loop.weaken ?_
  rintro ws b ⟨_, found, rfl⟩
  exact found

theorem soFarEats {Q : List Word → α → Prop} {x : Kind} {before : List Word} {a : α} (known : Q before a)
    (real : x ≠ .endOfText) (round : ∀ before a text, Q before a →
      Finds inside n anywhere (fun ws => Q (before ++ ⟨x, text⟩ :: ws)) (body a)) :
    Finds inside n sort (fun ws => Q (before ++ ws)) (whileHolds (Grammar.eat x) body a) := by
  have loop : Finds inside n sort (fun ws b => ∃ whole, Q whole b ∧ whole = before ++ ws)
      (whileHolds (Grammar.eat x) body a) := by
    refine whileEats (T := fun before ws whole => whole = before ++ ws) real (fun _ => by simp) ?_ known
    refine fun before a text known => (round before a text known).weaken fun ws b found => ⟨_, found, ?_⟩
    rintro ws' _ rfl
    simp
  refine loop.weaken ?_
  rintro ws b ⟨_, found, rfl⟩
  exact found

end Loops

theorem whileEatsNever {x : Kind} (real : x ≠ .endOfText) (never : ¬inside x) {body : α → Production α} {a : α} :
    Finds inside n sort (fun ws b => ws = [] ∧ b = a) (whileHolds (Grammar.eat x) body a) := by
  intro s closed within _ _ _
  have other : s.kind ≠ x := fun same => (State.kindInside closed within).elim (same ▸ never) (same ▸ real)
  rw [whileNone looksEat (by rw [runEatNo other])]
  exact ⟨[], rfl, rfl, rfl⟩

theorem manyNever {p : Kind → Bool} (never : ∀ x, inside x ∨ x = .endOfText → p x = false) {item : Production α} :
    Finds inside n sort (fun ws as => ws = [] ∧ as = []) (many (nextIs p) item) := by
  intro s closed within _ _ _
  rw [manyNextNone (never _ (State.kindInside closed within))]
  exact ⟨[], rfl, rfl, rfl⟩

theorem whileEatsFirst {x : Kind} (real : x ≠ .endOfText) {body : α → Production α} {a : α}
    (round : ∀ text, Finds inside n anywhere (fun ws => T (⟨x, text⟩ :: ws))
      (body a >>= whileHolds (Grammar.eat x) body)) :
    Finds inside (n + 1) (· = x) T (whileHolds (Grammar.eat x) body a) := by
  intro s closed within left first
  rw [whileOnce looksEat (fun _ a closed holds => readsEat real (body a) closed holds) closed
    (by rw [runEatYes first]), runEatYes first]
  intro clean
  have less := State.advanceLt closed (first ▸ real)
  obtain ⟨text, words⟩ := wordsOfKind closed real first
  obtain ⟨ws, words', found⟩ := round text s.advance closed (fun w mem => within w (words ▸ .tail _ mem))
    (by omega) trivial clean
  exact ⟨⟨x, text⟩ :: ws, by rw [words, words', List.cons_append], found⟩

theorem manyOfRounds {R : List Word → List α → Prop} {condition : Production Bool}
    (loop : Finds inside n sort (fun ws as => ∃ j, as = j ∧ ∃ more, j = more.reverse ++ [] ∧ R ws more)
      (whileHolds condition (fun found => do return (← m) :: found) [])) :
    Finds inside n sort R (many condition m) := by
  refine commute loop fun ws as ⟨_, same, more, whole, items⟩ => ?_
  rw [same, whole, List.append_nil, List.reverse_reverse]
  exact items

inductive Items (mark : Kind) (T : List Word → α → Prop) : List Word → List α → Prop
  | nil : Items mark T [] []
  | cons {text ws a ws' as} (first : T ws a) (more : Items mark T ws' as) :
    Items mark T (⟨mark, text⟩ :: (ws ++ ws')) (a :: as)

theorem manyEats {x : Kind} (real : x ≠ .endOfText) (item : Finds inside n anywhere T m) :
    Finds inside n sort (Items x T) (many (Grammar.eat x) m) := by
  refine manyOfRounds (whileEats (Q := fun i a => a = i)
    (T := fun i ws j => ∃ more, j = more.reverse ++ i ∧ Items x T ws more) real
    (fun i => ⟨[], rfl, .nil⟩) (fun i found text same => ?_) rfl)
  subst same
  refine commute item fun ws a ofA => ⟨_, rfl, fun ws' l ⟨more, same, items⟩ => ?_⟩
  refine ⟨a :: more, ?_, .cons ofA items⟩
  rw [same, List.reverse_cons, List.append_assoc]
  rfl

inductive Row (T : List Word → α → Prop) : List Word → List α → Prop
  | nil : Row T [] []
  | cons {ws a ws' as} (first : T ws a) (more : Row T ws' as) : Row T (ws ++ ws') (a :: as)

theorem manyNext {p : Kind → Bool} (item : Finds inside n (fun x => p x = true) T m) :
    Finds inside n sort (Row T) (many (nextIs p) m) := by
  refine manyOfRounds (whileNext (Q := fun i a => a = i)
    (T := fun i ws j => ∃ more, j = more.reverse ++ i ∧ Row T ws more)
    (fun i => ⟨[], rfl, .nil⟩) (fun i found same => ?_) rfl)
  subst same
  refine commute item fun ws a ofA => ⟨_, rfl, fun ws' l ⟨more, same, items⟩ => ?_⟩
  refine ⟨a :: more, ?_, .cons ofA items⟩
  rw [same, List.reverse_cons, List.append_assoc]
  rfl

theorem manyLook {view : State → Bool} (item : Finds inside n anywhere T m) :
    Finds inside n sort (Row T) (many (.read view) m) := by
  refine manyOfRounds (look fun tokens => (rounds (Q := fun i a => a = i)
    (T := fun i ws j => ∃ more, j = more.reverse ++ i ∧ Row T ws more) (fun i => ⟨[], rfl, .nil⟩)
    (fun i found same rest next => look fun holds => ?_) tokens rfl).always)
  subst same
  split
  · refine bind (commute (U := fun ws as => ∃ a, as = a :: found ∧ T ws a) item fun ws a ofA => ⟨a, rfl, ofA⟩) ?_
    rintro ws _ ⟨a, rfl, ofA⟩
    refine (next _ _ rfl).weaken fun ws' bs ⟨l, same, more, whole, items⟩ => ⟨l, same, a :: more, ?_, .cons ofA items⟩
    rw [whole, List.reverse_cons, List.append_assoc]
    rfl
  · exact pure ⟨found, rfl, [], rfl, .nil⟩

theorem nestBelow {ι : Type} {T : ι → List Word → α → Prop} {placeholder : ι → Production α}
    {level : (ι → Production α) → ι → Production α}
    (h : ∀ k < n, ∀ nested, (∀ i, Finds inside k anywhere (T i) (nested i)) →
      ∀ i, Finds inside (k + 1) anywhere (T i) (level nested i)) (i : ι) :
    Finds inside n anywhere (T i) (ahead >>= fun tokens => Grammar.nest placeholder level tokens i) := by
  have deep (tokens : List Token) (k : Nat) (enough : k ≤ tokens.length + 1) (below : k ≤ n) (i : ι) :
      Finds inside k anywhere (T i) (Grammar.nest placeholder level tokens i) := by
    induction tokens generalizing k i with
    | nil =>
      cases k with
      | zero => exact fun _ _ _ less => absurd less (Nat.not_lt_zero _)
      | succ k =>
        have none : k = 0 := by simpa using enough
        subst none
        exact h 0 below placeholder (fun _ _ _ _ less => absurd less (Nat.not_lt_zero _)) i
    | cons t rest ih =>
      cases k with
      | zero => exact fun _ _ _ less => absurd less (Nat.not_lt_zero _)
      | succ k => exact h k below _ (ih k (by simpa using enough) (Nat.le_of_lt below)) i
  exact fun s closed within left first =>
    deep s.cursor.ahead (s.left + 1) (Nat.le_refl _) left i s closed within (Nat.lt_succ_self _) first

theorem nest {ι : Type} {T : ι → List Word → α → Prop} {placeholder : ι → Production α}
    {level : (ι → Production α) → ι → Production α}
    (h : ∀ n nested, (∀ i, Finds inside n anywhere (T i) (nested i)) →
      ∀ i, Finds inside (n + 1) anywhere (T i) (level nested i)) (i : ι) :
    Finds inside n anywhere (T i) (ahead >>= fun tokens => Grammar.nest placeholder level tokens i) :=
  nestBelow (fun k _ => h k) i

end Finds

end Boogie.Grammar
