import Boogie.Proofs.Grammar.Simulation
import Boogie.Proofs.Token.Words

/-! What is read of given words. A production reads some words when, wherever these words and certain others
behind them are ahead, it reads them and stops there, and finds nothing wrong. Each rule here takes that
through one step of a production. -/
namespace Boogie.Grammar

open Token (Kind KindSet Word)

def State.words (s : State) : List Word := s.cursor.ahead.map Token.word

/-- The kind of the first of some words; behind all words the text ends. -/
def headKind (ws : List Word) : Kind := (ws.head?.map Word.kind).getD .endOfText

@[simp] theorem headKindNil : headKind [] = .endOfText := rfl

@[simp] theorem headKindCons (w : Word) (ws : List Word) : headKind (w :: ws) = w.kind := rfl

namespace State

theorem kindOfWords {s : State} (closed : s.isClosed) {ws : List Word} (words : s.words = ws) :
    s.kind = headKind ws := by
  subst words
  cases tokens : s.cursor.ahead with
  | nil => rw [kindOfNil closed tokens, State.words, tokens]; rfl
  | cons t rest =>
    rw [kind, Cursor.currentOfCons tokens, State.words, tokens]
    rfl

theorem wordsCons {s : State} {w : Word} {ws : List Word} (words : s.words = w :: ws) :
    Token.word s.cursor.current = w ∧ s.advance.words = ws := by
  cases tokens : s.cursor.ahead with
  | nil => simp [State.words, tokens] at words
  | cons t rest =>
    rw [State.words, tokens] at words
    obtain ⟨rfl, rfl⟩ := List.cons.inj words
    rw [Cursor.currentOfCons tokens]
    exact ⟨rfl, by simp [State.words, State.advance, tokens]⟩

end State

/-- Where the words `ws` are ahead and `rest` behind them, just these are read, nothing is found wrong, and
what is found has the property. -/
def Reads {α : Type} (ws rest : List Word) (V : α → Prop) (m : Production α) : Prop :=
  ∀ s, s.isClosed → s.words = ws ++ rest →
    V (m.run s).1 ∧ (m.run s).2.words = rest ∧ (m.run s).2.mistakes = s.mistakes

namespace Reads

variable {α β : Type} {ws ws' rest : List Word} {w : Word} {k : Kind} {V V' : α → Prop} {W : β → Prop}
  {m : Production α} {f : α → Production β}

theorem pure {a : α} (h : V a) : Reads [] rest V (Pure.pure a) := fun _ _ words => ⟨h, words, rfl⟩

theorem weaken (h : Reads ws rest V' m) (imp : ∀ a, V' a → V a) : Reads ws rest V m := fun s closed words =>
  have ⟨found, after⟩ := h s closed words
  ⟨imp _ found, after⟩

theorem bind (step : Reads ws (ws' ++ rest) V m) (next : ∀ a, V a → Reads ws' rest W (f a)) :
    Reads (ws ++ ws') rest W (m >>= f) := by
  intro s closed words
  obtain ⟨found, after, clean⟩ := step s closed (words.trans (List.append_assoc ws ws' rest))
  obtain ⟨found', after', clean'⟩ := next _ found _ ((m.reaches s).isClosed closed) after
  exact ⟨found', after', clean'.trans clean⟩

theorem last (step : Reads ws rest V m) (next : ∀ a, V a → Reads [] rest W (f a)) :
    Reads ws rest W (m >>= f) := by
  have whole : Reads (ws ++ []) rest W (m >>= f) := bind step next
  rwa [List.append_nil] at whole

theorem stay (step : Reads [] (ws ++ rest) V m) (next : ∀ a, V a → Reads ws rest W (f a)) :
    Reads ws rest W (m >>= f) := show Reads ([] ++ ws) rest W (m >>= f) from bind step next

theorem look {view : State → α} (next : ∀ a, Reads ws rest W (f a)) :
    Reads ws rest W (Production.read view >>= f) :=
  stay (V := fun _ => True) (fun _ _ words => ⟨trivial, words, rfl⟩) fun a _ => next a

theorem spanFrom {start : Span} {f : Span → Production β} (next : ∀ span, Reads ws rest W (f span)) :
    Reads ws rest W (Grammar.spanFrom start >>= f) :=
  stay (V := fun _ => True) (fun _ _ words => ⟨trivial, words, rfl⟩) fun a _ => next a

theorem unreported {report : Production Unit} {f : Unit → Production β} (next : Reads ws rest W (f ())) :
    Reads ws rest W (given false report >>= f) := next

theorem byKind {f : Kind → Production β} (kind : headKind (ws ++ rest) = k) (next : Reads ws rest W (f k)) :
    Reads ws rest W (currentKind >>= f) := by
  intro s closed words
  have here : s.kind = k := (State.kindOfWords closed words).trans kind
  simpa [currentKind, here] using next s closed words

theorem ifYes {p : Kind → Bool} {yes no : Production α} (holds : p (headKind (ws ++ rest)) = true)
    (next : Reads ws rest V yes) : Reads ws rest V (nextIs p >>= fun b => if b = true then yes else no) := by
  intro s closed words
  have here : p s.kind = true := by rwa [State.kindOfWords closed words]
  simpa [here] using next s closed words

theorem ifNo {p : Kind → Bool} {yes no : Production α} (fails : p (headKind (ws ++ rest)) = false)
    (next : Reads ws rest V no) : Reads ws rest V (nextIs p >>= fun b => if b = true then yes else no) := by
  intro s closed words
  have here : p s.kind = false := by rwa [State.kindOfWords closed words]
  simpa [here] using next s closed words

theorem advance {f : Token → Production β} (next : ∀ t, Token.word t = w → Reads ws rest W (f t)) :
    Reads (w :: ws) rest W (Grammar.advance >>= f) := by
  have step : Reads [w] (ws ++ rest) (fun t => Token.word t = w) Grammar.advance := fun s closed words =>
    have ⟨here, after⟩ := State.wordsCons words
    ⟨here, after, rfl⟩
  exact bind step next

theorem eatYes {f : Bool → Production β} (kind : w.kind = k) (next : Reads ws rest W (f true)) :
    Reads (w :: ws) rest W (Grammar.eat k >>= f) := by
  intro s closed words
  have here : s.kind = k := (State.kindOfWords closed words).trans kind
  obtain ⟨_, after⟩ := State.wordsCons words
  rw [Production.runBind, runEatYes here]
  exact next _ closed after

theorem eatNo {f : Bool → Production β} (other : headKind (ws ++ rest) ≠ k) (next : Reads ws rest W (f false)) :
    Reads ws rest W (Grammar.eat k >>= f) := by
  intro s closed words
  have here : s.kind ≠ k := by rwa [State.kindOfWords closed words]
  rw [Production.runBind, runEatNo here]
  exact next s closed words

theorem expect {f : Unit → Production β} (kind : w.kind = k) (next : Reads ws rest W (f ())) :
    Reads (w :: ws) rest W (Grammar.expect k >>= f) := by
  have step : Reads [w] (ws ++ rest) (fun _ => True) (Grammar.expect k) := eatYes kind (pure trivial)
  exact bind step fun _ _ => next

theorem expectLast {f : Unit → Production β} (kind : w.kind = k) (next : Reads [] rest W (f ())) :
    Reads [w] rest W (Grammar.expect k >>= f) := expect kind next

def nameOf (text : List Char) : String := Name.unescape (String.ofList text)

theorem identWritten {text : List Char} {f : Ident × Bool → Production β}
    (next : ∀ span, Reads ws rest W (f (⟨nameOf text, span⟩, nameOf text != String.ofList text))) :
    Reads (⟨.identifier, text⟩ :: ws) rest W (Grammar.identWritten >>= f) := by
  have step : Reads [⟨.identifier, text⟩] (ws ++ rest)
      (fun p => ∃ span, p = (⟨nameOf text, span⟩, nameOf text != String.ofList text)) Grammar.identWritten := by
    refine ifYes rfl (advance fun t same => pure ⟨t.span, ?_⟩)
    have spelled : t.text.toList = text := congrArg Word.text same
    have written : t.text = String.ofList text := by rw [← spelled, String.ofList_toList]
    rw [nameOf, written]
  refine bind step ?_
  rintro _ ⟨span, rfl⟩
  exact next span

theorem ident {text : List Char} {f : Ident → Production β}
    (next : ∀ span, Reads ws rest W (f ⟨nameOf text, span⟩)) :
    Reads (⟨.identifier, text⟩ :: ws) rest W (Grammar.ident >>= f) :=
  have step : Reads (⟨.identifier, text⟩ :: ws) rest W (Grammar.identWritten >>= fun p => f p.1) := identWritten next
  step

theorem commute {m : Production α} {f : α → β} {W : β → Prop} (step : Reads ws rest V m)
    (next : ∀ a, V a → W (f a)) : Reads ws rest W (do return f (← m)) :=
  last step fun a found => pure (next a found)

end Reads

theorem roundsEnough {σ : Type} {condition : Production Bool} {body : σ → Production σ}
    (looks : ∀ s, (condition.run s).1 = false → (condition.run s).2 = s)
    (reads : ∀ s a, s.isClosed → (condition.run s).1 = true →
      ((body a).run (condition.run s).2).2.left < s.left)
    (tokens tokens' : List Token) (s : State) (a : σ) (closed : s.isClosed) (enough : s.left ≤ tokens.length)
    (enough' : s.left ≤ tokens'.length) :
    (rounds condition body tokens a).run s = (rounds condition body tokens' a).run s := by
  induction tokens generalizing tokens' s a with
  | nil =>
    cases tokens' with
    | nil => rfl
    | cons t' rest' =>
      cases holds : (condition.run s).1 with
      | false => simp [rounds, holds, looks s holds]
      | true =>
        have := reads s a closed holds
        simp only [List.length_nil] at enough
        omega
  | cons t rest ih =>
    cases tokens' with
    | nil =>
      cases holds : (condition.run s).1 with
      | false => simp [rounds, holds, looks s holds]
      | true =>
        have := reads s a closed holds
        simp only [List.length_nil] at enough'
        omega
    | cons t' rest' =>
      cases holds : (condition.run s).1 with
      | false => simp [rounds, holds]
      | true =>
        have less := reads s a closed holds
        have after : State.isClosed ((body a).run (condition.run s).2).2 :=
          ((condition.reaches s).trans ((body a).reaches _)).isClosed closed
        simp only [List.length_cons] at enough enough'
        simpa [rounds, holds] using ih rest' _ ((body a).run (condition.run s).2).1 after (by omega) (by omega)

theorem whileOnce {σ : Type} {condition : Production Bool} {body : σ → Production σ}
    (looks : ∀ s, (condition.run s).1 = false → (condition.run s).2 = s)
    (reads : ∀ s a, s.isClosed → (condition.run s).1 = true →
      ((body a).run (condition.run s).2).2.left < s.left)
    {s : State} {a : σ} (closed : s.isClosed) (holds : (condition.run s).1 = true) :
    (whileHolds condition body a).run s = (body a >>= whileHolds condition body).run (condition.run s).2 := by
  have less := reads s a closed holds
  have after : State.isClosed ((body a).run (condition.run s).2).2 :=
    ((condition.reaches s).trans ((body a).reaches _)).isClosed closed
  show (rounds condition body s.cursor.ahead a).run s = (rounds condition body _ _).run _
  cases tokens : s.cursor.ahead with
  | nil => simp [State.left, tokens] at less
  | cons t rest =>
    have enough : State.left ((body a).run (condition.run s).2).2 ≤ rest.length := by
      simp only [State.left, tokens, List.length_cons] at less ⊢
      omega
    simpa [rounds, holds, ahead] using roundsEnough looks reads rest _ _ ((body a).run (condition.run s).2).1 after
      enough (Nat.le_refl _)

theorem whileNone {σ : Type} {condition : Production Bool} {body : σ → Production σ}
    (looks : ∀ s, (condition.run s).1 = false → (condition.run s).2 = s)
    {s : State} {a : σ} (fails : (condition.run s).1 = false) :
    (whileHolds condition body a).run s = (a, s) := by
  show (rounds condition body s.cursor.ahead a).run s = (a, s)
  cases s.cursor.ahead with
  | nil => rfl
  | cons t rest => simp [rounds, fails, looks s fails]

theorem looksNext {p : Kind → Bool} (s : State) (_ : ((nextIs p).run s).1 = false) : ((nextIs p).run s).2 = s :=
  rfl

theorem looksEat {k : Kind} (s : State) (fails : ((eat k).run s).1 = false) : ((eat k).run s).2 = s := by
  rw [runEat] at fails ⊢
  split at fails
  · contradiction
  · rename_i other
    rw [if_neg other]

theorem readsEat {α : Type} {k : Kind} (real : k ≠ .endOfText) (m : Production α) {s : State}
    (closed : s.isClosed) (holds : ((eat k).run s).1 = true) : (m.run ((eat k).run s).2).2.left < s.left := by
  rw [runEat] at holds ⊢
  split at holds
  · rename_i same
    rw [if_pos same]
    exact Nat.lt_of_le_of_lt (m.reaches _).leftLe (State.advanceLt closed (same ▸ real))
  · contradiction

namespace Reads

variable {σ : Type} {ws ws' rest : List Word} {w : Word} {k : Kind} {p : Kind → Bool} {V W : σ → Prop}
  {body : σ → Production σ} {a : σ}

theorem whileDone (fails : p (headKind rest) = false) (found : V a) :
    Reads [] rest V (whileHolds (nextIs p) body a) := by
  intro s closed words
  have here : p s.kind = false := by rwa [State.kindOfWords closed words]
  rw [whileNone looksNext here]
  exact ⟨found, words, rfl⟩

theorem whileRound (moves : ∀ a, Progresses (fun k => p k = true) (body a))
    (holds : p (headKind (ws ++ (ws' ++ rest))) = true) (step : Reads ws (ws' ++ rest) V (body a))
    (next : ∀ a, V a → Reads ws' rest W (whileHolds (nextIs p) body a)) :
    Reads (ws ++ ws') rest W (whileHolds (nextIs p) body a) := by
  intro s closed words
  have here : p s.kind = true := by rwa [State.kindOfWords closed words, List.append_assoc]
  rw [whileOnce looksNext (fun s a closed holds => moves a s closed holds) closed here]
  exact bind step next s closed words

theorem whileEatsDone (other : headKind rest ≠ k) (found : V a) :
    Reads [] rest V (whileHolds (Grammar.eat k) body a) := by
  intro s closed words
  have here : s.kind ≠ k := by rwa [State.kindOfWords closed words]
  rw [whileNone looksEat (by rw [runEatNo here])]
  exact ⟨found, words, rfl⟩

theorem whileEatsRound (real : k ≠ .endOfText) (kind : w.kind = k) (step : Reads ws (ws' ++ rest) V (body a))
    (next : ∀ a, V a → Reads ws' rest W (whileHolds (Grammar.eat k) body a)) :
    Reads (w :: (ws ++ ws')) rest W (whileHolds (Grammar.eat k) body a) := by
  intro s closed words
  have here : s.kind = k := (State.kindOfWords closed words).trans kind
  rw [whileOnce looksEat (fun _ a closed holds => readsEat real (body a) closed holds) closed
    (by rw [runEatYes here]), runEatYes here]
  exact bind step next s.advance closed (State.wordsCons words).2

end Reads

def addItem {α : Type} (item : Production α) (found : List α) : Production (List α) := do
  return (← item) :: found

theorem roundsAppend {α : Type} {condition : Production Bool} {item : Production α} (tokens : List Token)
    (found : List α) (s : State) :
    (rounds condition (addItem item) tokens found).run s =
      (((rounds condition (addItem item) tokens []).run s).1 ++ found,
        ((rounds condition (addItem item) tokens []).run s).2) := by
  induction tokens generalizing found s with
  | nil => rfl
  | cons t rest ih =>
    cases holds : (condition.run s).1 with
    | false => simp [rounds, holds]
    | true =>
      have one := ih [(item.run (condition.run s).2).1] (item.run (condition.run s).2).2
      have more := ih ((item.run (condition.run s).2).1 :: found) (item.run (condition.run s).2).2
      simp only [rounds, addItem, Production.runBind, holds, ↓reduceIte, Production.runPure] at one more ⊢
      rw [one, more]
      simp

theorem manyOnce {α : Type} {condition : Production Bool} {item : Production α}
    (looks : ∀ s, (condition.run s).1 = false → (condition.run s).2 = s)
    (reads : ∀ s, s.isClosed → (condition.run s).1 = true → (item.run (condition.run s).2).2.left < s.left)
    {s : State} (closed : s.isClosed) (holds : (condition.run s).1 = true) :
    (many condition item).run s =
      (do let a ← item; let as ← many condition item; return a :: as).run (condition.run s).2 := by
  have less (s : State) (found : List α) : s.isClosed → (condition.run s).1 = true →
      ((addItem item found).run (condition.run s).2).2.left < s.left := reads s
  have once : (whileHolds condition (addItem item) []).run s =
      (whileHolds condition (addItem item) [(item.run (condition.run s).2).1]).run
        (item.run (condition.run s).2).2 := whileOnce looks less closed holds
  have more (a : α) (t : State) : (whileHolds condition (addItem item) [a]).run t =
      (((whileHolds condition (addItem item) []).run t).1 ++ [a],
        ((whileHolds condition (addItem item) []).run t).2) := roundsAppend t.cursor.ahead [a] t
  have whole (t : State) : (many condition item).run t =
      (((whileHolds condition (addItem item) []).run t).1.reverse,
        ((whileHolds condition (addItem item) []).run t).2) := rfl
  rw [whole, once, more]
  simp [whole]

theorem manyAtMark {α : Type} {mark : Kind} (real : mark ≠ .endOfText) {item : Production α} {s : State}
    (closed : s.isClosed) (here : s.kind = mark) :
    (many (eat mark) item).run s = (separated mark item).run s.advance := by
  rw [manyOnce looksEat (fun _ closed holds => readsEat real item closed holds) closed (by rw [runEatYes here]),
    runEatYes here]
  rfl

theorem manyEatsNone {α : Type} {mark : Kind} {item : Production α} {s : State} (here : s.kind ≠ mark) :
    (many (eat mark) item).run s = ([], s) := by
  simp [many, whileNone looksEat (by rw [runEatNo here])]

theorem manyNextNone {α : Type} {p : Kind → Bool} {item : Production α} {s : State} (fails : p s.kind = false) :
    (many (nextIs p) item).run s = ([], s) := by
  simp [many, whileNone looksNext fails]

namespace Reads

variable {α : Type} {ws ws' rest : List Word} {w : Word} {k : Kind} {p : Kind → Bool} {V : α → Prop}
  {Vs : List α → Prop} {item : Production α}

def Cons (V : α → Prop) (Vs : List α → Prop) (as : List α) : Prop :=
  ∃ a more, as = a :: more ∧ V a ∧ Vs more

theorem manyDone (fails : p (headKind rest) = false) : Reads [] rest (· = []) (many (nextIs p) item) := by
  intro s closed words
  rw [manyNextNone (by rwa [State.kindOfWords closed words])]
  exact ⟨rfl, words, rfl⟩

theorem manyRound (moves : Progresses (fun k => p k = true) item)
    (holds : p (headKind (ws ++ (ws' ++ rest))) = true) (step : Reads ws (ws' ++ rest) V item)
    (next : Reads ws' rest Vs (many (nextIs p) item)) :
    Reads (ws ++ ws') rest (Cons V Vs) (many (nextIs p) item) := by
  intro s closed words
  have here : p s.kind = true := by rwa [State.kindOfWords closed words, List.append_assoc]
  rw [manyOnce looksNext (fun s closed holds => moves s closed holds) closed here]
  have whole : Reads (ws ++ ws') rest (Cons V Vs)
      (do let a ← item; let as ← many (nextIs p) item; return a :: as) :=
    bind step fun a one => last next fun as more => pure ⟨a, as, rfl, one, more⟩
  exact whole s closed words

theorem manyEatsDone (other : headKind rest ≠ k) : Reads [] rest (· = []) (many (Grammar.eat k) item) := by
  intro s closed words
  rw [manyEatsNone (by rwa [State.kindOfWords closed words])]
  exact ⟨rfl, words, rfl⟩

theorem one (step : Reads ws rest V item) (other : headKind rest ≠ k) :
    Reads ws rest (Cons V (· = [])) (Grammar.separated k item) :=
  last step fun a found => last (manyEatsDone other) fun as none => pure ⟨a, as, rfl, found, none⟩

theorem cons (real : k ≠ .endOfText) (kind : w.kind = k) (step : Reads ws (w :: (ws' ++ rest)) V item)
    (next : Reads ws' rest Vs (Grammar.separated k item)) :
    Reads (ws ++ w :: ws') rest (Cons V Vs) (Grammar.separated k item) := by
  refine bind step fun a found => last (V := Vs) ?_ fun as more => pure ⟨a, as, rfl, found, more⟩
  intro s closed words
  rw [manyAtMark real closed ((State.kindOfWords closed words).trans kind)]
  exact next s.advance closed (State.wordsCons words).2

end Reads

structure SamePlace (s s' : State) : Prop where
  closed : s.isClosed
  closed' : s'.isClosed
  ahead : s'.cursor.ahead = s.cursor.ahead
  mistakes : s'.mistakes = s.mistakes

def samePlace : Simulation where
  rel := SamePlace
  closed h := h.closed
  fewer h := Nat.le_of_eq (congrArg List.length h.ahead.symm)
  kind h := .inl (State.kindSame h.closed h.closed' h.ahead)
  text h more _ := congrArg Token.text (State.currentSame h.closed h.ahead more).symm
  advance h _ _ := .inl ⟨h.closed, h.closed', congrArg List.tail h.ahead, h.mistakes⟩
  syntaxError h _ := ⟨h.closed, h.closed', h.ahead, congrArg (· + 1) h.mistakes⟩
  broken h _ := ⟨h.closed, h.closed', h.ahead, congrArg (· + 1) h.mistakes⟩
  brokenAt h _ _ _ := ⟨h.closed, h.closed', h.ahead, congrArg (· + 1) h.mistakes⟩

theorem Reads.ofSameAt {α : Type} [Spanned α] {sort : Kind → Prop} {ws rest : List Word} {V : α → Prop}
    {m m' : Production α} (starts : sort (headKind (ws ++ rest))) (same : ∀ n, Simulates samePlace n sort Alike m m')
    (respects : ∀ a a', Alike a a' → V a → V a') (h : Reads ws rest V m) : Reads ws rest V m' := by
  intro s closed words
  have here : sort s.kind := by rwa [State.kindOfWords closed words]
  obtain ⟨found, place⟩ := same (s.left + 1) s s ⟨closed, closed, rfl, rfl⟩ (Nat.lt_succ_self _) here trivial
  obtain ⟨good, after, clean⟩ := h s closed words
  refine ⟨respects _ _ found good, ?_, place.mistakes.trans clean⟩
  rw [State.words, place.ahead, ← State.words, after]

theorem Reads.ofSame {α : Type} [Spanned α] {ws rest : List Word} {V : α → Prop} {m m' : Production α}
    (same : ∀ n, Simulates samePlace n anywhere Alike m m') (respects : ∀ a a', Alike a a' → V a → V a')
    (h : Reads ws rest V m) : Reads ws rest V m' := .ofSameAt trivial same respects h

end Boogie.Grammar
