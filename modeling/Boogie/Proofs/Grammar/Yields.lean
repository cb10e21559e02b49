import Boogie.Proofs.Grammar.Progress
import Boogie.Proofs.Tree.WellFormed

/-! What productions yield. A property of the result of a production is shown for every run that begins
with fewer than `n` tokens ahead, at a token of some sort; of a run that is clean, where nothing was found
wrong, more can be said. Each rule here takes a property through one step of a production. -/
namespace Boogie.Grammar

open Token (Kind KindSet)

structure Scope where
  tokens : List Token
  clean : Prop

def Scope.covers (G : Scope) (s : State) : Prop := s.isClosed ∧ ∀ t ∈ s.cursor.ahead, t ∈ G.tokens

theorem Scope.coversReached {G : Scope} {s t : State} (h : G.covers s) (row : s.Reaches t) : G.covers t :=
  ⟨row.isClosed h.1, fun _ mem => h.2 _ (row.aheadSuffix.subset mem)⟩

def Yields (G : Scope) (n : Nat) (sort : Kind → Prop) {α : Type} (P : α → Prop) (m : Production α) : Prop :=
  ∀ s, G.covers s → s.left < n → sort s.kind → (G.clean → (m.run s).2.mistakes = s.mistakes) →
    P (m.run s).1

namespace Yields

variable {G : Scope} {n k : Nat} {sort : Kind → Prop} {α β : Type} {P : α → Prop} {Q : β → Prop}
  {m : Production α} {f : α → Production β}

theorem mono {wide : Kind → Prop} (h : Yields G k wide P m) (narrow : ∀ x, sort x → wide x)
    (fewer : n ≤ k) : Yields G n sort P m :=
  fun s covered left first clean => h s covered (Nat.lt_of_lt_of_le left fewer) (narrow _ first) clean

theorem always (h : Yields G n anywhere P m) : Yields G n sort P m := h.mono (fun _ _ => trivial) (Nat.le_refl n)

theorem weaken {P' : α → Prop} (h : Yields G n sort P' m) (imp : ∀ a, P' a → P a) : Yields G n sort P m :=
  fun s covered left first clean => imp _ (h s covered left first clean)

theorem trivially : Yields G n sort (fun _ => True) m := fun _ _ _ _ _ => trivial

theorem pure {a : α} (h : P a) : Yields G n sort P (Pure.pure a) := fun _ _ _ _ _ => h

theorem follow {s : State} {after : Kind → Prop} (step : Yields G n sort P m)
    (rest : ∀ a, P a → Yields G k after Q (f a)) (covered : G.covers s) (left : s.left < n)
    (first : sort s.kind) (clean : G.clean → ((m >>= f).run s).2.mistakes = s.mistakes)
    (fewer : (m.run s).2.left < k) (next : after (m.run s).2.kind) : Q ((m >>= f).run s).1 := by
  have before := (m.reaches s).mistakesLe
  have behind := ((f (m.run s).1).reaches (m.run s).2).mistakesLe
  simp only [Production.runBind] at clean ⊢
  have found := step s covered left first fun c => by have := clean c; omega
  exact rest _ found _ (G.coversReached covered (m.reaches s)) fewer next fun c => by
    have := clean c
    omega

theorem bind (step : Yields G n sort P m) (rest : ∀ a, P a → Yields G n anywhere Q (f a)) :
    Yields G n sort Q (m >>= f) := fun s covered left first clean =>
  follow step rest covered left first clean (Nat.lt_of_le_of_lt (m.reaches s).leftLe left) trivial

theorem any (rest : ∀ a, Yields G n anywhere Q (f a)) : Yields G n sort Q (m >>= f) :=
  bind trivially fun a _ => rest a

theorem stay (stays : Stays m) (step : Yields G n sort P m) (rest : ∀ a, P a → Yields G n sort Q (f a)) :
    Yields G n sort Q (m >>= f) := by
  intro s covered left first clean
  refine follow step rest covered left first clean ?_ ?_
  · rwa [stays.leftEq]
  · rwa [stays.kindEq]

theorem look {view : State → α} (rest : ∀ a, Yields G n sort Q (f a)) :
    Yields G n sort Q (.read view >>= f) :=
  stay (.read view) trivially fun a _ => rest a

theorem progress (moves : Progresses sort m) (step : Yields G (n + 1) sort P m)
    (rest : ∀ a, P a → Yields G n anywhere Q (f a)) : Yields G (n + 1) sort Q (m >>= f) := by
  intro s covered left first clean
  have := moves s covered.1 first
  exact follow step rest covered left first clean (by omega) trivial

theorem anyProgress (moves : Progresses sort m) (rest : ∀ a, Yields G n anywhere Q (f a)) :
    Yields G (n + 1) sort Q (m >>= f) := progress moves trivially fun a _ => rest a

theorem fault {m : Production Unit} (h : Faults m) : Yields G n sort (fun _ => ¬ G.clean) m := by
  intro s _ _ _ same clean
  have := same clean
  have := h s
  omega

theorem given {m : Production Unit} {found : Bool} (h : Faults m) :
    Yields G n sort (fun _ => found = true → ¬ G.clean) (given found m) := by
  cases found with
  | false => exact pure nofun
  | true => exact (fault h).weaken fun _ dirty _ => dirty

theorem ifNext {p : Kind → Bool} {yes no : Production α}
    (holds : Yields G n (fun x => sort x ∧ p x = true) P yes)
    (fails : Yields G n (fun x => sort x ∧ p x = false) P no) :
    Yields G n sort P (nextIs p >>= fun b => if b = true then yes else no) := by
  intro s covered left first
  cases h : p s.kind
  · simpa [h] using fails s covered left ⟨first, h⟩
  · simpa [h] using holds s covered left ⟨first, h⟩

theorem eat {x : Kind} {f : Bool → Production α} (real : x ≠ .endOfText)
    (holds : Yields G k anywhere P (f true)) (fails : Yields G n (fun y => sort y ∧ y ≠ x) P (f false))
    (fewer : n ≤ k + 1) : Yields G n sort P (eat x >>= f) := by
  intro s covered left first
  by_cases same : s.kind = x
  · simp only [Production.runBind, runEatYes same]
    have := State.advanceLt covered.1 (same ▸ real)
    exact holds s.advance (G.coversReached covered (.one (.advance s))) (by omega) trivial
  · simp only [Production.runBind, runEatNo same]
    exact fails s covered left ⟨first, same⟩

theorem ifEats {x : Kind} {yes no : Production α} (real : x ≠ .endOfText)
    (holds : Yields G n anywhere P yes) (fails : Yields G n (fun y => sort y ∧ y ≠ x) P no) :
    Yields G n sort P (Grammar.eat x >>= fun b => if b = true then yes else no) := by
  refine eat real (k := n) ?_ ?_ (Nat.le_succ n)
  · simpa using holds
  · simpa using fails

theorem ifEatsFirst {x : Kind} {yes no : Production α} (real : x ≠ .endOfText)
    (holds : Yields G n anywhere P yes) (fails : Yields G (n + 1) (fun y => sort y ∧ y ≠ x) P no) :
    Yields G (n + 1) sort P (Grammar.eat x >>= fun b => if b = true then yes else no) := by
  refine eat real (k := n) ?_ ?_ (Nat.le_refl _)
  · simpa using holds
  · simpa using fails

theorem byKind {f : Kind → Production α} (h : ∀ x, sort x → Yields G n (· = x) P (f x)) :
    Yields G n sort P (currentKind >>= f) :=
  fun s covered left first clean => h s.kind first s covered left rfl clean

theorem advance (real : ∀ x, sort x → x ≠ .endOfText) :
    Yields G n sort (fun t => t ∈ G.tokens ∧ sort t.kind) advance := by
  intro s covered _ first _
  refine ⟨covered.2 _ ?_, first⟩
  show s.cursor.current ∈ s.cursor.ahead
  have more := State.leftPos covered.1 (real _ first)
  rw [State.left] at more
  cases h : s.cursor.ahead with
  | nil => simp [h] at more
  | cons t rest => simp [Cursor.current, h]

theorem ifNextThen {p : Kind → Bool} {yes no : Production α} {f : α → Production β}
    (holds : Yields G n (fun x => sort x ∧ p x = true) Q (yes >>= f))
    (fails : Yields G n (fun x => sort x ∧ p x = false) Q (no >>= f)) :
    Yields G n sort Q (Grammar.ifNext (nextIs p) yes no >>= f) := by
  intro s covered left first
  cases h : p s.kind
  · simpa [Grammar.ifNext, h] using fails s covered left ⟨first, h⟩
  · simpa [Grammar.ifNext, h] using holds s covered left ⟨first, h⟩

theorem rounds {condition : Production Bool} {body : α → Production α}
    (round : ∀ a, P a → ∀ rest : α → Production α, (∀ a, P a → Yields G n anywhere P (rest a)) →
      Yields G n anywhere P (condition >>= fun b => if b = true then body a >>= rest else Pure.pure a))
    (tokens : List Token) (a : α) (start : P a) :
    Yields G n anywhere P (rounds condition body tokens a) := by
  induction tokens generalizing a with
  | nil => exact pure start
  | cons t tokens ih => exact round a start _ fun a found => ih a found

theorem whileNext {p : Kind → Bool} {body : α → Production α} {a : α} (start : P a)
    (round : ∀ a, P a → Yields G n (fun x => p x = true) P (body a)) :
    Yields G n sort P (whileHolds (nextIs p) body a) := by
  refine look fun tokens => (rounds (fun a found rest more => ?_) tokens a start).always
  refine .ifNext ?_ (.pure found)
  exact bind ((round a found).mono (fun _ h => h.2) (Nat.le_refl n)) more

theorem whileEats {x : Kind} {body : α → Production α} {a : α} (real : x ≠ .endOfText) (start : P a)
    (round : ∀ a, P a → Yields G k anywhere P (body a)) (fewer : n ≤ k + 1) :
    Yields G n sort P (whileHolds (Grammar.eat x) body a) := by
  refine look fun tokens => (rounds (fun a found rest more => ?_) tokens a start).always
  refine eat (k := min n k) real ?_ (pure found) (by omega)
  have step : Yields G (min n k) anywhere P (body a) :=
    (round a found).mono (fun _ h => h) (Nat.min_le_right n k)
  simpa using bind step fun a found => (more a found).mono (fun _ h => h) (Nat.min_le_left n k)

theorem manyNext {p : Kind → Bool} {item : Production α}
    (h : Yields G n (fun x => p x = true) P item) :
    Yields G n sort (fun as => ∀ a ∈ as, P a) (many (nextIs p) item) := by
  refine bind (P := fun as => ∀ a ∈ as, P a) (whileNext nofun fun as found => ?_) fun as found =>
    pure (by simpa using found)
  exact bind h fun a here => pure (by simpa using ⟨here, found⟩)

theorem manyLook {view : State → Bool} {item : Production α} (h : Yields G n anywhere P item) :
    Yields G n sort (fun as => ∀ a ∈ as, P a) (many (.read view) item) := by
  refine bind (P := fun as => ∀ a ∈ as, P a) (look fun tokens => (rounds ?_ tokens [] nofun).always)
    fun as found => pure (by simpa using found)
  intro as found rest more
  refine look fun holds => ?_
  split
  · exact bind (bind h fun a here => pure (by simpa using ⟨here, found⟩)) more
  · exact pure found

theorem manyEats {x : Kind} {item : Production α} (real : x ≠ .endOfText)
    (h : Yields G k anywhere P item) (fewer : n ≤ k + 1) :
    Yields G n sort (fun as => ∀ a ∈ as, P a) (many (Grammar.eat x) item) := by
  refine bind (P := fun as => ∀ a ∈ as, P a) (whileEats real nofun (fun as found => ?_) fewer)
    fun as found => pure (by simpa using found)
  exact bind h fun a here => pure (by simpa using ⟨here, found⟩)

theorem separated {x : Kind} {item : Production α} (real : x ≠ .endOfText)
    (first : Yields G n sort P item) (more : Yields G k anywhere P item) (fewer : n ≤ k + 1) :
    Yields G n sort (fun as => as ≠ [] ∧ ∀ a ∈ as, P a) (Grammar.separated x item) := by
  refine bind first fun a here => ?_
  refine bind (manyEats real more fewer) fun as found => pure ⟨nofun, ?_⟩
  simpa using ⟨here, found⟩

theorem nestTokens {ι : Type} {P : ι → α → Prop} {deep : Kind → Prop} {bound : Nat}
    {placeholder : ι → Production α} {level : (ι → Production α) → ι → Production α}
    (h : ∀ m < bound, ∀ nested, (∀ i, Yields G m deep (P i) (nested i)) →
      ∀ i, Yields G (m + 1) deep (P i) (level nested i))
    (tokens : List Token) (n : Nat) (enough : n ≤ tokens.length + 1) (less : n ≤ bound) (i : ι) :
    Yields G n deep (P i) (Grammar.nest placeholder level tokens i) := by
  induction tokens generalizing n i with
  | nil =>
    cases n with
    | zero => exact fun _ _ less => absurd less (Nat.not_lt_zero _)
    | succ n =>
      have none : n = 0 := by simpa using enough
      subst none
      exact h 0 less placeholder (fun _ _ _ less => absurd less (Nat.not_lt_zero _)) i
  | cons t rest ih =>
    cases n with
    | zero => exact fun _ _ less => absurd less (Nat.not_lt_zero _)
    | succ n => exact h n less _ (fun i => ih n (by simpa using enough) (Nat.le_of_succ_le less) i) i

theorem nest {ι : Type} {P : ι → α → Prop} {deep : Kind → Prop} {bound : Nat}
    {placeholder : ι → Production α} {level : (ι → Production α) → ι → Production α}
    (h : ∀ m < bound, ∀ nested, (∀ i, Yields G m deep (P i) (nested i)) →
      ∀ i, Yields G (m + 1) deep (P i) (level nested i)) (i : ι) :
    Yields G bound deep (P i) (ahead >>= fun tokens => Grammar.nest placeholder level tokens i) :=
  fun s covered left first clean =>
    nestTokens h s.cursor.ahead (s.left + 1) (Nat.le_refl _) left i s covered (Nat.lt_succ_self _) first clean

end Yields

end Boogie.Grammar
