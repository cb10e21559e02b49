import Boogie.Proofs.Grammar.Progress
import Boogie.Proofs.Nesting.Stretch

/-! Where clean runs are among the tokens. Of every run that finds nothing wrong, and that begins at a token with fewer
than `n` tokens ahead and the first of some sort, what it finds stands in a relation to the token it ends at. Each rule
here takes that through one step of a production. -/
namespace Boogie.Grammar

open Token (Kind)

namespace State

def extent (s : State) : Nat := s.cursor.taken.length + s.cursor.ahead.length

theorem extentAdvance (s : State) :
    s.advance.extent = if s.cursor.ahead = [] then s.extent + 1 else s.extent := by
  unfold extent advance Cursor.advance
  cases s.cursor.ahead with
  | nil => simp
  | cons t rest =>
    simp
    omega

theorem Reaches.extentLe {s t : State} (h : s.Reaches t) : s.extent ≤ t.extent := by
  refine h.keeps (P := fun t => s.extent ≤ t.extent) ?_ (Nat.le_refl _)
  intro t u last le
  cases last with
  | advance =>
    rw [extentAdvance]
    split <;> omega
  | syntaxError => exact le
  | broken => exact le
  | brokenAt => exact le

structure Clean (s t : State) : Prop where
  mistakes : t.mistakes = s.mistakes
  extent : t.extent = s.extent

theorem Clean.split {s t u : State} (h : s.Clean u) (first : s.Reaches t) (rest : t.Reaches u) :
    s.Clean t ∧ t.Clean u := by
  obtain ⟨mistakes, extent⟩ := h
  have := first.mistakesLe
  have := rest.mistakesLe
  have := first.extentLe
  have := rest.extentLe
  exact ⟨⟨by omega, by omega⟩, ⟨by omega, by omega⟩⟩

end State

variable {row : TokenRow} {i j : Nat}

structure At (row : TokenRow) (i : Nat) (s : State) : Prop where
  closed : s.isClosed
  ahead : s.cursor.ahead = row.tokens.drop i
  previous (k : Nat) (is : i = k + 1) : row.tokens[k]? = some s.cursor.previous

namespace At

variable {s t : State}

theorem left (h : At row i s) : s.left = row.tokens.length - i := by
  rw [State.left, h.ahead, List.length_drop]

theorem advance (h : At row i s) (more : s.cursor.ahead ≠ []) :
    row.tokens[i]? = some s.cursor.current ∧ At row (i + 1) s.advance := by
  obtain ⟨t, rest, tokens⟩ := List.exists_cons_of_ne_nil more
  have here : row.tokens[i]? = some s.cursor.current := by
    rw [Cursor.currentOfCons tokens, ← List.head?_drop, ← h.ahead, tokens, List.head?_cons]
  refine ⟨here, h.closed, ?_, fun k is => ?_⟩
  · rw [State.advance, Cursor.advanceAhead, h.ahead, List.tail_drop]
  · obtain rfl := Nat.succ.inj is
    exact here

theorem reached (h : At row i s) (reaches : s.Reaches t) (clean : s.Clean t) : ∃ j, i ≤ j ∧ At row j t := by
  have kept : s.extent ≤ t.extent ∧ (t.extent = s.extent → ∃ j, i ≤ j ∧ At row j t) := by
    refine reaches.keeps (P := fun t => s.extent ≤ t.extent ∧ (t.extent = s.extent → ∃ j, i ≤ j ∧ At row j t)) ?_
      ⟨Nat.le_refl _, fun _ => ⟨i, Nat.le_refl i, h⟩⟩
    rintro t u last ⟨le, found⟩
    have le' := (State.Reaches.one last).extentLe
    refine ⟨Nat.le_trans le le', fun same => ?_⟩
    obtain ⟨j, above, here⟩ := found (by omega)
    cases last with
    | advance =>
      have more : t.cursor.ahead ≠ [] := by
        intro none
        rw [State.extentAdvance, if_pos none] at same
        omega
      exact ⟨j + 1, by omega, (here.advance more).2⟩
    | syntaxError => exact ⟨j, above, here.closed, here.ahead, here.previous⟩
    | broken => exact ⟨j, above, here.closed, here.ahead, here.previous⟩
    | brokenAt => exact ⟨j, above, here.closed, here.ahead, here.previous⟩
  exact kept.2 clean.extent

theorem inside (h : At row i s) : i ≤ row.tokens.length := by
  cases i with
  | zero => exact Nat.zero_le _
  | succ k => exact (List.getElem?_eq_some_iff.mp (h.previous k rfl)).1

end At

def Lays (row : TokenRow) (i n : Nat) (sort : Kind → Prop) {α : Type} (T : Nat → α → Prop) (m : Production α) :
    Prop :=
  ∀ s, At row i s → s.left < n → sort s.kind → s.Clean (m.run s).2 →
    ∃ j, i ≤ j ∧ At row j (m.run s).2 ∧ T j (m.run s).1

namespace Lays

variable {n k : Nat} {sort : Kind → Prop} {α β : Type} {T : Nat → α → Prop} {U : Nat → β → Prop} {m : Production α}
  {f : α → Production β} {span : Span}

theorem mono {wide : Kind → Prop} (h : Lays row i k wide T m) (narrow : ∀ x, sort x → wide x) (fewer : n ≤ k) :
    Lays row i n sort T m := fun s at_ left first => h s at_ (Nat.lt_of_lt_of_le left fewer) (narrow _ first)

theorem always (h : Lays row i n anywhere T m) : Lays row i n sort T m := h.mono (fun _ _ => trivial) (Nat.le_refl n)

theorem weaken {T' : Nat → α → Prop} (h : Lays row i n sort T' m) (imp : ∀ j a, i ≤ j → T' j a → T j a) :
    Lays row i n sort T m := fun s at_ left first clean =>
  have ⟨j, le, there, found⟩ := h s at_ left first clean
  ⟨j, le, there, imp j _ le found⟩

theorem pure {a : α} (h : T i a) : Lays row i n sort T (Pure.pure a) := fun _ at_ _ _ _ => ⟨i, Nat.le_refl i, at_, h⟩

theorem any : Lays row i n sort (fun _ _ => True) m := fun s at_ _ _ clean =>
  have ⟨j, le, there⟩ := at_.reached (m.reaches s) clean
  ⟨j, le, there, trivial⟩

theorem follow {s : State} {after : Kind → Prop} (step : Lays row i n sort T m)
    (rest : ∀ j a, i ≤ j → At row j (m.run s).2 → T j a → Lays row j k after U (f a)) (at_ : At row i s)
    (left : s.left < n) (first : sort s.kind) (clean : s.Clean ((m >>= f).run s).2) (fewer : (m.run s).2.left < k)
    (next : after (m.run s).2.kind) :
    ∃ j, i ≤ j ∧ At row j ((m >>= f).run s).2 ∧ U j ((m >>= f).run s).1 := by
  obtain ⟨before, behind⟩ := clean.split (m.reaches s) ((f (m.run s).1).reaches (m.run s).2)
  obtain ⟨j, le, there, found⟩ := step s at_ left first before
  obtain ⟨l, le', last, found'⟩ := rest j _ le there found _ there fewer next behind
  exact ⟨l, Nat.le_trans le le', last, found'⟩

theorem bind (step : Lays row i n sort T m) (rest : ∀ j a, i ≤ j → T j a → Lays row j n anywhere U (f a)) :
    Lays row i n sort U (m >>= f) := fun s at_ left first clean =>
  follow step (fun j a le _ => rest j a le) at_ left first clean (Nat.lt_of_le_of_lt (m.reaches s).leftLe left) trivial

theorem skip (rest : ∀ j a, i ≤ j → Lays row j n anywhere U (f a)) : Lays row i n sort U (m >>= f) :=
  bind any fun j a le _ => rest j a le

theorem look {view : State → α} (rest : ∀ a, Lays row i n sort U (f a)) : Lays row i n sort U (.read view >>= f) :=
  fun s at_ left first clean => rest (view s) s at_ left first clean

theorem fault {report : Production Unit} {f : Unit → Production β} (h : Faults report) :
    Lays row i n sort U (report >>= f) := by
  intro s _ _ _ clean
  have := h s
  have := ((f (report.run s).1).reaches (report.run s).2).mistakesLe
  have := clean.mistakes
  simp only [Production.runBind] at this
  omega

theorem given {report : Production Unit} {found : Bool} {f : Unit → Production β} (h : Faults report)
    (rest : found = false → Lays row i n sort U (f ())) : Lays row i n sort U (Grammar.given found report >>= f) := by
  cases found with
  | false => exact rest rfl
  | true => exact fault h

theorem byKind {f : Kind → Production α} (h : ∀ x, sort x → Lays row i n (· = x) T (f x)) :
    Lays row i n sort T (currentKind >>= f) := fun s at_ left first clean => h s.kind first s at_ left rfl clean

theorem ifNext {p : Kind → Bool} {yes no : Production α} (holds : Lays row i n (fun x => sort x ∧ p x = true) T yes)
    (fails : Lays row i n (fun x => sort x ∧ p x = false) T no) :
    Lays row i n sort T (nextIs p >>= fun b => if b = true then yes else no) := by
  intro s at_ left first
  cases h : p s.kind
  · simpa [h] using fails s at_ left ⟨first, h⟩
  · simpa [h] using holds s at_ left ⟨first, h⟩

theorem aheadOf {s : State} (at_ : At row i s) (real : s.kind ≠ .endOfText) :
    row.tokens[i]? = some s.cursor.current ∧ At row (i + 1) s.advance := by
  obtain ⟨t, rest, tokens⟩ := State.aheadCons at_.closed real
  exact at_.advance (by simp [tokens])

theorem advance {f : Token → Production α} (real : ∀ x, sort x → x ≠ .endOfText)
    (rest : ∀ t, sort t.kind → Stretch row i (i + 1) t.span → Lays row (i + 1) k anywhere T (f t)) (fewer : n ≤ k + 1) :
    Lays row i n sort T (Grammar.advance >>= f) := by
  intro s at_ left first clean
  obtain ⟨here, there⟩ := aheadOf at_ (real _ first)
  have less := State.advanceLt at_.closed (real _ first)
  obtain ⟨_, behind⟩ := clean.split (Grammar.advance.reaches s) ((f s.cursor.current).reaches s.advance)
  obtain ⟨j, le, last, found⟩ := rest s.cursor.current first (.one here) s.advance there (by omega) trivial behind
  exact ⟨j, by omega, last, found⟩

theorem token {x : Kind} {f : Token → Production α} (real : x ≠ .endOfText)
    (rest : ∀ t, t.kind = x → Stretch row i (i + 1) t.span → Lays row (i + 1) k anywhere T (f t)) (fewer : n ≤ k + 1) :
    Lays row i n (· = x) T (Grammar.advance >>= f) :=
  advance (fun _ is => is ▸ real) rest fewer

theorem eat {x : Kind} {f : Bool → Production α} (real : x ≠ .endOfText)
    (holds : Lays row (i + 1) k anywhere T (f true)) (fails : Lays row i n (fun y => sort y ∧ y ≠ x) T (f false))
    (fewer : n ≤ k + 1) : Lays row i n sort T (Grammar.eat x >>= f) := by
  intro s at_ left first
  by_cases same : s.kind = x
  · simp only [Production.runBind, runEatYes same]
    intro clean
    have less := State.advanceLt at_.closed (same ▸ real)
    obtain ⟨_, behind⟩ := clean.split (Grammar.advance.reaches s) ((f true).reaches s.advance)
    obtain ⟨j, le, last, found⟩ := holds s.advance (aheadOf at_ (same ▸ real)).2 (by omega) trivial behind
    exact ⟨j, by omega, last, found⟩
  · simp only [Production.runBind, runEatNo same]
    exact fails s at_ left ⟨first, same⟩

theorem expectThen {x : Kind} {f : Unit → Production α} (real : x ≠ .endOfText)
    (rest : Lays row (i + 1) n anywhere T (f ())) : Lays row i (n + 1) sort T (Grammar.expect x >>= f) := by
  have split : Grammar.expect x >>= f =
      Grammar.eat x >>= fun b => if b = true then f () else syntaxError (.expected x) >>= f := by
    refine Production.ext fun s => ?_
    by_cases here : s.kind = x
    · simp [Grammar.expect, Grammar.ifNext, runEatYes here]
    · simp [Grammar.expect, Grammar.ifNext, runEatNo here]
  rw [split]
  exact eat (k := n) real (by simpa using rest) (by simpa using fault (Faults.syntaxError (.expected x)))
    (Nat.le_refl _)

theorem expect {x : Kind} {f : Unit → Production α} (real : x ≠ .endOfText)
    (rest : Lays row (i + 1) n anywhere T (f ())) : Lays row i n sort T (Grammar.expect x >>= f) :=
  (expectThen real rest).mono (fun _ is => is) (Nat.le_succ n)

theorem identWritten {f : Ident × Bool → Production α} (rest : ∀ id escaped, Stretch row i (i + 1) id.span →
    Lays row (i + 1) k anywhere T (f (id, escaped))) (fewer : n ≤ k + 1) :
    Lays row i n sort T (Grammar.identWritten >>= f) := by
  have split : Grammar.identWritten >>= f = check .identifier >>= fun b =>
      if b = true then Grammar.advance >>= fun t => f (⟨Name.unescape t.text, t.span⟩, Name.unescape t.text != t.text)
      else syntaxError (.expected .identifier) >>= fun _ => currentSpan >>= fun span => f (⟨"", span⟩, false) := by
    refine Production.ext fun s => ?_
    cases here : s.kind == Kind.identifier <;> simp [Grammar.identWritten, check, here]
  rw [split]
  refine ifNext ?_ (fault (Faults.syntaxError _))
  refine (token (x := .identifier) (by decide) (fun t _ here => rest ⟨_, t.span⟩ _ here) fewer).mono ?_ (Nat.le_refl n)
  exact fun x named => by simpa using named.2

theorem ident {f : Ident → Production α} (rest : ∀ id : Ident, Stretch row i (i + 1) id.span →
    Lays row (i + 1) k anywhere T (f id)) (fewer : n ≤ k + 1) : Lays row i n sort T (Grammar.ident >>= f) :=
  have step : Lays row i n sort T (Grammar.identWritten >>= fun p => f p.1) :=
    identWritten (fun id _ here => rest id here) fewer
  step

theorem hereSpan {f : Span → Production β} (real : ∀ x, sort x → x ≠ .endOfText)
    (rest : ∀ span, Stretch row i (i + 1) span → Lays row i n sort U (f span)) :
    Lays row i n sort U (currentSpan >>= f) := fun s at_ left first clean =>
  rest s.cursor.current.span (.one (aheadOf at_ (real _ first)).1) s at_ left first clean

theorem previousSpan {f : Span → Production β}
    (rest : ∀ span, (∀ k, i = k + 1 → Stretch row k i span) → Lays row i n sort U (f span)) :
    Lays row i n sort U (Grammar.previousSpan >>= f) := by
  intro s at_ left first clean
  refine rest s.cursor.previous.span (fun k is => ?_) s at_ left first clean
  rw [is]
  exact .one (at_.previous k is)

theorem spanFrom {a b : Nat} {f : Span → Production β} (start : Stretch row a b span) (le : b ≤ i)
    (rest : ∀ whole, Stretch row a i whole → Lays row i n sort U (f whole)) :
    Lays row i n sort U (Grammar.spanFrom span >>= f) := by
  have step : Lays row i n sort U (Grammar.previousSpan >>= fun last => f (span.merge last)) := by
    refine previousSpan fun last here => rest _ ?_
    have less := start.less
    exact start.merge (here (i - 1) (by omega)) (by omega) le
  exact step

section Loops

variable {Q : Nat → α → Prop} {body : α → Production α} {a : α}

theorem rounds {condition : Production Bool}
    (round : ∀ j a, i ≤ j → Q j a → ∀ rest : α → Production α,
      (∀ k b, j ≤ k → Q k b → Lays row k n anywhere Q (rest b)) →
      Lays row j n anywhere Q (condition >>= fun b => if b = true then body a >>= rest else Pure.pure a))
    (tokens : List Token) (known : Q i a) : Lays row i n anywhere Q (Grammar.rounds condition body tokens a) := by
  -- on the bound of the rounds, each of which begins at the token that the one before it ended at
  induction tokens generalizing i a with
  | nil => exact pure known
  | cons t tokens ih =>
    refine round i a (Nat.le_refl i) known _ fun k b le found => ih (fun l c le' => ?_) found
    exact round l c (Nat.le_trans le le')

theorem whileNext {p : Kind → Bool}
    (round : ∀ j a, i ≤ j → Q j a → Lays row j n (fun x => p x = true) Q (body a)) (known : Q i a) :
    Lays row i n sort Q (whileHolds (nextIs p) body a) := by
  refine look fun tokens => (rounds (fun j a le found rest more => ?_) tokens known).always
  refine ifNext (bind ((round j a le found).mono (fun _ h => h.2) (Nat.le_refl n)) ?_) (pure found)
  exact fun k b le' found' => more k b le' found'

theorem whileEats {x : Kind} (real : x ≠ .endOfText)
    (round : ∀ j a, i ≤ j → Q j a → Lays row (j + 1) n anywhere Q (body a)) (known : Q i a) :
    Lays row i n sort Q (whileHolds (Grammar.eat x) body a) := by
  refine look fun tokens => (rounds (fun j a le found rest more => ?_) tokens known).always
  refine eat (k := n) real ?_ (by simpa using pure found) (Nat.le_succ n)
  simp only [↓reduceIte]
  exact bind (round j a le found) fun k b le' found' => more k b (by omega) found'

theorem whileLook {view : State → Bool} (round : ∀ j a, i ≤ j → Q j a → Lays row j n anywhere Q (body a))
    (known : Q i a) : Lays row i n sort Q (whileHolds (.read view) body a) := by
  refine look fun tokens => (rounds (fun j a le found rest more => look fun holds => ?_) tokens known).always
  split
  · exact bind (round j a le found) fun k b le' found' => more k b le' found'
  · exact pure found

end Loops

theorem nestBelow {ι : Type} {T : ι → Nat → Nat → α → Prop} {placeholder : ι → Production α}
    {level : (ι → Production α) → ι → Production α}
    (h : ∀ k < n, ∀ nested, (∀ l i, Lays row i k anywhere (T l i) (nested l)) →
      ∀ l i, Lays row i (k + 1) anywhere (T l i) (level nested l)) (l : ι) (i : Nat) :
    Lays row i n anywhere (T l i) (ahead >>= fun tokens => Grammar.nest placeholder level tokens l) := by
  have deep (tokens : List Token) (k : Nat) (enough : k ≤ tokens.length + 1) (below : k ≤ n) (l : ι) (i : Nat) :
      Lays row i k anywhere (T l i) (Grammar.nest placeholder level tokens l) := by
    -- on the bound of the nesting, which is not met with fewer than `k` tokens ahead
    induction tokens generalizing k l i with
    | nil =>
      cases k with
      | zero => exact fun _ _ less => absurd less (Nat.not_lt_zero _)
      | succ k =>
        have none : k = 0 := by simpa using enough
        subst none
        exact h 0 below placeholder (fun _ _ _ _ less => absurd less (Nat.not_lt_zero _)) l i
    | cons t rest ih =>
      cases k with
      | zero => exact fun _ _ less => absurd less (Nat.not_lt_zero _)
      | succ k => exact h k below _ (ih k (by simpa using enough) (Nat.le_of_lt below)) l i
  exact fun s at_ left first =>
    deep s.cursor.ahead (s.left + 1) (Nat.le_refl _) left l i s at_ (Nat.lt_succ_self _) first

theorem nest {ι : Type} {T : ι → Nat → Nat → α → Prop} {placeholder : ι → Production α}
    {level : (ι → Production α) → ι → Production α}
    (h : ∀ n nested, (∀ l i, Lays row i n anywhere (T l i) (nested l)) →
      ∀ l i, Lays row i (n + 1) anywhere (T l i) (level nested l)) (l : ι) (i : Nat) :
    Lays row i n anywhere (T l i) (ahead >>= fun tokens => Grammar.nest placeholder level tokens l) :=
  nestBelow (fun k _ => h k) l i

end Lays

def Between (row : TokenRow) (i j : Nat) {α : Type} [Outermost α] (a : α) : Prop := ∀ e ∈ outermost a, Laid row i j e

theorem Between.wider {α : Type} [Outermost α] {a : α} {k l : Nat} (h : Between row i j a) (le : k ≤ i) (le' : j ≤ l) :
    Between row k l a := fun e mem => (h e mem).wider le le'

def Houses (row : TokenRow) (n : Nat) (sort : Kind → Prop) (kept : List Expr) {α : Type} [Outermost α]
    (m : Production α) : Prop :=
  ∀ i, Lays row i n sort (fun j a => ∀ e ∈ outermost a, e ∈ kept ∨ Laid row i j e) m

namespace Houses

variable {n k : Nat} {sort : Kind → Prop} {α β : Type} [Outermost α] [Outermost β] {kept kept' : List Expr}
  {m : Production α} {f : α → Production β}

theorem always (h : Houses row n anywhere kept m) : Houses row n sort kept m := fun i => (h i).always

theorem fewer (h : Houses row k sort kept m) (le : n ≤ k) : Houses row n sort kept m :=
  fun i => (h i).mono (fun _ is => is) le

theorem more (h : Houses row n sort kept m) (subset : kept ⊆ kept') : Houses row n sort kept' m := fun i =>
  (h i).weaken fun _ _ _ found e mem => (found e mem).imp_left fun known => subset known

theorem between (h : Houses row n sort [] m) : Lays row i n sort (fun j a => Between row i j a) m :=
  (h i).weaken fun _ _ _ found e mem => (found e mem).resolve_left List.not_mem_nil

theorem ofBetween (h : ∀ i, Lays row i n sort (fun j a => Between row i j a) m) : Houses row n sort kept m := fun i =>
  (h i).weaken fun _ _ _ found e mem => .inr (found e mem)

theorem laid {m : Production Expr} (h : Houses row n sort [] m) : Lays row i n sort (fun j e => Laid row i j e) m :=
  h.between.weaken fun _ e _ found => found e (List.mem_singleton_self e)

theorem ofLaid {m : Production Expr} (h : ∀ i, Lays row i n sort (fun j e => Laid row i j e) m) :
    Houses row n sort kept m :=
  ofBetween fun i => (h i).weaken fun _ _ _ found _ mem => List.mem_singleton.mp mem ▸ found

theorem pure {a : α} (enough : outermost a ⊆ kept) : Houses row n sort kept (Pure.pure a) := fun _ =>
  .pure fun _ mem => .inl (enough mem)

theorem carry (step : Houses row n sort kept m) (rest : ∀ a, Houses row n anywhere (kept ++ outermost a) (f a)) :
    Houses row n sort kept (m >>= f) := by
  refine fun i => .bind (step i) fun j a le found => (rest a j).weaken fun l b le' found' e mem => ?_
  rcases found' e mem with known | new
  · refine (List.mem_append.mp known).elim .inl fun ofA => ?_
    exact (found e ofA).imp_right fun old => old.wider (Nat.le_refl i) le'
  · exact .inr (new.wider le (Nat.le_refl l))

theorem bind (step : Houses row n sort [] m) (rest : ∀ a, Houses row n anywhere (kept ++ outermost a) (f a)) :
    Houses row n sort kept (m >>= f) := carry (step.more (List.nil_subset kept)) rest

theorem last {g : α → β} (step : Houses row n sort [] m) (enough : ∀ a, outermost (g a) ⊆ kept ++ outermost a) :
    Houses row n sort kept (do return g (← m)) := bind step fun a => pure (enough a)

section Steps

variable {γ : Type} {l : Production γ} {g : γ → Production β}

theorem skip (rest : ∀ a, Houses row n anywhere kept (g a)) : Houses row n sort kept (l >>= g) := by
  refine fun i => .skip fun j a le => (rest a j).weaken fun l b le' found e mem => ?_
  exact (found e mem).imp_right fun new => new.wider le (Nat.le_refl l)

theorem look {view : State → γ} (rest : ∀ a, Houses row n sort kept (g a)) :
    Houses row n sort kept (.read view >>= g) := fun i => .look fun a => rest a i

theorem byKind {f : Kind → Production β} (h : ∀ x, sort x → Houses row n (· = x) kept (f x)) :
    Houses row n sort kept (currentKind >>= f) := fun i => .byKind fun x first => h x first i

theorem ifNext {p : Kind → Bool} {yes no : Production β}
    (holds : Houses row n (fun x => sort x ∧ p x = true) kept yes)
    (fails : Houses row n (fun x => sort x ∧ p x = false) kept no) :
    Houses row n sort kept (nextIs p >>= fun b => if b = true then yes else no) :=
  fun i => .ifNext (holds i) (fails i)

theorem ifEats {x : Kind} {yes no : Production β} (holds : Houses row n anywhere kept yes)
    (fails : Houses row n anywhere kept no) :
    Houses row n sort kept (Grammar.eat x >>= fun b => if b = true then yes else no) :=
  skip fun b => by cases b <;> assumption

theorem fault {report : Production Unit} {f : Unit → Production β} (h : Faults report) :
    Houses row n sort kept (report >>= f) := fun _ => .fault h

theorem given {report : Production Unit} {found : Bool} {f : Unit → Production β} (h : Faults report)
    (rest : found = false → Houses row n sort kept (f ())) :
    Houses row n sort kept (Grammar.given found report >>= f) :=
  fun i => .given h fun none => rest none i

theorem token {x : Kind} {f : Token → Production β} (real : x ≠ .endOfText)
    (rest : ∀ t, Houses row n anywhere kept (f t)) : Houses row (n + 1) (· = x) kept (Grammar.advance >>= f) := by
  refine fun i => .token real (fun t _ here => (rest t (i + 1)).weaken fun j b le found e mem => ?_) (Nat.le_refl _)
  exact (found e mem).imp_right fun new => new.wider (Nat.le_succ i) (Nat.le_refl j)

theorem expectThen {x : Kind} {f : Unit → Production β} (real : x ≠ .endOfText)
    (rest : Houses row n anywhere kept (f ())) : Houses row (n + 1) sort kept (Grammar.expect x >>= f) := by
  refine fun i => .expectThen real ((rest (i + 1)).weaken fun j b le found e mem => ?_)
  exact (found e mem).imp_right fun new => new.wider (Nat.le_succ i) (Nat.le_refl j)

end Steps

theorem nestBelow {ι : Type} {placeholder : ι → Production α} {level : (ι → Production α) → ι → Production α}
    (h : ∀ k < n, ∀ nested, (∀ l, Houses row k anywhere [] (nested l)) →
      ∀ l, Houses row (k + 1) anywhere [] (level nested l)) (l : ι) :
    Houses row n sort [] (ahead >>= fun tokens => Grammar.nest placeholder level tokens l) := fun i =>
  .always (.nestBelow (fun k less nested same l i => h k less nested (fun l i => same l i) l i) l i)

theorem nest {ι : Type} {placeholder : ι → Production α} {level : (ι → Production α) → ι → Production α}
    (h : ∀ n nested, (∀ l, Houses row n anywhere [] (nested l)) → ∀ l, Houses row (n + 1) anywhere [] (level nested l))
    (l : ι) : Houses row n sort [] (ahead >>= fun tokens => Grammar.nest placeholder level tokens l) :=
  nestBelow (fun k _ => h k) l

section Rows

variable {body : α → Production α} {a : α} (start : outermost a ⊆ kept)
include start

theorem whileEats {x : Kind} (real : x ≠ .endOfText)
    (round : ∀ a, Houses row n anywhere (kept ++ outermost a) (body a)) :
    Houses row n sort kept (whileHolds (Grammar.eat x) body a) := by
  refine fun i => .whileEats real (fun j b le found => ?_) fun e mem => .inl (start mem)
  refine (round b (j + 1)).weaken fun l c le' found' e mem => ?_
  rcases found' e mem with known | new
  · refine (List.mem_append.mp known).elim .inl fun ofB => ?_
    exact (found e ofB).imp_right fun old => old.wider (Nat.le_refl i) (by omega)
  · exact .inr (new.wider (by omega) (Nat.le_refl l))

theorem whileNext {p : Kind → Bool} (round : ∀ a, Houses row n (fun x => p x = true) (kept ++ outermost a) (body a)) :
    Houses row n sort kept (whileHolds (nextIs p) body a) := by
  refine fun i => .whileNext (fun j b le found => ?_) fun e mem => .inl (start mem)
  refine (round b j).weaken fun l c le' found' e mem => ?_
  rcases found' e mem with known | new
  · refine (List.mem_append.mp known).elim .inl fun ofB => ?_
    exact (found e ofB).imp_right fun old => old.wider (Nat.le_refl i) le'
  · exact .inr (new.wider le (Nat.le_refl l))

end Rows

theorem collected {condition : Production Bool}
    (loop : Houses row n sort kept (whileHolds condition (fun found : List α => do return (← m) :: found) [])) :
    Houses row n sort kept (many condition m) := by
  refine carry loop fun found => pure fun e mem => ?_
  exact List.mem_append_right kept (memReverse.mp mem)

theorem gathers {sort : Kind → Prop} (item : Houses row n sort kept m) (found : List α) :
    Houses row n sort (kept ++ outermost found) (do return (← m) :: found) := by
  refine fun i => .bind (item i) fun j a le ofA => .pure fun e mem => ?_
  rw [outermostCons, List.mem_append] at mem
  rw [List.mem_append]
  rcases mem with first | later
  · exact (ofA e first).imp_left .inl
  · exact .inl (.inr later)

theorem manyEats {x : Kind} (real : x ≠ .endOfText) (item : Houses row n anywhere kept m) :
    Houses row n sort kept (many (Grammar.eat x) m) :=
  collected (whileEats (List.nil_subset _) real (gathers item))

theorem manyNext {p : Kind → Bool} (item : Houses row n (fun x => p x = true) kept m) :
    Houses row n sort kept (many (nextIs p) m) :=
  collected (whileNext (List.nil_subset _) (gathers item))

theorem commaSeparated (item : Houses row n anywhere kept m) : Houses row n sort kept (Grammar.commaSeparated m) := by
  refine fun i => .bind (item.always i) fun j a le ofA => ?_
  have rest : Lays row j n anywhere (fun l as => ∀ e ∈ outermost as, e ∈ kept ∨ Laid row j l e)
    (many (Grammar.eat .comma) m) := manyEats (by decide) item j
  refine .bind rest fun l as le' ofRest => .pure fun e mem => ?_
  rw [outermostCons, List.mem_append] at mem
  rcases mem with first | later
  · exact (ofA e first).imp_right fun new => new.wider (Nat.le_refl i) le'
  · exact (ofRest e later).imp_right fun new => new.wider le (Nat.le_refl l)

end Houses

end Boogie.Grammar
