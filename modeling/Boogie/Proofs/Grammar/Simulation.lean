import Mathlib.Data.List.Forall2
import Boogie.Proofs.Grammar.Progress
import Boogie.Proofs.Tree.Retyped

/-! Two readings side by side. One reading simulates another while their states are related; what they
build is then alike, which is to say equal up to spans. The words that begin a declaration may stand in the
second reading where the first one has come to its end, and behind a colon a name may stand where the first
has a keyword that is a type; what they build is then alike but for that type. Each rule here takes the
relation through one step of a production. -/
namespace Boogie.Grammar

open Token (Kind KindSet)

def isClosing : Kind → Bool
  | .kwConst | .kwFunction | .kwAxiom | .kwType | .kwProcedure | .kwImplementation => true
  | _ => false

def isPlain (x : Kind) : Bool := x != .endOfText && x != .colon

def isInner (x : Kind) : Bool := isPlain x && !isClosing x

theorem realOfPlain {x : Kind} (plain : isPlain x = true) : x ≠ .endOfText := by
  rintro rfl
  exact absurd plain nofun

theorem plainOf {x k : Kind} (is : (x == k) = true) (plain : isPlain k = true) : isPlain x = true := by
  rwa [beq_iff_eq.mp is]

theorem plainOfMem {set : KindSet} {x : Kind} (mem : set.contains x = true)
    (ends : set.contains .endOfText = false) (colon : set.contains .colon = false) : isPlain x = true := by
  rw [isPlain, Bool.and_eq_true, bne_iff_ne, bne_iff_ne]
  constructor <;> rintro rfl <;> simp_all

theorem plainOfSome {β : Type} {f : Kind → Option β} {x : Kind} (some : (f x).isSome = true)
    (ends : f .endOfText = none) (colon : f .colon = none) : isPlain x = true := by
  rw [isPlain, Bool.and_eq_true, bne_iff_ne, bne_iff_ne]
  constructor <;> rintro rfl <;> simp_all

structure Uniform {β : Type} (f : Kind → β) : Prop where
  ofConst : f .kwConst = f .endOfText
  ofFunction : f .kwFunction = f .endOfText
  ofAxiom : f .kwAxiom = f .endOfText
  ofType : f .kwType = f .endOfText
  ofProcedure : f .kwProcedure = f .endOfText
  ofImplementation : f .kwImplementation = f .endOfText

theorem Uniform.same {β : Type} {f : Kind → β} (h : Uniform f) {k : Kind} (closing : isClosing k = true) :
    f k = f .endOfText := by
  unfold isClosing at closing
  split at closing
  · exact h.ofConst
  · exact h.ofFunction
  · exact h.ofAxiom
  · exact h.ofType
  · exact h.ofProcedure
  · exact h.ofImplementation
  · exact absurd closing nofun

instance {β : Type} [DecidableEq β] (f : Kind → β) : Decidable (Uniform f) :=
  decidable_of_decidable_of_iff (p := [Kind.kwConst, .kwFunction, .kwAxiom, .kwType, .kwProcedure,
    .kwImplementation].all (fun k => f k = f .endOfText) = true) <| by
    simp only [List.all_cons, List.all_nil, Bool.and_true, Bool.and_eq_true, decide_eq_true_eq]
    exact ⟨fun ⟨c, f, a, t, p, i⟩ => ⟨c, f, a, t, p, i⟩, fun ⟨c, f, a, t, p, i⟩ => ⟨c, f, a, t, p, i⟩⟩

def Alike {α : Type} [Spanned α] (a a' : α) : Prop := bare a = bare a'

def Like {α : Type} [Spanned α] [Typed α] (c : Option Change) (a a' : α) : Prop := Alike (retyped c a) a'

@[simp] theorem likeNone {α : Type} [Spanned α] [Typed α] {a a' : α} : Like none a a' ↔ Alike a a' := .rfl

theorem neverChanged (changed : (none : Option Change).isSome = true) {s : State} (_ : True) : s.mistakes = 0 :=
  absurd changed Bool.false_ne_true

theorem neverMarked {s s' : State} (marked : False) : (none : Option Change).isSome = true ∧ s.isClosed ∧
    (basicType s.kind).isSome = true ∧ s'.kind = .identifier := marked.elim

structure Simulation where
  rel : State → State → Prop
  within : State → Prop := fun _ => True
  withinBefore {s t : State} (last : State.Step s t) (h : within t) : within s := by exact fun _ _ => trivial
  change : Option Change := none
  marked : State → State → Prop := fun _ _ => False
  closed {s s' : State} (h : rel s s') : s.isClosed
  fewer {s s' : State} (h : rel s s') : s.left ≤ s'.left
  kind {s s' : State} (h : rel s s') :
    s'.kind = s.kind ∨ (s.kind = .endOfText ∧ isClosing s'.kind = true)
  text {s s' : State} (h : rel s s') (more : s.kind ≠ .endOfText) (spelled : s.kind.isClass = true) :
    s.cursor.current.text = s'.cursor.current.text
  keyword {s s' : State} (h : rel s s') {b : BasicType} (is : basicType s.kind = some b) :
    Like change (Ty.basic s.cursor.current.span b) (.basic s'.cursor.current.span b) := by exact fun _ _ _ => rfl
  advance {s s' : State} (h : rel s s') (more : s.kind ≠ .endOfText) (inside : within s.advance) :
    rel s.advance s'.advance ∨ (s.kind = .colon ∧ marked s.advance s'.advance)
  clean (changed : change.isSome = true) {s : State} (inside : within s) : s.mistakes = 0 := by
    first
      | exact @neverChanged
      | exact fun changed => absurd changed Bool.false_ne_true
  ofMarked {s s' : State} (h : marked s s') :
    change.isSome = true ∧ s.isClosed ∧ (basicType s.kind).isSome = true ∧ s'.kind = .identifier := by
    exact @neverMarked
  typeMarked {s s' : State} (h : marked s s') (inside : within (type.run s).2) :
    Like change (type.run s).1 (type.run s').1 ∧ rel (type.run s).2 (type.run s').2 := by exact False.elim
  syntaxError {s s' : State} (h : rel s s') (e : SyntaxError) : rel (s.syntaxError e) (s'.syntaxError e)
  broken {s s' : State} (h : rel s s') (rule : Rule) : rel (s.broken rule) (s'.broken rule)
  brokenAt {s s' : State} (h : rel s s') (span span' : Span) (rule : Rule) :
    rel (s.brokenAt span rule) (s'.brokenAt span' rule)

theorem Simulation.kindEq {S : Simulation} {s s' : State} (h : S.rel s s') (more : s.kind ≠ .endOfText) :
    s'.kind = s.kind := (S.kind h).resolve_right fun ended => more ended.1

theorem Simulation.past {S : Simulation} {s s' : State} (h : S.rel s s') (plain : isPlain s.kind = true)
    (inside : S.within s.advance) : S.rel s.advance s'.advance := by
  refine (S.advance h (realOfPlain plain) inside).resolve_right ?_
  rintro ⟨colon, -⟩
  rw [colon] at plain
  exact absurd plain nofun

theorem Simulation.uniform {S : Simulation} {s s' : State} (h : S.rel s s') {β : Type} {f : Kind → β}
    (ofF : Uniform f) : f s'.kind = f s.kind := by
  rcases S.kind h with same | ⟨ended, closing⟩
  · rw [same]
  · rw [ended, ofF.same closing]

theorem Simulation.sameKind {S : Simulation} {s s' : State} (h : S.rel s s') {k : Kind}
    (real : k ≠ .endOfText) (open_ : isClosing k = false) : s'.kind = k ↔ s.kind = k := by
  rcases S.kind h with same | ⟨ended, closing⟩
  · rw [same]
  · constructor
    · intro same
      rw [same, open_] at closing
      exact absurd closing nofun
    · intro same
      exact absurd (same.symm.trans ended) real

theorem Simulation.withinReached {S : Simulation} {s t : State} (row : s.Reaches t) (h : S.within t) : S.within s := by
  induction row with
  | refl => exact h
  | step _ last ih => exact ih (S.withinBefore last h)

def Simulates (S : Simulation) (n : Nat) (sort : Kind → Prop) {α : Type} (V : α → α → Prop)
    (m m' : Production α) : Prop :=
  ∀ s s', S.rel s s' → s.left < n → sort s.kind → S.within (m.run s).2 →
    V (m.run s).1 (m'.run s').1 ∧ S.rel (m.run s).2 (m'.run s').2

structure SameToken (c : Option Change) (sort : Kind → Prop) (t t' : Token) : Prop where
  first : sort t.kind
  kind : t'.kind = t.kind
  text : t.kind.isClass = true → t.text = t'.text
  keyword : ∀ b, basicType t.kind = some b → Like c (Ty.basic t.span b) (.basic t'.span b)

namespace Simulates

variable {S : Simulation} {n k : Nat} {sort : Kind → Prop} {α β : Type} {V : α → α → Prop}
  {W : β → β → Prop} {m m' : Production α} {f f' : α → Production β}

theorem mono {wide : Kind → Prop} (h : Simulates S k wide V m m') (narrow : ∀ x, sort x → wide x)
    (fewer : n ≤ k) : Simulates S n sort V m m' :=
  fun s s' row left first inside => h s s' row (Nat.lt_of_lt_of_le left fewer) (narrow _ first) inside

theorem always (h : Simulates S n anywhere V m m') : Simulates S n sort V m m' :=
  h.mono (fun _ _ => trivial) (Nat.le_refl n)

theorem pure {a a' : α} (h : V a a') : Simulates S n sort V (Pure.pure a) (Pure.pure a') :=
  fun _ _ row _ _ _ => ⟨h, row⟩

theorem bind (step : Simulates S n sort V m m')
    (rest : ∀ a a', V a a' → Simulates S n anywhere W (f a) (f' a')) :
    Simulates S n sort W (m >>= f) (m' >>= f') := by
  intro s s' row left first inside
  obtain ⟨found, after⟩ := step s s' row left first (S.withinReached ((f (m.run s).1).reaches _) inside)
  exact rest _ _ found _ _ after (Nat.lt_of_le_of_lt (m.reaches s).leftLe left) trivial inside

theorem stay (stays : Stays m) (step : Simulates S n sort V m m')
    (rest : ∀ a a', V a a' → Simulates S n sort W (f a) (f' a')) :
    Simulates S n sort W (m >>= f) (m' >>= f') := by
  intro s s' row left first inside
  obtain ⟨found, after⟩ := step s s' row left first (S.withinReached ((f (m.run s).1).reaches _) inside)
  refine rest _ _ found _ _ after ?_ ?_ inside
  · rwa [stays.leftEq]
  · rwa [stays.kindEq]

theorem progress (moves : Progresses sort m) (step : Simulates S (n + 1) sort V m m')
    (rest : ∀ a a', V a a' → Simulates S n anywhere W (f a) (f' a')) :
    Simulates S (n + 1) sort W (m >>= f) (m' >>= f') := by
  intro s s' row left first inside
  obtain ⟨found, after⟩ := step s s' row left first (S.withinReached ((f (m.run s).1).reaches _) inside)
  have := moves s (S.closed row) first
  exact rest _ _ found _ _ after (by omega) trivial inside

theorem advance (plain : ∀ x, sort x → isPlain x = true) :
    Simulates S n sort (SameToken S.change sort) advance advance := by
  intro s s' row _ first inside
  have more := realOfPlain (plain _ first)
  refine ⟨⟨first, S.kindEq row more, fun spelled => S.text row more spelled, fun _ is => S.keyword row is⟩, ?_⟩
  exact S.past row (plain _ first) inside

theorem currentSpan : Simulates S n sort (fun _ _ => True) currentSpan currentSpan :=
  fun _ _ row _ _ _ => ⟨trivial, row⟩

theorem previousSpan : Simulates S n sort (fun _ _ => True) previousSpan previousSpan :=
  fun _ _ row _ _ _ => ⟨trivial, row⟩

theorem spanFrom {start start' : Span} :
    Simulates S n sort (fun _ _ => True) (spanFrom start) (spanFrom start') :=
  fun _ _ row _ _ _ => ⟨trivial, row⟩

theorem syntaxError (e : SyntaxError) :
    Simulates S n sort (fun _ _ => True) (syntaxError e) (syntaxError e) :=
  fun _ _ row _ _ _ => ⟨trivial, S.syntaxError row e⟩

theorem broken (rule : Rule) : Simulates S n sort (fun _ _ => True) (broken rule) (broken rule) :=
  fun _ _ row _ _ _ => ⟨trivial, S.broken row rule⟩

theorem brokenAt {span span' : Span} (rule : Rule) :
    Simulates S n sort (fun _ _ => True) (brokenAt span rule) (brokenAt span' rule) :=
  fun _ _ row _ _ _ => ⟨trivial, S.brokenAt row span span' rule⟩

theorem fault {report report' : Production Unit} {f f' : Unit → Production α} (faults : Faults report)
    (rest : S.change = none → Simulates S n sort V (report >>= f) (report' >>= f')) :
    Simulates S n sort V (report >>= f) (report' >>= f') := by
  intro s s' row left first inside
  cases changed : S.change with
  | none => exact rest changed s s' row left first inside
  | some c =>
    have less := faults s
    have clean := S.clean (by rw [changed]; rfl) inside
    have later := ((f (report.run s).1).reaches (report.run s).2).mistakesLe
    simp only [Production.runBind] at clean
    omega

theorem given {found : Bool} {report report' : Production Unit}
    (h : Simulates S n sort (fun _ _ => True) report report') :
    Simulates S n sort (fun _ _ => True) (given found report) (given found report') := by
  cases found with
  | false => exact pure trivial
  | true => exact h

theorem ifNext {p : Kind → Bool} {yes yes' no no' : Production α} (uniform : Uniform p)
    (holds : Simulates S n (fun x => sort x ∧ p x = true) V yes yes')
    (fails : Simulates S n (fun x => sort x ∧ p x = false) V no no') :
    Simulates S n sort V (nextIs p >>= fun b => if b = true then yes else no)
      (nextIs p >>= fun b => if b = true then yes' else no') := by
  intro s s' row left first
  have same := S.uniform row uniform
  cases h : p s.kind
  · simpa [h, same] using fails s s' row left ⟨first, h⟩
  · simpa [h, same] using holds s s' row left ⟨first, h⟩

theorem ifNextThen {p : Kind → Bool} {yes yes' no no' : Production α} (uniform : Uniform p)
    (holds : Simulates S n (fun x => sort x ∧ p x = true) W (yes >>= f) (yes' >>= f'))
    (fails : Simulates S n (fun x => sort x ∧ p x = false) W (no >>= f) (no' >>= f')) :
    Simulates S n sort W (Grammar.ifNext (nextIs p) yes no >>= f)
      (Grammar.ifNext (nextIs p) yes' no' >>= f') := by
  intro s s' row left first
  have same := S.uniform row uniform
  cases h : p s.kind
  · simpa [Grammar.ifNext, h, same] using fails s s' row left ⟨first, h⟩
  · simpa [Grammar.ifNext, h, same] using holds s s' row left ⟨first, h⟩

theorem eat {x : Kind} {f f' : Bool → Production α} (inner : isInner x = true)
    (holds : Simulates S k anywhere V (f true) (f' true))
    (fails : Simulates S n (fun y => sort y ∧ y ≠ x) V (f false) (f' false)) (fewer : n ≤ k + 1) :
    Simulates S n sort V (eat x >>= f) (eat x >>= f') := by
  intro s s' row left first inside
  have ⟨plain, open_⟩ : isPlain x = true ∧ isClosing x = false := by simpa [isInner] using inner
  have real := realOfPlain plain
  by_cases same : s.kind = x
  · have same' := (S.sameKind row real open_).mpr same
    simp only [Production.runBind, runEatYes same, runEatYes same'] at inside ⊢
    have less := State.advanceLt (S.closed row) (same ▸ real)
    have after := S.past row (same ▸ plain) (S.withinReached ((f true).reaches _) inside)
    exact holds _ _ after (by omega) trivial inside
  · have same' := mt (S.sameKind row real open_).mp same
    simp only [Production.runBind, runEatNo same, runEatNo same'] at inside ⊢
    exact fails _ _ row left ⟨first, same⟩ inside

theorem eats {x : Kind} (inner : isInner x = true) :
    Simulates S n sort (fun b b' : Bool => b = b') (Grammar.eat x) (Grammar.eat x) := by
  have step : Simulates S n sort (fun b b' : Bool => b = b') (Grammar.eat x >>= Pure.pure)
      (Grammar.eat x >>= Pure.pure) := eat (k := n) inner (pure rfl) (pure rfl) (Nat.le_succ n)
  rwa [bind_pure] at step

theorem ifEats {x : Kind} {yes yes' no no' : Production α} (inner : isInner x = true)
    (holds : Simulates S n anywhere V yes yes')
    (fails : Simulates S n (fun y => sort y ∧ y ≠ x) V no no') :
    Simulates S n sort V (Grammar.eat x >>= fun b => if b = true then yes else no)
      (Grammar.eat x >>= fun b => if b = true then yes' else no') := by
  refine eat inner (k := n) ?_ ?_ (Nat.le_succ n)
  · simpa using holds
  · simpa using fails

theorem ifEatsFirst {x : Kind} {yes yes' no no' : Production α} (inner : isInner x = true)
    (holds : Simulates S n anywhere V yes yes')
    (fails : Simulates S (n + 1) (fun y => sort y ∧ y ≠ x) V no no') :
    Simulates S (n + 1) sort V (Grammar.eat x >>= fun b => if b = true then yes else no)
      (Grammar.eat x >>= fun b => if b = true then yes' else no') := by
  refine eat inner (k := n) ?_ ?_ (Nat.le_refl _)
  · simpa using holds
  · simpa using fails

theorem expect {x : Kind} (inner : isInner x = true) :
    Simulates S n sort (fun _ _ => True) (expect x) (expect x) :=
  ifEats inner (pure trivial) (syntaxError _)

theorem byKind {f f' : Kind → Production α} (uniform : Uniform f')
    (h : ∀ x, sort x → Simulates S n (· = x) V (f x) (f' x)) :
    Simulates S n sort V (currentKind >>= f) (currentKind >>= f') := by
  intro s s' row left first
  have same := S.uniform row uniform
  simpa [currentKind, same] using h s.kind first s s' row left rfl

theorem byInnerKind {f f' : Kind → Production α} (real : ∀ x, sort x → x ≠ .endOfText)
    (h : ∀ x, sort x → Simulates S n (· = x) V (f x) (f' x)) :
    Simulates S n sort V (currentKind >>= f) (currentKind >>= f') := by
  intro s s' row left first
  have same := S.kindEq row (real _ first)
  simpa [currentKind, same] using h s.kind first s s' row left rfl

theorem skips {set : Token.KindSet} (uniform : Uniform set.contains) (ends : set.contains .endOfText = true)
    {s s' : State} (row : S.rel s s') (mistaken : s.mistakes ≠ 0) (inside : S.within (s.synchronize set)) :
    S.rel (s.synchronize set) (s'.synchronize set) := by
  generalize count : s.left = m
  induction m generalizing s s' with
  | zero =>
    have ended : s.kind = .endOfText := Decidable.byContradiction fun more =>
      Nat.ne_of_gt (State.leftPos (S.closed row) more) count
    have stops' : set.contains s'.kind = true := by rw [S.uniform row uniform, ended, ends]
    rwa [Progresses.synchronizeHere (.inr (by rw [ended, ends])), Progresses.synchronizeHere (.inr stops')]
  | succ m ih =>
    have same := S.uniform row uniform
    cases here : set.contains s.kind with
    | true => rwa [Progresses.synchronizeHere (.inr here), Progresses.synchronizeHere (.inr (same.trans here))]
    | false =>
      have more : s.kind ≠ .endOfText := fun ended => by simp [ended, ends] at here
      have fewer := S.fewer row
      rw [Progresses.synchronizeOn (by omega) here] at inside
      rw [Progresses.synchronizeOn (by omega) here, Progresses.synchronizeOn (by omega) (same.trans here)]
      have within := S.withinReached (State.reachesSynchronize set s.advance) inside
      -- nothing is marked where a mistake was made
      have after := (S.advance row more within).resolve_right fun ⟨_, marked⟩ =>
        mistaken (show s.advance.mistakes = 0 from S.clean (S.ofMarked marked).1 within)
      exact ih after mistaken inside (by rw [State.leftAdvance, count]; rfl)

theorem recover {set : Token.KindSet} {e : SyntaxError} {f f' : Unit → Production α} (uniform : Uniform set.contains)
    (ends : set.contains .endOfText = true) (rest : Simulates S n anywhere V (f ()) (f' ())) :
    Simulates S n sort V (Grammar.syntaxError e >>= fun _ => synchronize set >>= f)
      (Grammar.syntaxError e >>= fun _ => synchronize set >>= f') := by
  intro s s' row left _ inside
  have within := S.withinReached ((f ()).reaches _) inside
  have after := skips uniform ends (S.syntaxError row e) (Nat.succ_ne_zero _) within
  have less : ((s.syntaxError e).synchronize set).left ≤ s.left := (State.reachesSynchronize set _).leftLe
  exact rest _ _ after (Nat.lt_of_le_of_lt less left) trivial inside

theorem rounds {condition : Production Bool} {body body' : α → Production α} {bound : Nat}
    (stops : ∀ s s', S.rel s s' → s.kind = .endOfText → condition.run s' = (false, s'))
    (round : ∀ m < bound, ∀ a a', V a a' → ∀ rest rest' : α → Production α,
      (∀ a a', V a a' → Simulates S m anywhere V (rest a) (rest' a')) →
      Simulates S (m + 1) anywhere V
        (condition >>= fun b => if b = true then body a >>= rest else Pure.pure a)
        (condition >>= fun b => if b = true then body' a' >>= rest' else Pure.pure a'))
    (tokens tokens' : List Token) (more : tokens.length ≤ tokens'.length) (n : Nat)
    (enough : n ≤ tokens.length + 1) (less : n ≤ bound) (a a' : α) (start : V a a') :
    Simulates S n anywhere V (Grammar.rounds condition body tokens a)
      (Grammar.rounds condition body' tokens' a') := by
  induction tokens generalizing tokens' n a a' with
  | nil =>
    intro s s' row left _ _
    cases tokens' with
    | nil => exact ⟨start, row⟩
    | cons t rest =>
      have none : s.left = 0 := by simp only [List.length_nil] at enough; omega
      have ended : s.kind = .endOfText := Decidable.byContradiction fun some =>
        Nat.ne_of_gt (State.leftPos (S.closed row) some) none
      simp only [Grammar.rounds, Production.runBind, stops s s' row ended]
      exact ⟨start, row⟩
  | cons t rest ih =>
    cases tokens' with
    | nil => exact absurd more (Nat.not_succ_le_zero _)
    | cons t' rest' =>
      cases n with
      | zero => exact fun _ _ _ left => absurd left (Nat.not_lt_zero _)
      | succ n =>
        exact round n less a a' start _ _ fun b b' found =>
          ih rest' (Nat.le_of_succ_le_succ more) n (Nat.le_of_succ_le_succ enough) (Nat.le_of_succ_le less)
            b b' found

theorem whileNext {p : Kind → Bool} {body body' : α → Production α} {a a' : α} (uniform : Uniform p)
    (stops : p .endOfText = false) (start : V a a') (moves : ∀ a, Progresses (fun x => p x = true) (body a))
    (round : ∀ a a', V a a' → Simulates S n (fun x => p x = true) V (body a) (body' a')) :
    Simulates S n sort V (whileHolds (nextIs p) body a) (whileHolds (nextIs p) body' a') := by
  intro s s' row left _ inside
  refine rounds ?_ ?_ s.cursor.ahead s'.cursor.ahead (S.fewer row) (s.left + 1)
    (Nat.le_refl _) left a a' start s s' row (Nat.lt_succ_self _) trivial inside
  · intro t t' row ended
    rw [runNextIs, S.uniform row uniform, ended, stops]
  · intro m less b b' found rest rest' more
    refine ifNext uniform ?_ (pure found)
    refine progress ((moves b).mono fun _ h => h.2) ?_ more
    exact (round b b' found).mono (fun _ h => h.2) less

theorem whileEats {x : Kind} {body body' : α → Production α} {a a' : α} (inner : isInner x = true)
    (start : V a a') (round : ∀ a a', V a a' → Simulates S k anywhere V (body a) (body' a'))
    (fewer : n ≤ k + 1) :
    Simulates S n sort V (whileHolds (Grammar.eat x) body a) (whileHolds (Grammar.eat x) body' a') := by
  have ⟨plain, open_⟩ : isPlain x = true ∧ isClosing x = false := by simpa [isInner] using inner
  have real := realOfPlain plain
  intro s s' row left _ inside
  refine rounds ?_ ?_ s.cursor.ahead s'.cursor.ahead (S.fewer row) (s.left + 1)
    (Nat.le_refl _) left a a' start s s' row (Nat.lt_succ_self _) trivial inside
  · intro t t' row ended
    refine runEatNo fun same => real ?_
    exact ((S.sameKind row real open_).mp same).symm.trans ended
  · intro m less b b' found rest rest' more
    refine eat inner (k := m) ?_ (pure found) (Nat.le_refl _)
    have step : Simulates S m anywhere V (body b) (body' b') :=
      (round b b' found).mono (fun _ h => h) (by omega)
    simpa using bind step more

end Simulates

section Lists

variable {α : Type} [Spanned α]

theorem Alike.cons {a a' : α} {as as' : List α} (one : Alike a a') (more : Alike as as') :
    Alike (a :: as) (a' :: as') := by
  simp only [Alike, bare, respanCons] at one more ⊢
  rw [one, more]

theorem Alike.reverse {as as' : List α} (h : Alike as as') : Alike as.reverse as'.reverse := by
  simp only [Alike, bare, respanReverse] at h ⊢
  rw [h]

theorem Alike.nil : Alike ([] : List α) [] := rfl

theorem Alike.append {as as' bs bs' : List α} (ofAs : Alike as as') (ofBs : Alike bs bs') :
    Alike (as ++ bs) (as' ++ bs') := by
  simp only [Alike, bare, respanAppend] at ofAs ofBs ⊢
  rw [ofAs, ofBs]

theorem Alike.lengthEq {as as' : List α} (h : Alike as as') : as.length = as'.length := by
  simpa [bare] using congrArg List.length h

theorem Alike.isEmptyEq {as as' : List α} (h : Alike as as') : as.isEmpty = as'.isEmpty := by
  have count := h.lengthEq
  cases as <;> cases as' <;> simp_all

theorem Alike.part {β : Type} [Spanned β] {g : α → β} (natural : ∀ f a, respan f (g a) = g (respan f a))
    {a a' : α} (h : Alike a a') : Alike (g a) (g a') := by
  rw [Alike, bare, bare, natural, natural]
  exact congrArg g h

theorem Alike.map {β : Type} [Spanned β] {g g' : α → β} (same : ∀ a a', Alike a a' → Alike (g a) (g' a'))
    {as as' : List α} (h : Alike as as') : Alike (as.map g) (as'.map g') := by
  induction as generalizing as' with
  | nil =>
    cases as' with
    | nil => exact .nil
    | cons a' rest' => exact absurd h nofun
  | cons a rest ih =>
    cases as' with
    | nil => exact absurd h nofun
    | cons a' rest' =>
      obtain ⟨one, more⟩ := List.cons.inj h
      exact .cons (same a a' one) (ih more)

theorem Alike.filterMap {β : Type} [Spanned β] {g : α → Option β}
    (natural : ∀ f a, respan f (g a) = g (respan f a)) {as as' : List α} (h : Alike as as') :
    Alike (as.filterMap g) (as'.filterMap g) := by
  have apart (as : List α) : bare (as.filterMap g) = (bare as).filterMap g := by
    simp only [bare, respanList, List.map_filterMap, List.filterMap_map]
    exact congrArg (as.filterMap ·) (funext fun a => natural _ a)
  rw [Alike, apart, apart, h]

theorem Alike.flatten {as as' : List (List α)} (h : Alike as as') : Alike as.flatten as'.flatten := by
  have apart (as : List (List α)) : bare as.flatten = (bare as).flatten := List.map_flatten
  rw [Alike, apart, apart, h]

theorem Alike.isSomeEq {a a' : Option α} (h : Alike a a') : a.isSome = a'.isSome := by
  cases a <;> cases a' <;> simp_all [Alike, bare]

theorem Alike.pair {β : Type} [Spanned β] {a a' : α} {b b' : β} (h : Alike (a, b) (a', b')) :
    Alike a a' ∧ Alike b b' := Prod.mk.inj h

theorem Alike.nameEq {id id' : Ident} (h : Alike id id') : id.name = id'.name := by
  simpa [bare] using congrArg Ident.name (show bare id = bare id' from h)

end Lists

section Likeness

variable {α : Type} [Spanned α] [Typed α] {c : Option Change}

theorem Like.nameEq {id id' : Ident} (h : Like c id id') : id.name = id'.name := by
  rw [Like, retypedIdent] at h
  exact Alike.nameEq h

theorem likeIff {as as' : List α} : Like c as as' ↔ List.Forall₂ (Like c) as as' := by
  induction as generalizing as' with
  | nil =>
    cases as' with
    | nil => simp [Like, Alike]
    | cons a' rest' => simp [Like, Alike, bare]
  | cons a rest ih =>
    cases as' with
    | nil => simp [Like, Alike, bare]
    | cons a' rest' => simp [List.forall₂_cons, ← ih, Like, Alike, bare]

theorem Like.nil : Like c ([] : List α) [] := likeIff.mpr .nil

theorem Like.cons {a a' : α} {as as' : List α} (one : Like c a a') (more : Like c as as') :
    Like c (a :: as) (a' :: as') := likeIff.mpr (.cons one (likeIff.mp more))

theorem Like.reverse {as as' : List α} (h : Like c as as') : Like c as.reverse as'.reverse :=
  likeIff.mpr (List.rel_reverse (likeIff.mp h))

theorem Like.append {as as' bs bs' : List α} (ofAs : Like c as as') (ofBs : Like c bs bs') :
    Like c (as ++ bs) (as' ++ bs') := likeIff.mpr (List.rel_append (likeIff.mp ofAs) (likeIff.mp ofBs))

theorem Like.lengthEq {as as' : List α} (h : Like c as as') : as.length = as'.length :=
  (likeIff.mp h).length_eq

theorem Like.isEmptyEq {as as' : List α} (h : Like c as as') : as.isEmpty = as'.isEmpty := by
  have count := h.lengthEq
  cases as <;> cases as' <;> simp_all

theorem Like.part {β : Type} [Spanned β] [Typed β] {g : α → β} (natural : ∀ f a, respan f (g a) = g (respan f a))
    (kept : ∀ a, retyped c (g a) = g (retyped c a)) {a a' : α} (h : Like c a a') : Like c (g a) (g a') := by
  rw [Like, kept]
  exact Alike.part natural h

theorem Like.map {β : Type} [Spanned β] [Typed β] {g g' : α → β} (same : ∀ a a', Like c a a' → Like c (g a) (g' a'))
    {as as' : List α} (h : Like c as as') : Like c (as.map g) (as'.map g') :=
  likeIff.mpr (List.rel_map same (likeIff.mp h))

theorem Like.filterMap {β : Type} [Spanned β] [Typed β] {g : α → Option β}
    (natural : ∀ f a, respan f (g a) = g (respan f a)) (kept : ∀ a, retyped c (g a) = g (retyped c a))
    {as as' : List α} (h : Like c as as') : Like c (as.filterMap g) (as'.filterMap g) := by
  have apart : retyped c (as.filterMap g) = (retyped c as).filterMap g := by
    simp only [retypedList, List.map_filterMap, List.filterMap_map]
    refine congrArg (as.filterMap ·) (funext fun a => ?_)
    rw [Function.comp_apply, ← kept]
    cases g a <;> simp
  rw [Like, apart]
  exact Alike.filterMap natural h

theorem Like.flatten {as as' : List (List α)} (h : Like c as as') : Like c as.flatten as'.flatten := by
  refine likeIff.mpr ?_
  exact List.rel_flatten ((likeIff.mp h).imp fun _ _ => likeIff.mp)

theorem Like.isSomeEq {a a' : Option α} (h : Like c a a') : a.isSome = a'.isSome := by
  have same := Alike.isSomeEq h
  rw [← same]
  cases a <;> simp

theorem Like.none : Like c (none : Option α) none := by simp [Like, Alike]

theorem Like.some {a a' : α} (h : Like c a a') : Like c (some a) (some a') := by
  simpa [Like, Alike, bare] using h

theorem Like.both {β : Type} [Spanned β] [Typed β] {a a' : α} {b b' : β} (one : Like c a a') (other : Like c b b') :
    Like c (a, b) (a', b') := by
  rw [Like, retypedPair]
  exact Prod.ext one other

theorem Like.boolEq {b b' : Bool} (h : Like c b b') : b = b' := by simpa [Like, Alike, bare] using h

theorem Like.pair {β : Type} [Spanned β] [Typed β] {a a' : α} {b b' : β} (h : Like c (a, b) (a', b')) :
    Like c a a' ∧ Like c b b' := by
  rw [Like, retypedPair] at h
  exact Alike.pair h

end Likeness

namespace Simulates

variable {S : Simulation} {n k : Nat} {sort : Kind → Prop} {α β : Type} {V : α → α → Prop} {W : β → β → Prop}

theorem weaken {m m' : Production α} {V' : α → α → Prop} (h : Simulates S n sort V m m')
    (wider : ∀ a a', V a a' → V' a a') : Simulates S n sort V' m m' := fun s s' row left first inside =>
  have ⟨found, after⟩ := h s s' row left first inside
  ⟨wider _ _ found, after⟩

theorem eachNext {p : Kind → Bool} {item item' : Production α} (uniform : Uniform p)
    (stops : p .endOfText = false) (moves : Progresses (fun x => p x = true) item)
    (h : Simulates S n (fun x => p x = true) V item item') :
    Simulates S n sort (List.Forall₂ V) (many (nextIs p) item) (many (nextIs p) item') := by
  refine bind (V := List.Forall₂ V) (whileNext uniform stops .nil (fun _ => moves.first) fun as as' found => ?_)
    fun as as' found => pure (List.rel_reverse found)
  exact bind h fun a a' one => pure (.cons one found)

theorem eachEats {x : Kind} {item item' : Production α} (inner : isInner x = true)
    (h : Simulates S k anywhere V item item') (fewer : n ≤ k + 1) :
    Simulates S n sort (List.Forall₂ V) (many (Grammar.eat x) item) (many (Grammar.eat x) item') := by
  refine bind (V := List.Forall₂ V) (whileEats inner .nil (fun as as' found => ?_) fewer)
    fun as as' found => pure (List.rel_reverse found)
  exact bind h fun a a' one => pure (.cons one found)

theorem eachSeparated {item item' : Production α} (h : Simulates S n anywhere V item item') :
    Simulates S n sort (List.Forall₂ V) (Grammar.commaSeparated item) (Grammar.commaSeparated item') := by
  refine bind h.always fun a a' one => ?_
  exact bind (eachEats (by decide) h (Nat.le_succ n)) fun as as' found => pure (.cons one found)

variable [Spanned α] [Typed α]

theorem manyNext {p : Kind → Bool} {item item' : Production α} (uniform : Uniform p)
    (stops : p .endOfText = false) (moves : Progresses (fun x => p x = true) item)
    (h : Simulates S n (fun x => p x = true) (Like S.change) item item') :
    Simulates S n sort (Like S.change) (many (nextIs p) item) (many (nextIs p) item') :=
  (eachNext uniform stops moves h).weaken fun _ _ => likeIff.mpr

theorem manyEats {x : Kind} {item item' : Production α} (inner : isInner x = true)
    (h : Simulates S k anywhere (Like S.change) item item') (fewer : n ≤ k + 1) :
    Simulates S n sort (Like S.change) (many (Grammar.eat x) item) (many (Grammar.eat x) item') :=
  (eachEats inner h fewer).weaken fun _ _ => likeIff.mpr

theorem commaSeparated {item item' : Production α} (h : Simulates S n anywhere (Like S.change) item item') :
    Simulates S n sort (Like S.change) (Grammar.commaSeparated item) (Grammar.commaSeparated item') :=
  (eachSeparated h).weaken fun _ _ => likeIff.mpr

end Simulates

namespace Simulates

variable {S : Simulation} {n : Nat} {ι α : Type} {V : ι → α → α → Prop} {deep : Kind → Prop}
  {placeholder placeholder' : ι → Production α} {level level' : (ι → Production α) → ι → Production α}

theorem nestTokens {bound : Nat}
    (h : ∀ m < bound, ∀ nested nested', (∀ i, Simulates S m deep (V i) (nested i) (nested' i)) →
      ∀ i, Simulates S (m + 1) deep (V i) (level nested i) (level' nested' i))
    (tokens tokens' : List Token) (more : tokens.length ≤ tokens'.length) (n : Nat)
    (enough : n ≤ tokens.length + 1) (less : n ≤ bound) (i : ι) :
    Simulates S n deep (V i) (Grammar.nest placeholder level tokens i)
      (Grammar.nest placeholder' level' tokens' i) := by
  have nothing {nested nested' : ι → Production α} (i : ι) :
      Simulates S 0 deep (V i) (nested i) (nested' i) := fun _ _ _ left => absurd left (Nat.not_lt_zero _)
  induction tokens generalizing tokens' n i with
  | nil =>
    cases n with
    | zero => exact nothing i
    | succ n =>
      have none : n = 0 := by simpa using enough
      subst none
      cases tokens' with
      | nil => exact h 0 less _ _ nothing i
      | cons t' rest' => exact h 0 less _ _ nothing i
  | cons t rest ih =>
    cases tokens' with
    | nil => exact absurd more (Nat.not_succ_le_zero _)
    | cons t' rest' =>
      cases n with
      | zero => exact nothing i
      | succ n =>
        exact h n less _ _ (fun i => ih rest' (Nat.le_of_succ_le_succ more) n
          (Nat.le_of_succ_le_succ enough) (Nat.le_of_succ_le less) i) i

theorem nest {bound : Nat}
    (h : ∀ m < bound, ∀ nested nested', (∀ i, Simulates S m deep (V i) (nested i) (nested' i)) →
      ∀ i, Simulates S (m + 1) deep (V i) (level nested i) (level' nested' i)) (i : ι) :
    Simulates S bound deep (V i) (ahead >>= fun tokens => Grammar.nest placeholder level tokens i)
      (ahead >>= fun tokens => Grammar.nest placeholder' level' tokens i) := fun s s' row left first inside =>
  nestTokens h s.cursor.ahead s'.cursor.ahead (S.fewer row) (s.left + 1) (Nat.le_refl _) left i s s' row
    (Nat.lt_succ_self _) first inside

theorem nestUnfold
    (h : ∀ m nested nested', (∀ i, Simulates S m deep (V i) (nested i) (nested' i)) →
      ∀ i, Simulates S (m + 1) deep (V i) (level nested i) (level nested' i)) (i : ι) :
    Simulates S n deep (V i)
      (level (fun i => ahead >>= fun tokens => Grammar.nest placeholder level tokens i) i)
      (ahead >>= fun tokens => Grammar.nest placeholder level tokens i) := by
  intro s s' row left first inside
  have fewer : s.left ≤ s'.left := S.fewer row
  show V i _ ((Grammar.nest placeholder level s'.cursor.ahead i).run s').1 ∧
    S.rel _ ((Grammar.nest placeholder level s'.cursor.ahead i).run s').2
  cases tokens : s'.cursor.ahead with
  | nil =>
    have none : s.left = 0 := by simpa [State.left, tokens] using fewer
    refine h 0 _ _ (fun i => ?_) i s s' row (by omega) first inside
    exact fun _ _ _ left => absurd left (Nat.not_lt_zero _)
  | cons t rest =>
    have enough : s.left ≤ rest.length + 1 := by simpa [State.left, tokens] using fewer
    refine h s.left _ _ (fun i u u' row' left' first' inside' => ?_) i s s' row (Nat.lt_succ_self _) first inside
    -- what is nested begins with fewer tokens ahead than there are levels left
    have deeper : Simulates S (u.left + 1) deep (V i) (Grammar.nest placeholder level u.cursor.ahead i)
        (Grammar.nest placeholder level rest i) :=
      nestTokens (fun m (_ : m < u.left + 1) => h m) _ _ (by rw [← State.left]; omega) _
        (Nat.le_refl _) (Nat.le_refl _) i
    exact deeper u u' row' (Nat.lt_succ_self _) first' inside'

end Simulates

end Boogie.Grammar
