import Boogie.Proofs.Grammar.Simulation

/-! Behind a colon. There the first reading may find a keyword that is a type where the second finds a name. Only a
type is read of the keyword; whatever else may be read behind a colon is a mistake of the first reading. -/
namespace Boogie.Grammar

open Token (Kind KindSet)

def Misses (sort : Kind → Prop) {α : Type} (m : Production α) : Prop :=
  ∀ s, sort s.kind → (m.run s).2.mistakes ≠ 0

namespace Misses

variable {sort : Kind → Prop} {α β : Type} {m : Production α} {f : α → Production β}

theorem first (h : Misses sort m) : Misses sort (m >>= f) := fun s here clean =>
  h s here (Nat.eq_zero_of_le_zero (clean ▸ ((f _).reaches _).mistakesLe))

theorem stay (stays : Stays m) (h : ∀ a, Misses sort (f a)) : Misses sort (m >>= f) := by
  intro s here
  refine h (m.run s).1 (m.run s).2 ?_
  rwa [stays.kindEq]

theorem fault {report : Production Unit} {f : Unit → Production β} (h : Faults report) :
    Misses sort (report >>= f) := by
  refine first fun s _ => ?_
  have := h s
  omega

theorem ifNext {p : Kind → Bool} {yes no : Production α} (holds : Misses (fun k => sort k ∧ p k = true) yes)
    (fails : Misses (fun k => sort k ∧ p k = false) no) :
    Misses sort (nextIs p >>= fun b => if b = true then yes else no) := by
  intro s here
  cases is : p s.kind
  · simpa [is] using fails s ⟨here, is⟩
  · simpa [is] using holds s ⟨here, is⟩

theorem eat {k : Kind} {f : Bool → Production β} (other : ¬ sort k) (fails : Misses sort (f false)) :
    Misses sort (eat k >>= f) := by
  intro s here
  have absent : s.kind ≠ k := by
    rintro rfl
    exact other here
  rw [Production.runBind, runEatNo absent]
  exact fails s here

theorem identWritten (other : ¬ sort .identifier) : Misses sort identWritten := by
  refine ifNext ?_ (fault (.syntaxError _))
  rintro s ⟨here, is⟩
  exact absurd (beq_iff_eq.mp is ▸ here) other

theorem ident (other : ¬ sort .identifier) : Misses sort ident := first (identWritten other)

theorem none {p : Kind → Bool} {item : Production α} {f : List α → Production β} (other : ∀ k, sort k → p k = false)
    (rest : ∀ as, Misses sort (f as)) : Misses sort (many (nextIs p) item >>= f) := by
  intro s here
  have nothing : (many (nextIs p) item).run s = ([], s) := by
    have round (body : List α → Production (List α)) (tokens : List Token) :
        (rounds (nextIs p) body tokens []).run s = ([], s) := by
      cases tokens with
      | nil => rfl
      | cons t tokens => simp [rounds, other _ here]
    simp [many, whileHolds, ahead, round]
  rw [Production.runBind, nothing]
  exact rest [] s here

theorem byKind {f : Kind → Production β} (h : ∀ k, sort k → Misses (· = k) (f k)) :
    Misses sort (currentKind >>= f) := fun s here => h s.kind here s rfl

end Misses

def isTypeWord (k : Kind) : Prop := (basicType k).isSome = true

instance : DecidablePred isTypeWord := fun _ => inferInstanceAs (Decidable (_ = true))

def Marks (S : Simulation) (n : Nat) {α : Type} (V : α → α → Prop) (m m' : Production α) : Prop :=
  ∀ s s', S.marked s s' → s.left < n → S.within (m.run s).2 →
    V (m.run s).1 (m'.run s').1 ∧ S.rel (m.run s).2 (m'.run s').2

namespace Marks

variable {S : Simulation} {n : Nat} {α β : Type} {V : α → α → Prop} {W : β → β → Prop} {m m' : Production α}
  {f f' : α → Production β}

theorem type : Marks S n (Like S.change) type type := fun _ _ row _ inside => S.typeMarked row inside

theorem bind (step : Marks S n V m m') (rest : ∀ a a', V a a' → Simulates S n anywhere W (f a) (f' a')) :
    Marks S n W (m >>= f) (m' >>= f') := by
  intro s s' row left inside
  obtain ⟨found, after⟩ := step s s' row left (S.withinReached ((f (m.run s).1).reaches _) inside)
  exact rest _ _ found _ _ after (Nat.lt_of_le_of_lt (m.reaches s).leftLe left) trivial inside

theorem misses (h : Misses isTypeWord m) : Marks S n V m m' := by
  intro s s' row _ inside
  obtain ⟨changed, _, here, _⟩ := S.ofMarked row
  exact absurd (S.clean changed inside) (h s here)

theorem ifNext {p : Kind → Bool} {yes yes' no no' : Production α} (word : ∀ k, isTypeWord k → p k = true)
    (name : p .identifier = true) (holds : Marks S n V yes yes') :
    Marks S n V (nextIs p >>= fun b => if b = true then yes else no)
      (nextIs p >>= fun b => if b = true then yes' else no') := by
  intro s s' row left inside
  obtain ⟨_, _, here, name'⟩ := S.ofMarked row
  have is : p s.kind = true := word _ here
  have is' : p s'.kind = true := by rw [name', name]
  simp only [Production.runBind, runNextIs, is, is', if_true] at inside ⊢
  exact holds s s' row left inside

theorem given {found : Bool} {report report' : Production Unit} {f f' : Unit → Production β} (faults : Faults report)
    (rest : Marks S n W (f ()) (f' ())) :
    Marks S n W (given found report >>= f) (given found report' >>= f') := by
  cases found with
  | false => exact rest
  | true => exact misses (.fault faults)

end Marks

namespace Simulates

variable {S : Simulation} {n k : Nat} {sort : Kind → Prop} {α β : Type} {V : α → α → Prop}
  {f f' : Unit → Production α}

theorem eatColon {f f' : Bool → Production α} (holds : Simulates S k anywhere V (f true) (f' true))
    (marked : Marks S k V (f true) (f' true))
    (fails : Simulates S n (fun y => sort y ∧ y ≠ .colon) V (f false) (f' false)) (fewer : n ≤ k + 1) :
    Simulates S n sort V (Grammar.eat .colon >>= f) (Grammar.eat .colon >>= f') := by
  intro s s' row left first inside
  by_cases same : s.kind = .colon
  · have same' := (S.sameKind row (by decide) rfl).mpr same
    simp only [Production.runBind, runEatYes same, runEatYes same'] at inside ⊢
    have real : s.kind ≠ .endOfText := by rw [same]; decide
    have less := State.advanceLt (S.closed row) real
    rcases S.advance row real (S.withinReached ((f true).reaches _) inside) with after | ⟨_, after⟩
    · exact holds _ _ after (by omega) trivial inside
    · exact marked _ _ after (by omega) inside
  · have same' := mt (S.sameKind row (by decide) rfl).mp same
    simp only [Production.runBind, runEatNo same, runEatNo same'] at inside ⊢
    exact fails _ _ row left ⟨first, same⟩ inside

theorem ifEatsColon {yes yes' no no' : Production α} (holds : Simulates S n anywhere V yes yes')
    (marked : Marks S n V yes yes') (fails : Simulates S n (fun y => sort y ∧ y ≠ .colon) V no no') :
    Simulates S n sort V (Grammar.eat .colon >>= fun b => if b = true then yes else no)
      (Grammar.eat .colon >>= fun b => if b = true then yes' else no') :=
  eatColon (k := n) (by simpa using holds) (by simpa using marked) (by simpa using fails) (Nat.le_succ n)

theorem expectColon (rest : Simulates S n anywhere V (f ()) (f' ())) (marked : Marks S n V (f ()) (f' ())) :
    Simulates S n sort V (Grammar.expect .colon >>= f) (Grammar.expect .colon >>= f') := by
  have unfolded (f : Unit → Production α) : (Grammar.expect .colon >>= f) =
      (Grammar.eat .colon >>= fun b => if b = true then f () else Grammar.syntaxError (.expected .colon) >>= f) := by
    rw [Grammar.expect, Grammar.ifNext, bind_assoc]
    refine congrArg _ (funext fun b => ?_)
    cases b <;> rfl
  rw [unfolded, unfolded]
  exact ifEatsColon rest marked (bind (syntaxError _) fun _ _ _ => rest)

theorem whileColons {body body' : α → Production α} {a a' : α} (start : V a a')
    (round : ∀ a a', V a a' → Simulates S k anywhere V (body a) (body' a'))
    (marked : ∀ a a', V a a' → Marks S k V (body a) (body' a')) (fewer : n ≤ k + 1) :
    Simulates S n sort V (whileHolds (Grammar.eat .colon) body a) (whileHolds (Grammar.eat .colon) body' a') := by
  intro s s' row left _ inside
  refine rounds ?_ ?_ s.cursor.ahead s'.cursor.ahead (S.fewer row) (s.left + 1)
    (Nat.le_refl _) left a a' start s s' row (Nat.lt_succ_self _) trivial inside
  · intro t t' row ended
    refine runEatNo fun same => ?_
    have same := ((S.sameKind row (by decide) rfl).mp same).symm.trans ended
    exact absurd same (by decide)
  · intro m less b b' found rest rest' more
    have step : Simulates S m anywhere V (body b) (body' b') := (round b b' found).mono (fun _ h => h) (by omega)
    have mark : Marks S m V (body b) (body' b') := fun t t' row left => marked b b' found t t' row (by omega)
    refine eatColon (k := m) ?_ ?_ (pure found) (Nat.le_refl _)
    · simpa using bind step more
    · simpa using mark.bind more

end Simulates

def MayMark (S : Simulation) (n : Nat) (sort : Kind → Prop) {α : Type} (last : α → Prop) (V : α → α → Prop)
    (m m' : Production α) : Prop :=
  ∀ s s', S.rel s s' → s.left < n → sort s.kind → S.within (m.run s).2 →
    V (m.run s).1 (m'.run s').1 ∧
      (S.rel (m.run s).2 (m'.run s').2 ∨ (last (m.run s).1 ∧ S.marked (m.run s).2 (m'.run s').2))

namespace MayMark

variable {S : Simulation} {n k : Nat} {sort : Kind → Prop} {α β : Type} {last : α → Prop} {V : α → α → Prop}
  {W : β → β → Prop} {m m' : Production α} {f f' : α → Production β}

theorem of (h : Simulates S n sort V m m') : MayMark S n sort last V m m' := fun s s' row left first inside =>
  have ⟨found, after⟩ := h s s' row left first inside
  ⟨found, .inl after⟩

theorem mono {wide : Kind → Prop} (h : MayMark S k wide last V m m') (narrow : ∀ x, sort x → wide x) (fewer : n ≤ k) :
    MayMark S n sort last V m m' :=
  fun s s' row left first inside => h s s' row (Nat.lt_of_lt_of_le left fewer) (narrow _ first) inside

theorem unchanged (none : S.change = none) (h : MayMark S n sort last V m m') : Simulates S n sort V m m' := by
  intro s s' row left first inside
  obtain ⟨found, after⟩ := h s s' row left first inside
  refine ⟨found, after.resolve_right ?_⟩
  rintro ⟨_, marked⟩
  have changed := (S.ofMarked marked).1
  rw [none] at changed
  exact absurd changed nofun

theorem behind {last : β → Prop} (step : Simulates S n sort V m m')
    (rest : ∀ a a', V a a' → MayMark S n anywhere last W (f a) (f' a')) :
    MayMark S n sort last W (m >>= f) (m' >>= f') := by
  intro s s' row left first inside
  obtain ⟨found, after⟩ := step s s' row left first (S.withinReached ((f (m.run s).1).reaches _) inside)
  exact rest _ _ found _ _ after (Nat.lt_of_le_of_lt (m.reaches s).leftLe left) trivial inside

theorem bind (step : MayMark S n sort last V m m')
    (rest : ∀ a a', V a a' → Simulates S n anywhere W (f a) (f' a'))
    (marked : ∀ a a', V a a' → last a → Marks S n W (f a) (f' a')) :
    Simulates S n sort W (m >>= f) (m' >>= f') := by
  intro s s' row left first inside
  obtain ⟨found, after⟩ := step s s' row left first (S.withinReached ((f (m.run s).1).reaches _) inside)
  have left := Nat.lt_of_le_of_lt (m.reaches s).leftLe left
  rcases after with after | ⟨ended, after⟩
  · exact rest _ _ found _ _ after left trivial inside
  · exact marked _ _ found ended _ _ after left inside

theorem map {g g' : α → β} (step : MayMark S n sort last V m m') (same : ∀ a a', V a a' → W (g a) (g' a')) :
    MayMark S n sort (fun _ => True) W (m >>= fun a => pure (g a)) (m' >>= fun a => pure (g' a)) := by
  intro s s' row left first inside
  obtain ⟨found, after⟩ := step s s' row left first inside
  exact ⟨same _ _ found, after.imp_right fun ended => ⟨trivial, ended.2⟩⟩

theorem ifNext {p : Kind → Bool} {yes yes' no no' : Production α} (uniform : Uniform p)
    (holds : MayMark S n (fun x => sort x ∧ p x = true) last V yes yes')
    (fails : MayMark S n (fun x => sort x ∧ p x = false) last V no no') :
    MayMark S n sort last V (nextIs p >>= fun b => if b = true then yes else no)
      (nextIs p >>= fun b => if b = true then yes' else no') := by
  intro s s' row left first
  have same := S.uniform row uniform
  cases h : p s.kind
  · simpa [h, same] using fails s s' row left ⟨first, h⟩
  · simpa [h, same] using holds s s' row left ⟨first, h⟩

theorem eatColon {a a' : α} {no no' : Production α} (found : V a a') (ended : last a)
    (fails : MayMark S n (fun y => sort y ∧ y ≠ .colon) last V no no') :
    MayMark S n sort last V (eat .colon >>= fun b => if b = true then pure a else no)
      (eat .colon >>= fun b => if b = true then pure a' else no') := by
  intro s s' row left first inside
  by_cases same : s.kind = .colon
  · have same' := (S.sameKind row (by decide) rfl).mpr same
    simp only [Production.runBind, runEatYes same, runEatYes same', if_true] at inside ⊢
    have real : s.kind ≠ .endOfText := by rw [same]; decide
    exact ⟨found, (S.advance row real inside).imp_right fun after => ⟨ended, after.2⟩⟩
  · have same' := mt (S.sameKind row (by decide) rfl).mp same
    simp only [Production.runBind, runEatNo same, runEatNo same', Bool.false_eq_true, if_false] at inside ⊢
    exact fails _ _ row left ⟨first, same⟩ inside

theorem rounds {p : Kind → Bool} {body body' : α → Production α} (uniform : Uniform p) (stops : p .endOfText = false)
    (moves : ∀ a, Progresses (fun x => p x = true) (body a)) (goesOn : ∀ k, isTypeWord k → p k = true)
    (misses : ∀ a, Misses isTypeWord (body a))
    (round : ∀ a a', V a a' → MayMark S k (fun x => p x = true) (fun _ => True) V (body a) (body' a'))
    (tokens tokens' : List Token) (more : tokens.length ≤ tokens'.length) (enough : n ≤ tokens.length + 1)
    (less : n ≤ k) {a a' : α} (start : V a a') :
    Simulates S n anywhere V (Grammar.rounds (nextIs p) body tokens a) (Grammar.rounds (nextIs p) body' tokens' a') ∧
      Marks S n V (Grammar.rounds (nextIs p) body tokens a) (Grammar.rounds (nextIs p) body' tokens' a') := by
  induction tokens generalizing tokens' n a a' with
  | nil =>
    have atEnd {s : State} (closed : s.isClosed) (left : s.left < n) : s.kind = .endOfText := by
      refine Decidable.byContradiction fun some => ?_
      have := State.leftPos closed some
      simp only [List.length_nil] at enough
      omega
    constructor
    · intro s s' row left _ _
      have ended := atEnd (S.closed row) left
      cases tokens' with
      | nil => exact ⟨start, row⟩
      | cons t rest =>
        simp only [Grammar.rounds, Production.runBind, runNextIs, S.uniform row uniform, ended, stops]
        exact ⟨start, row⟩
    · intro s s' row left _
      obtain ⟨_, closed, here, _⟩ := S.ofMarked row
      rw [atEnd closed left] at here
      exact absurd here Bool.false_ne_true
  | cons t rest ih =>
    cases tokens' with
    | nil => exact absurd more (Nat.not_succ_le_zero _)
    | cons t' rest' =>
      have later {m : Nat} (fewer : m ≤ rest.length + 1) (below : m ≤ k) {b b' : α} (found : V b b') :=
        ih rest' (Nat.le_of_succ_le_succ more) fewer below found
      constructor
      · refine Simulates.ifNext uniform (fun s s' row left first inside => ?_) (.pure start)
        have within := S.withinReached ((Grammar.rounds (nextIs p) body rest _).reaches _) inside
        obtain ⟨found, after⟩ := round a a' start s s' row (Nat.lt_of_lt_of_le left less) first.2 within
        have moved := moves a s (S.closed row) first.2
        simp only [List.length_cons] at enough
        have next := later (m := s.left) (by omega) (by omega) found
        rcases after with after | ⟨_, after⟩
        · exact next.1 _ _ after moved trivial inside
        · exact next.2 _ _ after moved inside
      · refine .misses (.ifNext (fun s here => (misses a).first s here.1) fun s here => ?_)
        exact absurd (goesOn _ here.1) (by rw [here.2]; exact Bool.false_ne_true)

theorem whileNext {p : Kind → Bool} {body body' : α → Production α} {a a' : α} (uniform : Uniform p)
    (stops : p .endOfText = false) (start : V a a') (moves : ∀ a, Progresses (fun x => p x = true) (body a))
    (goesOn : ∀ k, isTypeWord k → p k = true) (misses : ∀ a, Misses isTypeWord (body a))
    (round : ∀ a a', V a a' → MayMark S n (fun x => p x = true) (fun _ => True) V (body a) (body' a')) :
    Simulates S n sort V (whileHolds (nextIs p) body a) (whileHolds (nextIs p) body' a') :=
  fun s s' row left _ inside =>
    (rounds uniform stops moves goesOn misses round s.cursor.ahead s'.cursor.ahead (S.fewer row)
      (Nat.le_refl (s.left + 1)) left start).1 s s' row (Nat.lt_succ_self _) trivial inside

end MayMark

end Boogie.Grammar
