import Boogie.Proofs.Grammar.Marked

/-! What is read behind a colon and a keyword that is a type. Each production is known by how the tokens end that were
read before it, and how they end behind it; in a clean run none of them reads an argument of a type there. -/
namespace Boogie.Grammar

open Token (Kind KindSet)

def behindColon : List Token → Prop
  | t :: _ => t.kind = .colon
  | [] => False

def behindType : List Token → Prop
  | t :: rest => isTypeWord t.kind ∧ behindColon rest
  | [] => False

def TypesAlone : List Token → Prop
  | t :: rest => TypesAlone rest ∧ (behindType rest → argumentStart.contains t.kind = false)
  | [] => True

theorem TypesAlone.behind {later earlier : List Token} (h : TypesAlone (later ++ earlier)) : TypesAlone earlier := by
  induction later with
  | nil => exact h
  | cons t later ih => exact ih h.1

class Met (condition : Bool) : Prop where
  holds : condition = true

instance : Met true := ⟨rfl⟩

/-- What is known of the end: it is neither a colon nor a type behind one, it is no such type, or it is no colon. -/
inductive Ending where
  | plain
  | noType
  | noColon
  deriving DecidableEq

namespace Ending

def holds : Ending → List Token → Prop
  | .plain, ts => ¬ behindColon ts ∧ ¬ behindType ts
  | .noType, ts => ¬ behindType ts
  | .noColon, ts => ¬ behindColon ts

@[reducible] def fits : Ending → Ending → Bool
  | .plain, _ => true
  | .noType, .noType => true
  | .noColon, .noColon => true
  | _, _ => false

@[reducible] def allows : Ending → Kind → Bool
  | .noColon, .identifier => false
  | .noColon, .leftParen => false
  | .noColon, .kwInt => false
  | .noColon, .kwReal => false
  | .noColon, .kwBool => false
  | _, _ => true

@[reducible] def behind : Ending → Kind → Ending
  | _, .colon => .noType
  | .noType, .kwInt => .noColon
  | .noType, .kwReal => .noColon
  | .noType, .kwBool => .noColon
  | _, _ => .plain

variable {e e' : Ending} {t : Token} {ts : List Token}

instance : Met (e.fits e) := ⟨by cases e <;> rfl⟩

theorem holdsFits [fits : Met (e.fits e')] (h : e.holds ts) : e'.holds ts := by
  have fits := fits.holds
  cases e <;> cases e' <;> first | exact h | exact h.1 | exact h.2 | exact absurd fits (by decide)

theorem allowsIff {k : Kind} : e.allows k = (e != .noColon || !argumentStart.contains k) := by
  cases e <;> cases k <;> rfl

theorem holdsBehind (allowed : e.allows t.kind = true) (h : e.holds ts) (alone : TypesAlone ts) :
    TypesAlone (t :: ts) ∧ (e.behind t.kind).holds (t :: ts) := by
  refine ⟨⟨alone, fun typed => ?_⟩, ?_⟩
  · cases e with
    | plain => exact absurd typed h.2
    | noType => exact absurd typed h
    | noColon => simpa [allowsIff] using allowed
  · have last {k : Kind} (colon : k ≠ .colon) (other : ¬ (isTypeWord k ∧ behindColon ts)) (same : t.kind = k) :
        Ending.plain.holds (t :: ts) := by
      subst same
      exact ⟨colon, other⟩
    generalize same : t.kind = k
    unfold behind
    split
    · rintro ⟨typed, -⟩
      rw [same] at typed
      exact absurd typed (by decide)
    all_goals try exact fun colon => absurd (same.symm.trans colon) (by decide)
    rename_i colon int real bool
    refine last (fun is => colon is) ?_ same
    rintro ⟨typed, before⟩
    cases e with
    | plain => exact h.1 before
    | noColon => exact h before
    | noType =>
      have other : k ≠ .kwInt ∧ k ≠ .kwReal ∧ k ≠ .kwBool := ⟨int rfl, real rfl, bool rfl⟩
      revert other typed
      cases k <;> decide

end Ending

def Keeps (e e' : Ending) (sort : Kind → Prop) {α : Type} (m : Production α) : Prop :=
  ∀ s, sort s.kind → TypesAlone s.cursor.taken → e.holds s.cursor.taken → (m.run s).2.mistakes = 0 →
    TypesAlone (m.run s).2.cursor.taken ∧ e'.holds (m.run s).2.cursor.taken

def Idle {α : Type} (m : Production α) : Prop := ∀ s, (m.run s).2.cursor.taken = s.cursor.taken

namespace Idle

variable {α β : Type} {m : Production α} {f : α → Production β}

theorem pure (a : α) : Idle (Pure.pure a : Production α) := fun _ => rfl

theorem read (view : State → α) : Idle (.read view) := fun _ => rfl

theorem broken (rule : Rule) : Idle (broken rule) := fun _ => rfl

theorem brokenAt (span : Span) (rule : Rule) : Idle (brokenAt span rule) := fun _ => rfl

theorem bind (first : Idle m) (rest : ∀ a, Idle (f a)) : Idle (m >>= f) := fun s =>
  (rest _ (m.run s).2).trans (first s)

end Idle

namespace Keeps

variable {e e' a b : Ending} {sort : Kind → Prop} {α β : Type} {m : Production α} {f : α → Production β}

theorem of (h : Keeps a b sort m) [Met (e.fits a)] [Met (b.fits e')] : Keeps e e' sort m :=
  fun s first alone ending clean =>
    have ⟨kept, later⟩ := h s first alone (Ending.holdsFits ending) clean
    ⟨kept, Ending.holdsFits later⟩

theorem last (h : Keeps e b sort m) [Met (b.fits e')] : Keeps e e' sort m := h.of

theorem mono {wide : Kind → Prop} (h : Keeps e e' wide m) (narrow : ∀ k, sort k → wide k) : Keeps e e' sort m :=
  fun s first => h s (narrow _ first)

theorem always (h : Keeps e e' anywhere m) : Keeps e e' sort m := h.mono fun _ _ => trivial

theorem cases (h : ∀ k, sort k → Keeps e e' (· = k) m) : Keeps e e' sort m := fun s first => h s.kind first s rfl

theorem pure {x : α} [Met (e.fits e')] : Keeps e e' sort (Pure.pure x) :=
  fun _ _ alone ending _ => ⟨alone, Ending.holdsFits ending⟩

theorem bind (step : Keeps a b sort m) (rest : ∀ x, Keeps b e' anywhere (f x)) [Met (e.fits a)] :
    Keeps e e' sort (m >>= f) := by
  intro s first alone ending clean
  have unmarked : (m.run s).2.mistakes = 0 := Nat.eq_zero_of_le_zero (clean ▸ ((f _).reaches _).mistakesLe)
  obtain ⟨kept, later⟩ := step s first alone (Ending.holdsFits ending) unmarked
  exact rest _ _ trivial kept later clean

theorem look {view : State → α} (rest : ∀ x, Keeps e e' sort (f x)) : Keeps e e' sort (.read view >>= f) :=
  fun s first => rest (view s) s first

theorem idle (h : Idle m) (rest : ∀ x, Keeps e e' anywhere (f x)) : Keeps e e' sort (m >>= f) :=
  fun s _ alone ending => rest _ (m.run s).2 trivial (by rwa [h s]) (by rwa [h s])

theorem still (h : Idle m) [Met (e.fits e')] : Keeps e e' sort m := fun s _ alone ending _ => by
  rw [h s]
  exact ⟨alone, Ending.holdsFits ending⟩

theorem spanFrom {start : Span} {f : Span → Production β} (rest : ∀ x, Keeps e e' anywhere (f x)) :
    Keeps e e' sort (spanFrom start >>= f) := idle (.bind (.read _) fun _ => .pure _) rest

theorem fault {report : Production Unit} {f : Unit → Production β} (h : Faults report) :
    Keeps e e' sort (report >>= f) := by
  intro s _ _ _ clean
  have less := h s
  have later := ((f (report.run s).1).reaches (report.run s).2).mistakesLe
  simp only [Production.runBind] at clean
  omega

theorem given {found : Bool} {report : Production Unit} {f : Unit → Production β} (h : Faults report)
    (rest : Keeps e e' sort (f ())) : Keeps e e' sort (given found report >>= f) := by
  cases found with
  | false => exact rest
  | true => exact fault h

theorem ifNext {p : Kind → Bool} {yes no : Production α} (holds : Keeps e e' (fun k => sort k ∧ p k = true) yes)
    (fails : Keeps e e' (fun k => sort k ∧ p k = false) no) :
    Keeps e e' sort (nextIs p >>= fun b => if b = true then yes else no) := by
  intro s first
  cases h : p s.kind
  · simpa [h] using fails s ⟨first, h⟩
  · simpa [h] using holds s ⟨first, h⟩

theorem advance {f : Token → Production β} (allowed : ∀ k, sort k → e.allows k = true ∧ e.behind k = b)
    (rest : ∀ t, sort t.kind → Keeps b e' anywhere (f t)) : Keeps e e' sort (advance >>= f) := by
  intro s first alone ending clean
  obtain ⟨may, same⟩ := allowed _ first
  obtain ⟨kept, later⟩ := Ending.holdsBehind may ending alone
  exact rest s.cursor.current first s.advance trivial kept (same ▸ later) clean

theorem eat {k : Kind} {f : Bool → Production β} (holds : Keeps (e.behind k) e' anywhere (f true))
    (fails : Keeps e e' (fun x => sort x ∧ x ≠ k) (f false)) [allowed : Met (e.allows k)] : Keeps e e' sort (eat k >>= f) := by
  intro s first alone ending clean
  by_cases same : s.kind = k
  · rw [Production.runBind, runEatYes same] at clean ⊢
    have here : s.cursor.current.kind = k := same
    obtain ⟨kept, later⟩ := Ending.holdsBehind (here ▸ allowed.holds) ending alone
    exact holds s.advance trivial kept (here ▸ later) clean
  · rw [Production.runBind, runEatNo same] at clean ⊢
    exact fails s ⟨first, same⟩ alone ending clean

theorem ifEats {k : Kind} {yes no : Production α} (holds : Keeps (e.behind k) e' anywhere yes)
    (fails : Keeps e e' (fun x => sort x ∧ x ≠ k) no) [Met (e.allows k)] :
    Keeps e e' sort (Grammar.eat k >>= fun b => if b = true then yes else no) :=
  eat (by simpa using holds) (by simpa using fails)

theorem expect {k : Kind} {f : Unit → Production β} (rest : Keeps (e.behind k) e' anywhere (f ()))
    [Met (e.allows k)] : Keeps e e' sort (expect k >>= f) := by
  rw [Grammar.expect, Grammar.ifNext, bind_assoc]
  exact eat (by simpa using rest) (by simpa using fault (.syntaxError _))

theorem byKind {f : Kind → Production β} (h : ∀ k, sort k → Keeps e e' (· = k) (f k)) :
    Keeps e e' sort (currentKind >>= f) := fun s first => h s.kind first s rfl

theorem rounds {condition : Production Bool} {body : α → Production α}
    (round : ∀ x, ∀ rest : α → Production α, (∀ x, Keeps e e anywhere (rest x)) →
      Keeps e e anywhere (condition >>= fun b => if b = true then body x >>= rest else Pure.pure x))
    (tokens : List Token) (x : α) : Keeps e e anywhere (Grammar.rounds condition body tokens x) := by
  induction tokens generalizing x with
  | nil => exact pure
  | cons t tokens ih => exact round x _ fun x => ih x

theorem whileNext {p : Kind → Bool} {body : α → Production α} {x : α}
    (round : ∀ x, Keeps e e (fun k => p k = true) (body x)) : Keeps e e sort (whileHolds (nextIs p) body x) := by
  refine look fun tokens => (rounds (fun x rest more => ?_) tokens x).always
  exact ifNext (bind ((round x).mono fun _ h => h.2) more) pure

theorem whileEats {k : Kind} {body : α → Production α} {x : α} (round : ∀ x, Keeps (e.behind k) e anywhere (body x))
    [Met (e.allows k)] : Keeps e e sort (whileHolds (Grammar.eat k) body x) :=
  look fun tokens => (rounds (fun x _ more => ifEats (bind (round x) more) pure) tokens x).always

theorem manyNext {p : Kind → Bool} {item : Production α} (h : Keeps e e (fun k => p k = true) item) :
    Keeps e e sort (many (nextIs p) item) :=
  bind (a := e) (b := e) (whileNext fun _ => bind h fun _ => pure) fun _ => pure

theorem manyLook {view : State → Bool} {item : Production α} (h : Keeps e e anywhere item) :
    Keeps e e sort (many (.read view) item) := by
  refine bind (a := e) (b := e) (look fun tokens => (rounds (fun x rest more => ?_) tokens []).always) fun _ => pure
  refine look fun holds => ?_
  split
  · exact bind (a := e) (b := e) (bind h fun _ => pure) more
  · exact pure

theorem manyEats {k : Kind} {item : Production α} (h : Keeps (e.behind k) e anywhere item) [Met (e.allows k)] :
    Keeps e e sort (many (Grammar.eat k) item) :=
  bind (a := e) (b := e) (whileEats fun _ => bind h fun _ => pure) fun _ => pure

theorem commaSeparated {item : Production α} (first : Keeps e e' sort item) (more : Keeps .plain e' anywhere item) :
    Keeps e e' sort (Grammar.commaSeparated item) := by
  have comma : Met (e'.allows .comma) := ⟨by cases e' <;> rfl⟩
  have plain : e'.behind .comma = .plain := by cases e' <;> rfl
  exact bind first fun _ => bind (manyEats (plain ▸ more)) fun _ => pure

theorem nest {ι : Type} {placeholder : ι → Production α} {level : (ι → Production α) → ι → Production α} {i : ι}
    (empty : ∀ i, Keeps .plain e' sort (placeholder i))
    (h : ∀ nested, (∀ i, Keeps .plain e' sort (nested i)) → ∀ i, Keeps e e' sort (level nested i))
    [Met (Ending.plain.fits e)] : Keeps e e' sort (ahead >>= fun tokens => Grammar.nest placeholder level tokens i) := by
  have levels (tokens : List Token) (i : ι) : Keeps .plain e' sort (Grammar.nest placeholder level tokens i) := by
    induction tokens generalizing i with
    | nil => exact (h _ empty i).of
    | cons t tokens ih => exact (h _ ih i).of
  refine look fun tokens => ?_
  cases tokens with
  | nil => exact h _ empty i
  | cons t tokens => exact h _ (levels tokens) i

end Keeps

end Boogie.Grammar
