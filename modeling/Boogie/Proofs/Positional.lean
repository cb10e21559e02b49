import Boogie.Proofs.Gate

/-! Formals that get their names from their place. Once one formal of a function has a name, a single name in the place
of a type is the name of its formal, which shares the type of the formal behind it. The formals are gone through
from the last one on, and what has been gone through is what the names further in front are settled by. -/
namespace Boogie.Grammar

def IsSingleName (t : Ty) : Prop := ∃ span name, t = .named span name []

/-- What becomes of a formal; `next` is the type that the one behind it has in the end. -/
inductive Resolved (next : Option Ty) (f : Formal) : Formal → Prop
  | written (name : f.name ≠ none) : Resolved next f f
  | unnamed (unnamed : f.name = none) (other : ∀ span name args, f.type ≠ .named span name args) : Resolved next f f
  | taken {span name type} (unnamed : f.name = none) (single : f.type = .named span name [])
      (behind : next = some type) : Resolved next f { f with name := some name, type }

def firstType (formals : List Formal) : Option Ty := formals.head?.map Formal.type

@[simp] theorem firstTypeNil : firstType [] = none := rfl

@[simp] theorem firstTypeCons (f : Formal) (rest : List Formal) : firstType (f :: rest) = some f.type := rfl

inductive AllResolved : List Formal → List Formal → Prop
  | nil : AllResolved [] []
  | cons {f g fs gs} (first : Resolved (firstType gs) f g) (rest : AllResolved fs gs) : AllResolved (f :: fs) (g :: gs)

theorem positionalKeeps {f : Formal} (keeps : positional f = .keeps) (next : Option Ty) : Resolved next f f := by
  unfold positional at keeps
  split at keeps
  · rename_i named
    exact .written (by simp [named])
  · contradiction
  · contradiction
  · rename_i unnamed _ other
    exact .unnamed unnamed other

theorem positionalNamed {f : Formal} {name : String} (named : positional f = .named name) :
    f.name = none ∧ ∃ span, f.type = .named span name [] := by
  unfold positional at named
  split at named <;> cases named
  exact ⟨‹_›, _, ‹_›⟩

namespace Resolved

variable {next : Option Ty} {f g : Formal}

theorem keeps (h : Resolved next f g) : positional g = .keeps := by
  cases h with
  | written name =>
    obtain ⟨name, same⟩ := Option.ne_none_iff_exists'.mp name
    simp [positional, same]
  | unnamed unnamed other =>
    unfold positional
    split
    · rfl
    · exact absurd ‹_› (other _ _ _)
    · exact absurd ‹_› (other _ _ _)
    · rfl
  | taken => rfl

theorem attributes (h : Resolved next f g) : g.attributes = f.attributes := by cases h <;> rfl

theorem named (h : Resolved next f g) (name : f.name ≠ none) : g = f := by
  cases h with
  | written => rfl
  | unnamed unnamed => exact absurd unnamed name
  | taken unnamed => exact absurd unnamed name

theorem notSingle (h : Resolved next f g) (unnamed : g.name = none) : ¬IsSingleName g.type := by
  cases h with
  | written name => exact absurd unnamed name
  | unnamed _ other =>
    rintro ⟨span, name, same⟩
    exact other span name [] same
  | taken => cases unnamed

end Resolved

namespace AllResolved

variable {fs gs : List Formal}

theorem lengthEq (h : AllResolved fs gs) : gs.length = fs.length := by
  induction h with
  | nil => rfl
  | cons _ _ ih => rw [List.length_cons, List.length_cons, ih]

theorem atPlace (h : AllResolved fs gs) {i : Nat} {f g : Formal} (here : fs[i]? = some f) (there : gs[i]? = some g) :
    Resolved (gs[i + 1]?.map Formal.type) f g := by
  induction h generalizing i with
  | nil => simp at here
  | @cons _ _ fs gs first rest ih =>
    cases i with
    | zero =>
      cases Option.some.inj here
      cases Option.some.inj there
      simpa [firstType, List.head?_eq_getElem?] using first
    | succ i => exact ih here there

theorem keeps (h : AllResolved fs gs) : ∀ g ∈ gs, positional g = .keeps := by
  induction h with
  | nil => exact nofun
  | cons first _ ih => exact List.forall_mem_cons.mpr ⟨first.keeps, ih⟩

end AllResolved

theorem brokenAtCounts {α : Type} (span : Span) (rule : Rule) (m : Production α) (s : State) :
    s.log.errorCount < ((brokenAt span rule >>= fun _ => m).run s).2.log.errorCount := by
  have counted : s.log.errorCount < (s.brokenAt span rule).log.errorCount := Nat.lt_succ_self _
  exact Nat.lt_of_lt_of_le counted (State.errorCountReached (m.reaches _))

theorem namePositionalResolves {front done resolved : List Formal} {s : State} (all : AllResolved done resolved)
    (silent : ((namePositional (firstType resolved) front).run s).2.log.errorCount = s.log.errorCount) :
    AllResolved (front.reverse ++ done) (((namePositional (firstType resolved) front).run s).1.reverse ++ resolved) ∧
      ((namePositional (firstType resolved) front).run s).2 = s := by
  induction front generalizing done resolved s with
  | nil => exact ⟨all, rfl⟩
  | cons f rest ih =>
    rw [namePositional] at silent ⊢
    split at silent
    · rename_i keeps
      have step := ih (AllResolved.cons (positionalKeeps keeps _) all) silent
      simpa using step
    · exact absurd silent (Nat.ne_of_gt (brokenAtCounts _ _ _ s))
    · rename_i name single
      split at silent
      · rename_i type behind
        obtain ⟨unnamed, span, ofType⟩ := positionalNamed single
        have first : Resolved (firstType resolved) f { f with name := some name, type } := .taken unnamed ofType behind
        rw [behind] at silent ⊢
        have step := ih (AllResolved.cons first all) silent
        simpa using step
      · exact absurd silent (Nat.ne_of_gt (brokenAtCounts _ _ _ s))

theorem namePositionalKeeps {formals : List Formal} (keeps : ∀ f ∈ formals, positional f = .keeps) (next : Option Ty)
    (s : State) : (namePositional next formals).run s = (formals, s) := by
  induction formals generalizing next with
  | nil => rfl
  | cons f rest ih =>
    obtain ⟨first, others⟩ := List.forall_mem_cons.mp keeps
    rw [namePositional]
    simp [first, ih others]

theorem nameFormalsKeeps {formals : List Formal} (keeps : ∀ f ∈ formals, positional f = .keeps) (s : State) :
    (nameFormals formals).run s = (formals, s) := by
  unfold nameFormals
  split
  · rfl
  · have back : ∀ f ∈ formals.reverse, positional f = .keeps := by simpa using keeps
    simp [namePositionalKeeps back none s]

theorem nameFormalsUnnamed {formals : List Formal} (unnamed : ∀ f ∈ formals, f.name = none) (s : State) :
    (nameFormals formals).run s = (formals, s) := by
  have all : (formals.all fun f => f.name.isNone) = true := by simpa using unnamed
  rw [nameFormals, if_pos all]
  rfl

theorem nameFormalsResolves {formals : List Formal} {s : State} (named : ∃ f ∈ formals, f.name ≠ none)
    (silent : ((nameFormals formals).run s).2.log.errorCount = s.log.errorCount) :
    AllResolved formals ((nameFormals formals).run s).1 ∧ ((nameFormals formals).run s).2 = s := by
  have some : ¬(formals.all fun f => f.name.isNone) = true := by
    simpa [Option.isNone_iff_eq_none] using named
  rw [nameFormals, if_neg some] at silent ⊢
  have whole := namePositionalResolves AllResolved.nil silent
  simpa using whole

/-- A pass that reports nothing keeps what the formals are but for their names and types, and all of those that were
written with a name. Without any name it does nothing. Otherwise no formal is left with a single name for its type:
each that had one is called by it and has the type that the one behind it has in the end, and every other one is as
it was. To go over the formals again does and reports nothing. -/
theorem positionalNamesSettled (formals : List Formal) (s : State)
    (silent : ((nameFormals formals).run s).2.log.errorCount = s.log.errorCount) :
    ((nameFormals formals).run s).1.length = formals.length ∧
    (∀ (i : Nat) (f g : Formal), formals[i]? = some f → ((nameFormals formals).run s).1[i]? = some g →
      g.attributes = f.attributes ∧ (f.name ≠ none → g = f)) ∧
    ((∀ f ∈ formals, f.name = none) → ((nameFormals formals).run s).1 = formals) ∧
    ((∃ f ∈ formals, f.name ≠ none) →
      ∀ (i : Nat) (f g : Formal), formals[i]? = some f → ((nameFormals formals).run s).1[i]? = some g →
        Resolved (((nameFormals formals).run s).1[i + 1]?.map Formal.type) f g ∧
          (g.name = none → ¬IsSingleName g.type)) ∧
    ((nameFormals formals).run s).2 = s ∧
    ∀ t, (nameFormals ((nameFormals formals).run s).1).run t = (((nameFormals formals).run s).1, t) := by
  by_cases unnamed : ∀ f ∈ formals, f.name = none
  · have same := nameFormalsUnnamed unnamed s
    rw [same]
    refine ⟨rfl, fun i f g here there => ?_, fun _ => rfl, ?_, rfl, nameFormalsUnnamed unnamed⟩
    · cases here.symm.trans there
      exact ⟨rfl, fun _ => rfl⟩
    · rintro ⟨f, mem, name⟩
      exact absurd (unnamed f mem) name
  · have named : ∃ f ∈ formals, f.name ≠ none := by simpa using unnamed
    obtain ⟨all, same⟩ := nameFormalsResolves named silent
    refine ⟨all.lengthEq, fun i f g here there => ?_, fun none => absurd none unnamed, fun _ i f g here there => ?_,
      same, nameFormalsKeeps all.keeps⟩
    · have resolved := all.atPlace here there
      exact ⟨resolved.attributes, resolved.named⟩
    · have resolved := all.atPlace here there
      exact ⟨resolved, resolved.notSingle⟩

theorem positionalNamesOfThree :
    let single (name : String) : Formal := ⟨none, .named .nowhere name [], none, true, [], .nowhere⟩
    let named : Formal := ⟨some "c", .basic .nowhere .int, none, true, [], .nowhere⟩
    let unnamed : Formal := ⟨none, .basic .nowhere .bool, none, true, [], .nowhere⟩
    let formals := [single "a", single "b", named, unnamed]
    let s := State.start ⟨[], .sample .endOfText⟩ [] (.empty "")
    ((nameFormals formals).run s).2.log.errorCount = s.log.errorCount ∧
      ((nameFormals formals).run s).1.map Formal.name = [some "a", some "b", some "c", none] ∧
      (nameFormals ((nameFormals formals).run s).1).run s = (((nameFormals formals).run s).1, s) := by
  intro single named unnamed formals s
  have silent : ((nameFormals formals).run s).2.log.errorCount = s.log.errorCount := by decide
  obtain ⟨_, _, _, _, _, again⟩ := positionalNamesSettled formals s silent
  exact ⟨silent, by decide, again s⟩

end Boogie.Grammar
