import Boogie.Proofs.Built.Decl
import Boogie.Proofs.Text.Digits
import Boogie.Proofs.Token.Lossless

/-! The gate that holds reports back never hides a failure. Reports are held back only where one was let
through before, and the first mistake of a reading is always let through, since a reading starts as far
from a mistake as the gate asks for. -/
namespace Boogie

namespace Grammar.State

structure IsGated (s : State) : Prop where
  counted : s.log.isCounted
  opened : s.mistakes = 0 → s.cursor.isReportDue = true
  told : s.mistakes ≠ 0 → s.log.errorCount ≠ 0

theorem toldAtGate {s : State} (h : s.IsGated) {told : Log} (reported : told.errorCount ≠ 0) :
    (if s.cursor.isReportDue then told else s.log).errorCount ≠ 0 := by
  split
  · exact reported
  · rename_i held
    exact h.told fun none => held (h.opened none)

theorem countedAtGate {s : State} (h : s.IsGated) {told : Log} (counted : told.isCounted) :
    (if s.cursor.isReportDue then told else s.log).isCounted := by
  split
  · exact counted
  · exact h.counted

theorem gatedStep {s t : State} (step : Step s t) (h : s.IsGated) : t.IsGated := by
  cases step with
  | advance =>
    refine ⟨h.counted, fun none => ?_, h.told⟩
    have before := h.opened none
    simp only [Cursor.isReportDue, decide_eq_true_eq] at before ⊢
    exact Nat.le_succ_of_le before
  | syntaxError e =>
    exact ⟨countedAtGate h (Log.countedReport h.counted ..), fun none => absurd none (Nat.succ_ne_zero _),
      fun _ => toldAtGate h (Nat.succ_ne_zero _)⟩
  | broken rule =>
    exact ⟨countedAtGate h (Log.countedReport h.counted ..), fun none => absurd none (Nat.succ_ne_zero _),
      fun _ => toldAtGate h (Nat.succ_ne_zero _)⟩
  | brokenAt span rule =>
    exact ⟨Log.countedReport h.counted .., fun none => absurd none (Nat.succ_ne_zero _),
      fun _ => Nat.succ_ne_zero _⟩

theorem gatedReached {s t : State} (row : s.Reaches t) (h : s.IsGated) : t.IsGated :=
  row.keeps (fun _ _ => gatedStep) h

theorem gatedStart {tokens : TokenList} {text : List Char} {log : Log} (counted : log.isCounted) :
    (start tokens text log).IsGated := ⟨counted, fun _ => rfl, fun some => absurd rfl some⟩

theorem errorCountStep {s t : State} (step : Step s t) : s.log.errorCount ≤ t.log.errorCount := by
  have held (told : Log) (more : s.log.errorCount ≤ told.errorCount) :
      s.log.errorCount ≤ (if s.cursor.isReportDue then told else s.log).errorCount := by
    split
    · exact more
    · exact Nat.le_refl _
  cases step with
  | advance => exact Nat.le_refl _
  | syntaxError e => exact held _ (Nat.le_succ _)
  | broken rule => exact held _ (Nat.le_succ _)
  | brokenAt span rule => exact Nat.le_succ _

theorem errorCountReached {s t : State} (row : s.Reaches t) : s.log.errorCount ≤ t.log.errorCount :=
  row.keeps (P := fun t => s.log.errorCount ≤ t.log.errorCount)
    (fun _ _ step less => Nat.le_trans less (errorCountStep step)) (Nat.le_refl _)

theorem unmarkedOfSilent {s t : State} (row : s.Reaches t) (opened : s.cursor.isReportDue = true)
    (silent : t.log = s.log) : t.mistakes = s.mistakes := by
  have kept : (t.mistakes = s.mistakes ∧ t.cursor.isReportDue = true ∧ t.log = s.log) ∨
      s.log.errorCount < t.log.errorCount := by
    refine row.keeps (P := fun t => (t.mistakes = s.mistakes ∧ t.cursor.isReportDue = true ∧ t.log = s.log) ∨
      s.log.errorCount < t.log.errorCount) ?_ (.inl ⟨rfl, opened, rfl⟩)
    rintro t u step (⟨same, due, log⟩ | more)
    · cases step with
      | advance =>
        refine .inl ⟨same, ?_, log⟩
        simp only [Cursor.isReportDue, decide_eq_true_eq] at due ⊢
        exact Nat.le_succ_of_le due
      | syntaxError e =>
        refine .inr ?_
        show _ < (if t.cursor.isReportDue then _ else _ : Log).errorCount
        rw [if_pos due, ← log]
        exact Nat.lt_succ_self _
      | broken rule =>
        refine .inr ?_
        show _ < (if t.cursor.isReportDue then _ else _ : Log).errorCount
        rw [if_pos due, ← log]
        exact Nat.lt_succ_self _
      | brokenAt span rule =>
        refine .inr ?_
        rw [← log]
        exact Nat.lt_succ_self _
    · exact .inr (Nat.lt_of_lt_of_le more (errorCountStep step))
  rcases kept with ⟨same, _⟩ | more
  · exact same
  · rw [silent] at more
    exact absurd more (Nat.lt_irrefl _)

end Grammar.State

open Grammar

namespace Reading

theorem countedWarnings {log : Log} (h : log.isCounted) (warnings : List (Nat × Conditional.Warning)) :
    (logWarnings log warnings).isCounted ∧ (logWarnings log warnings).errorCount = log.errorCount := by
  induction warnings generalizing log with
  | nil => exact ⟨h, rfl⟩
  | cons w rest ih => exact ih (Log.countedReport h ..)

theorem countedFaults {log : Log} (h : log.isCounted) (errors : List Token.ScanError) :
    (logFaults log errors).isCounted ∧ (logFaults log errors).errorCount = log.errorCount + errors.length := by
  induction errors generalizing log with
  | nil => exact ⟨h, rfl⟩
  | cons e rest ih =>
    obtain ⟨counted, count⟩ := ih (Log.countedReport h .error .lexical e.position e.fault.message)
    refine ⟨counted, count.trans ?_⟩
    rw [List.length_cons]
    exact Nat.succ_add_eq_add_succ _ _

theorem unmarkedOfErrorFree {tokens : TokenList} {text : List Char} {log : Log} (counted : log.isCounted)
    (none : (run tokens text log).2.log.errorCount = 0) : (run tokens text log).2.mistakes = 0 := by
  have gated := State.gatedReached (Grammar.program.reaches (.start tokens text log)) (State.gatedStart counted)
  exact Decidable.byContradiction fun some => gated.told some none

end Reading

/-- Every name, type and literal of a tree was read off the tokens, and no block of a code expression is
left without a value or a label. -/
def genuine (tokens : List Token) : Checks where
  name n := n ≠ ""
  ty := tyRead tokens
  expr := exprRead tokens
  attr _ := True
  trigger _ := True
  cmd _ := True
  block := blockRead
  tail _ := True
  stmtList _ := True
  decl _ := True

theorem namedNe {text : List Char} {n : String} (h : Named (Token.scan text).terminals n) : n ≠ "" := by
  cases h with
  | written t mem kind =>
    rintro same
    have name := Token.nameOfCut (Token.scanCut (List.mem_of_mem_filter mem)) kind
    rw [same] at name
    exact absurd name nofun
  | width w => simp
  | place i => simp

theorem builtImpliesGenuine {text : List Char} {clean : Prop} (h : clean) :
    (Scope.built ⟨(Token.scan text).terminals, clean⟩).Implies (genuine (Token.scan text).terminals) where
  name _ ok := namedNe (ok h)
  ty _ ok _ := ok.2.2 h
  expr _ ok _ := ok.2.2 h
  attr _ _ := trivial
  trigger _ _ := trivial
  cmd _ _ := trivial
  block _ ok := ok.2 h
  tail _ _ := trivial
  stmtList _ _ := trivial
  decl _ _ := trivial

theorem parsedCounted (file source : String) (defines : List String) :
    (Reading.lexicalLog file source defines).isCounted ∧
      (Reading.lexicalLog file source defines).errorCount = (Reading.tokens source defines).faulty.length := by
  obtain ⟨warned, none⟩ := Reading.countedWarnings (Log.countedEmpty file) (Reading.selected source defines).warnings
  obtain ⟨counted, count⟩ :=
    Reading.countedFaults warned (Token.scanErrors (Reading.selected source defines).text)
  refine ⟨counted, count.trans ?_⟩
  rw [none, Token.scanErrorsFaulty, List.length_map]
  exact Nat.zero_add _

section Accepted

variable {file source : String} {defines : List String} {p : Program}

namespace Reading

theorem programEq (file source : String) (defines : List String) : (ofSource file source defines).program =
    if (parsed file source defines).2.log.errorCount = 0 then some (parsed file source defines).1 else none := by
  have present : (ofSource file source defines).program =
      if (parsed file source defines).2.log.hasErrors then none else some (parsed file source defines).1 := rfl
  rw [present]
  by_cases zero : (parsed file source defines).2.log.errorCount = 0
  · rw [if_pos zero, Log.hasErrors, zero]
    rfl
  · rw [if_neg zero, Log.hasErrors, if_pos (decide_eq_true (Nat.pos_of_ne_zero zero))]

theorem programOfErrorFree (errorFree : (parsed file source defines).2.log.errorCount = 0) :
    (ofSource file source defines).program = some (parsed file source defines).1 := by
  rw [programEq, if_pos errorFree]

theorem soundOfErrorFree (errorFree : (parsed file source defines).2.log.errorCount = 0) :
    (tokens source defines).faulty = [] ∧ (parsed file source defines).2.mistakes = 0 := by
  obtain ⟨counted, faults⟩ := parsedCounted file source defines
  have more : (lexicalLog file source defines).errorCount ≤ (parsed file source defines).2.log.errorCount :=
    Grammar.State.errorCountReached (Grammar.program.reaches (.start (tokens source defines) _ _))
  rw [errorFree, faults] at more
  exact ⟨List.eq_nil_of_length_eq_zero (Nat.le_zero.mp more), unmarkedOfErrorFree counted errorFree⟩

theorem ofAccepted (found : p ∈ (ofSource file source defines).program) : p = (parsed file source defines).1 ∧
    (parsed file source defines).2.log.errorCount = 0 ∧ (tokens source defines).faulty = [] := by
  rw [programEq] at found
  split at found
  · rename_i errorFree
    exact ⟨(Option.mem_some_iff.mp found).symm, errorFree, (soundOfErrorFree errorFree).1⟩
  · exact absurd found nofun

end Reading

theorem builtOfAccepted (found : p ∈ (Reading.ofSource file source defines).program) :
    every (Scope.built ⟨(Reading.tokens source defines).terminals, True⟩) p := by
  obtain ⟨rfl, errorFree, _⟩ := Reading.ofAccepted found
  exact programBuilt _ _ _ rfl True fun _ => (Reading.soundOfErrorFree errorFree).2

end Accepted

/-- The count is that of the errors reported, there is a program just when it is zero, and it is zero only
if every piece of the text is a token and the grammar found nothing wrong, held back or not. -/
theorem gateHidesNothing (file source : String) (defines : List String) :
    (Reading.ofSource file source defines).errorCount =
        ((Reading.ofSource file source defines).diagnostics.filter fun d => d.severity = .error).length ∧
      ((Reading.ofSource file source defines).program.isSome = true ↔
        (Reading.ofSource file source defines).errorCount = 0) ∧
      ((Reading.ofSource file source defines).errorCount = 0 →
        (Reading.tokens source defines).faulty = [] ∧ (Reading.parsed file source defines).2.mistakes = 0) ∧
      ∀ p ∈ (Reading.ofSource file source defines).program,
        every (genuine (Reading.tokens source defines).terminals) p := by
  have row := Grammar.program.reaches
    (.start (Reading.tokens source defines) (Reading.selected source defines).text
      (Reading.lexicalLog file source defines))
  have last : (Reading.parsed file source defines).2.IsGated :=
    State.gatedReached row (State.gatedStart (parsedCounted file source defines).1)
  refine ⟨last.counted, ?_, Reading.soundOfErrorFree, fun p found => ?_⟩
  · rw [Reading.programEq]
    show _ ↔ (Reading.parsed file source defines).2.log.errorCount = 0
    split <;> simp [*]
  · exact Program.imp (builtImpliesGenuine trivial) _ (builtOfAccepted found)

end Boogie
