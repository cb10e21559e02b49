import Boogie.Proofs.Chained
import Boogie.Proofs.Located
import Boogie.Proofs.Nesting.Program
import Boogie.Proofs.Relaid
import Boogie.Proofs.Termination

/-! The expressions of a source that is accepted nest. Its tokens stand one behind the other, and the run that reads
them is clean. -/
namespace Boogie

def Token.rowOf (text : List Char) : TokenRow where
  tokens := (scan text).terminals
  size := byteLength text
  forwards _ mem := (Token.scanExtent (List.mem_of_mem_filter mem)).1
  ordered := (Token.scanSpread text).ordered.filter _
  inside _ mem := (Token.scanExtent (List.mem_of_mem_filter mem)).2.1
  filled _ mem := (Token.scanExtent (List.mem_of_mem_filter mem)).2.2

namespace Conditional

theorem joinLe {left lines : List (List Char)} (h : List.Forall₂ LeftOf left lines) :
    byteLength (Text.join '\n' left) ≤ byteLength (Text.join '\n' lines) := by
  induction h with
  | nil => exact Nat.le_refl _
  | @cons part line left lines ofLine ofRest ih =>
    have shorter : byteLength part ≤ byteLength line := by
      rcases ofLine with rfl | rfl
      · exact Nat.le_refl _
      · exact Nat.zero_le _
    cases ofRest with
    | nil => simpa [Text.join] using shorter
    | cons ofNext ofMore =>
      rw [Text.joinCons, Text.joinCons, byteLengthAppend, byteLengthAppend, byteLengthCons, byteLengthCons]
      omega

end Conditional

theorem Reading.selectedLe (source : String) (defines : List String) :
    byteLength (selected source defines).text ≤ byteLength source.toList := by
  obtain ⟨left, same, ofLines⟩ := selectedLeft source defines
  have le := Conditional.joinLe ofLines
  rwa [← same, splitLines, Text.joinSplit] at le

section Accepted

open Grammar

variable {file source : String} {defines : List String}

theorem cleanOfAccepted (errorFree : (Reading.ofSource file source defines).errorCount = 0) :
    State.Clean (.start (Reading.tokens source defines) (Reading.selected source defines).text
      (Reading.lexicalLog file source defines)) (Reading.parsed file source defines).2 := by
  have inner : ∀ t ∈ (Reading.tokens source defines).body, t.kind ≠ .endOfText := fun t mem => scanInner mem
  obtain ⟨ahead, taken⟩ := readsEachOnce rfl inner (Reading.selected source defines).text
    (Reading.lexicalLog file source defines)
  refine ⟨(Reading.soundOfErrorFree errorFree).2, ?_⟩
  rw [Reading.parsed, State.extent, ahead, ← List.length_reverse, taken]
  exact (Nat.zero_add _).symm

theorem writtenNests (errorFree : (Reading.ofSource file source defines).errorCount = 0) :
    Written (Nests (Reading.tokens source defines).terminals (byteLength (Reading.selected source defines).text))
      (Reading.parsed file source defines).1.decls := by
  let start : State := .start (Reading.tokens source defines) (Reading.selected source defines).text
    (Reading.lexicalLog file source defines)
  have begins : At (Token.rowOf (Reading.selected source defines).text) 0 start :=
    ⟨rfl, rfl, fun k is => absurd is.symm (Nat.succ_ne_zero k)⟩
  have lays : Lays (Token.rowOf (Reading.selected source defines).text) 0 (start.left + 1) anywhere _ program :=
    laysProgram
  obtain ⟨_, _, _, written⟩ := lays start begins (Nat.lt_succ_self _) trivial (cleanOfAccepted errorFree)
  exact written

/-- In a source without errors every expression that is written covers part of the text, from the start of a token to
the end of a token, and in that each of the expressions that it holds directly; the operands of a binary one stand
apart. -/
theorem expressionsNest (errorFree : (Reading.ofSource file source defines).errorCount = 0) :
    byteLength (Reading.selected source defines).text ≤ byteLength source.toList ∧
      ∃ p ∈ (Reading.ofSource file source defines).program,
        Written (Nests (Reading.tokens source defines).terminals (byteLength (Reading.selected source defines).text))
          p.decls :=
  ⟨Reading.selectedLe source defines, _, Reading.programOfErrorFree errorFree, writtenNests errorFree⟩

theorem expressionsNestInBinder :
    let source :=
      "axiom (forall x: int :: \x7bf(x)\x7d \x7b:w x\x7d f(x) <== (var y := x; y > |\x7bA: return 1;\x7d|));\n" ++
        "function f(x: int): bool \x7b x : int > 0 \x7d"
    let text := (Reading.selected source []).text
    (Reading.ofSource "" source []).errorCount = 0 ∧ byteLength text ≤ byteLength source.toList ∧
      ∃ p ∈ (Reading.ofSource "" source []).program,
        Written (Nests (Reading.tokens source []).terminals (byteLength text)) p.decls :=
  have errorFree := by decide +kernel
  ⟨errorFree, expressionsNest errorFree⟩

-- the parentheses around the first operand are no part of the sum
example : (Reading.ofSource "" "axiom (a) + b;" []).program.map (fun p => p.axioms.map fun a => a.condition.span) =
    some [⟨7, 13⟩] := by decide +kernel

def oneAxiom : List Char := "axiom x;".toList

theorem axiomOfNameless {ds : List Decl} (nameless : ds.map Decl.name = [none]) : ∃ a, ds = [.axiomatic a] := by
  obtain ⟨d, rfl, none⟩ := List.map_eq_singleton_iff.mp nameless
  cases d with
  | axiomatic a => exact ⟨a, rfl⟩
  | _ => simp [Decl.name] at none

theorem namesBare (ds : List Decl) : (bare ds).map Decl.name = ds.map Decl.name := by
  rw [bare, respanList, List.map_map]
  refine List.map_congr_left fun d _ => ?_
  rcases d with _ | _ | _ | _ | _ | ⟨_, _⟩ | _ | _ <;> rfl

theorem axiomEmpty {text : List Char} {place : Nat} (whole : Reading.selected source [] = ⟨text, []⟩)
    (same : Token.words text = Token.words oneAxiom)
    (there : ∀ t ∈ (Token.scan text).terminals, t.span = ⟨place, place⟩) :
    (Reading.ofSource "" source []).errorCount = 0 ∧
      ∃ p ∈ (Reading.ofSource "" source []).program, ∃ a ∈ p.axioms, a.condition.span = ⟨place, place⟩ := by
  have tokens : Reading.tokens source [] = Token.scan text := by rw [Reading.tokens, whole]
  have clean : (Token.scan text).faulty = [] := by
    refine cleanOfSound ?_
    rw [same]
    exact soundWords (by decide +kernel)
  have noFaults : Reading.lexicalLog "" source [] = .empty "" := by
    rw [Reading.lexicalLog, whole, Reading.logFaultsNone clean]
    rfl
  have parsed : Reading.parsed "" source [] = Reading.run (Token.scan text) text (.empty "") := by
    rw [Reading.parsed, tokens, whole, noFaults]
  -- the words are those of a short text, which can be read
  have outcome := Reading.outcomeOfWords same ""
  have short : (Reading.ofTokens (Token.scan oneAxiom) oneAxiom (.empty "")).2.errorCount = 0 ∧
      (Reading.ofTokens (Token.scan oneAxiom) oneAxiom (.empty "")).1.decls.map Decl.name = [none] := by decide +kernel
  have errorFree : (Reading.ofSource "" source []).errorCount = 0 := by
    have count : (Reading.parsed "" source []).2.log.errorCount = 0 := by
      rw [parsed]
      exact outcome.errorCount.trans short.1
    exact count
  have nameless : (Reading.parsed "" source []).1.decls.map Decl.name = [none] := by
    rw [parsed, ← namesBare, ← short.2, ← namesBare (Reading.ofTokens _ _ _).1.decls]
    exact congrArg (List.map Decl.name ∘ Program.decls) outcome.program
  obtain ⟨a, only⟩ := axiomOfNameless nameless
  refine ⟨errorFree, _, Reading.programOfErrorFree errorFree, a, ?_, ?_⟩
  · rw [Program.axioms, Program.ofSort, only]
    exact List.mem_singleton_self a
  · have written := writtenNests errorFree
    rw [only, tokens] at written
    have condition : a.condition ∈ outermost a := List.mem_append_right _ (List.mem_singleton_self _)
    obtain ⟨⟨⟨t, first, begins⟩, ⟨u, last, ends⟩, _⟩, _⟩ := written.ofAxiom a.condition condition
    rw [there t first] at begins
    rw [there u last] at ends
    exact (Span.mk.injEq ..).mpr ⟨begins.symm, ends.symm⟩

/-- Behind a newline and as many spaces as a span can tell, an expression covers nothing. -/
theorem farExpressionEmpty :
    let source := String.ofList (Token.farFront ++ oneAxiom)
    (Reading.ofSource "" source []).errorCount = 0 ∧
      ∃ p ∈ (Reading.ofSource "" source []).program, ∃ a ∈ p.axioms,
        ¬ a.condition.span.start < a.condition.span.stop := by
  intro source
  have whole : Reading.selected source [] = ⟨Token.farFront ++ oneAxiom, []⟩ := by
    rw [Reading.selected, String.toList_ofList]
    exact Token.selectFar [] (by decide) rfl
  obtain ⟨errorFree, p, found, a, listed, empty⟩ := axiomEmpty whole (Token.wordsFar oneAxiom) fun t mem =>
    (Token.scanFar oneAxiom t (List.mem_append_left _ (List.mem_of_mem_filter mem))).span
  exact ⟨errorFree, p, found, a, listed, by rw [empty]; exact Nat.lt_irrefl _⟩

end Accepted

end Boogie
