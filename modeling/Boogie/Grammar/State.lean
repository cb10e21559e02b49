import Boogie.Diagnostic.Log
import Boogie.Grammar.Cursor
import Boogie.Source.LineTable

/-! The state of a reading: where it stands, and what was found wrong so far. It changes in four ways
only; a state reaches another by a row of such steps. -/
namespace Boogie.Grammar

inductive Rule where
  | whereForbidden (context : String)
  | attributesForbidden (context : String)
  | triggersForbidden
  | lambdaTriggers
  | noPatterns
  | mixedImplications
  | misplacedBounds
  | parenthesizedBounds
  | severalBounds
  | storedBounds
  | boundsNotLiteral
  | boundsTooLarge
  | malformedNumber
  | malformedFloat
  | malformedBitVector
  | severalLabels
  | nameBeforeColon
  | parameterName
  | lastParameterType
  deriving DecidableEq, Repr

def Rule.message : Rule → String
  | .whereForbidden context => "where clause not allowed on " ++ context
  | .attributesForbidden context => "attributes are not allowed on " ++ context
  | .triggersForbidden => "only attributes, not triggers, allowed here"
  | .lambdaTriggers => "triggers not allowed in lambda expressions"
  | .noPatterns => "the 'nopats' quantifier attribute expects a single expression parameter"
  | .mixedImplications => "illegal mixture of ==> and <==, use parentheses to disambiguate"
  | .misplacedBounds => "bitvector bounds in illegal position"
  | .parenthesizedBounds => "parentheses around bitvector bounds are not allowed"
  | .severalBounds => "bitvectors only have one dimension"
  | .storedBounds => "assignment to bitvectors is not possible"
  | .boundsNotLiteral => "arguments of extract need to be integer literals"
  | .boundsTooLarge => "bitvector bounds out of range"
  | .malformedNumber => "incorrectly formatted number"
  | .malformedFloat => "incorrectly formatted floating point"
  | .malformedBitVector => "incorrectly formatted bitvector"
  | .severalLabels => "code expression blocks can only have one label"
  | .nameBeforeColon => "expected identifier before ':'"
  | .parameterName => "expecting an identifier as parameter name"
  | .lastParameterType => "the type of the last parameter is unspecified"

structure State where
  cursor : Cursor
  lines : LineTable
  log : Log
  /-- How many mistakes were found, reported or not. -/
  mistakes : Nat

namespace State

def start (tokens : TokenList) (text : List Char) (log : Log) : State :=
  ⟨.ofTokens tokens, .ofText text, log, 0⟩

def kind (s : State) : Token.Kind := s.cursor.current.kind

def left (s : State) : Nat := s.cursor.ahead.length

def advance (s : State) : State := { s with cursor := s.cursor.advance }

def syntaxError (e : SyntaxError) (s : State) : State :=
  { s with
    cursor := s.cursor.noteMistake
    log := if s.cursor.isReportDue then s.log.syntaxError s.cursor.current.position e else s.log
    mistakes := s.mistakes + 1 }

def broken (rule : Rule) (s : State) : State :=
  { s with
    cursor := s.cursor.noteMistake
    log := if s.cursor.isReportDue then s.log.semanticError s.cursor.previous.position rule.message
      else s.log
    mistakes := s.mistakes + 1 }

def brokenAt (span : Span) (rule : Rule) (s : State) : State :=
  { s with
    log := s.log.semanticError (s.lines.position span.start) rule.message
    mistakes := s.mistakes + 1 }

/-- The four ways to change a state. -/
inductive Step : State → State → Prop
  | advance (s) : Step s s.advance
  | syntaxError (e s) : Step s (s.syntaxError e)
  | broken (rule s) : Step s (s.broken rule)
  | brokenAt (span rule s) : Step s (s.brokenAt span rule)

inductive Reaches (s : State) : State → Prop
  | refl : Reaches s s
  | step {t u} (before : Reaches s t) (last : Step t u) : Reaches s u

namespace Reaches

theorem one {s t : State} (h : Step s t) : s.Reaches t := .step .refl h

theorem trans {s t u : State} (first : s.Reaches t) (rest : t.Reaches u) : s.Reaches u := by
  induction rest with
  | refl => exact first
  | step _ last ih => exact ih.step last

theorem keeps {P : State → Prop} (kept : ∀ s t, Step s t → P s → P t) {s t : State}
    (h : s.Reaches t) (start : P s) : P t := by
  induction h with
  | refl => exact start
  | step _ last ih => exact kept _ _ last ih

theorem mistakesLe {s t : State} (h : s.Reaches t) : s.mistakes ≤ t.mistakes := by
  refine h.keeps (P := fun t => s.mistakes ≤ t.mistakes) ?_ (Nat.le_refl _)
  intro t u last less
  cases last <;> simp only [State.advance, State.syntaxError, State.broken, State.brokenAt] <;> omega

theorem finishEq {s t : State} (h : s.Reaches t) : t.cursor.finish = s.cursor.finish := by
  refine h.keeps (P := fun t => t.cursor.finish = s.cursor.finish) ?_ rfl
  intro t u last same
  cases last <;> exact same

theorem aheadSuffix {s t : State} (h : s.Reaches t) : t.cursor.ahead <:+ s.cursor.ahead := by
  refine h.keeps (P := fun t => t.cursor.ahead <:+ s.cursor.ahead) ?_ (List.suffix_refl _)
  intro t u last suffix
  cases last with
  | advance => exact (List.tail_suffix _).trans suffix
  | syntaxError => exact suffix
  | broken => exact suffix
  | brokenAt => exact suffix

theorem leftLe {s t : State} (h : s.Reaches t) : t.left ≤ s.left := h.aheadSuffix.length_le

end Reaches

theorem reachesSkipTo (set : Token.KindSet) (tokens : List Token) (s : State) :
    s.Reaches { s with cursor := s.cursor.skipTo set tokens } := by
  induction tokens generalizing s with
  | nil => exact .refl
  | cons t rest ih =>
    simp only [Cursor.skipTo]
    split
    · exact .refl
    · exact (Reaches.one (.advance s)).trans (ih s.advance)

def synchronize (set : Token.KindSet) (s : State) : State :=
  { s with cursor := s.cursor.synchronize set }

theorem reachesSynchronize (set : Token.KindSet) (s : State) : s.Reaches (s.synchronize set) :=
  reachesSkipTo set s.cursor.ahead s

end State

end Boogie.Grammar
