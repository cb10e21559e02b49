import Boogie.Proofs.Extract.Program
import Boogie.Proofs.Relaid
import Boogie.Proofs.Termination

/-! A bit range can only become an extract. A bracket around bounds takes them wherever it stands, and a source
that has bounds elsewhere, or others than those of an extract, is not accepted. -/
namespace Boogie

open Token (Kind Word)

namespace Grammar

theorem alikeBelow {n : Nat} {bottom : Nested} {tokens : List Token} (enough : n ≤ tokens.length + 1) (l : Level) :
    Simulates samePlace n anywhere Alike (operand l) (nest bottom level tokens l) := fun s s' row left first inside =>
  Simulates.nestTokens (V := fun _ => Alike) (fun m (_ : m < s.left + 1) _ _ same l => alikeLevel same l) s.cursor.ahead
    tokens (show s.left ≤ _ by omega) (s.left + 1) (Nat.le_refl _) (Nat.le_refl _) l s s' row (Nat.lt_succ_self _)
    first inside

theorem boundsAlike {upper lower : Nat} {found found' : List Expr × Option BitRange × Option Expr}
    (h : IsBounds upper lower found) (same : Alike found found') : IsBounds upper lower found' := by
  obtain ⟨span, rfl⟩ := h
  obtain ⟨indexes, range, stored⟩ := found'
  cases indexes <;> cases stored <;> rcases range with _ | ⟨upper', lower', span'⟩ <;> simp [Alike, bare] at same
  obtain ⟨rfl, rfl⟩ := same
  exact ⟨span', rfl⟩

theorem bracketTakesBounds {inner : List Word} {upper lower : Nat} (h : IsRange inner upper lower)
    {opened closed : List Char} {rest : List Word} {bottom : Nested} {tokens : List Token} (base : Expr) {s : State}
    (ends : s.isClosed) (enough : s.left ≤ tokens.length + 1)
    (words : s.words = ⟨.leftBracket, opened⟩ :: (inner ++ ⟨.rightBracket, closed⟩ :: rest)) :
    let r := (bracket (nest bottom level tokens) base).run s
    (∃ span, r.1 = .apply span (.extract upper lower) [base]) ∧ r.2.words = rest ∧ r.2.log = s.log := by
  obtain ⟨_, behind⟩ := State.wordsCons words
  have less : s.advance.left + 1 ≤ tokens.length + 1 := by
    rw [State.leftAdvance]
    omega
  -- the indexes are read as they would be with no bound on nesting
  have alike : Simulates samePlace (s.advance.left + 1) anywhere Alike (indexes operand)
      (indexes (nest bottom level tokens)) := alikeIndexes (alikeBelow less)
  obtain ⟨same, place⟩ := alike s.advance s.advance ⟨ends, ends, rfl, rfl⟩ (Nat.lt_succ_self _) trivial trivial
  obtain ⟨⟨span, is⟩, after, clean⟩ := readsBounds h closed rest s.advance ends behind
  have found : IsBounds upper lower ((indexes (nest bottom level tokens)).run s.advance).1 :=
    boundsAlike ⟨span, is⟩ same
  have last : Reads [⟨.rightBracket, closed⟩] rest (fun e => ∃ span, e = Expr.apply span (.extract upper lower) [base])
      (expect .rightBracket >>= fun _ => previousSpan >>= fun last =>
        pure (bracketed (base.span.merge last) base ((indexes (nest bottom level tokens)).run s.advance).1)) := by
    obtain ⟨span, is⟩ := found
    rw [is]
    exact .expect rfl (.look fun last => .pure ⟨_, rfl⟩)
  have words' : ((indexes (nest bottom level tokens)).run s.advance).2.words = [⟨.rightBracket, closed⟩] ++ rest := by
    rw [State.words, place.ahead, ← State.words, after]
    rfl
  obtain ⟨tree, done, clean'⟩ := last _ place.closed' words'
  refine ⟨tree, done, ((bracket (nest bottom level tokens) base).reaches s).silent ?_⟩
  exact clean'.trans (place.mistakes.trans clean)

end Grammar

open Grammar

section Accepted

variable {file source : String} {defines : List String}

theorem foundOfAccepted {T : List Word → Program → Prop} (h : ∀ {n}, Finds anywhere n anywhere T program) {p : Program}
    (found : p ∈ (Reading.ofSource file source defines).program) :
    T ((Reading.tokens source defines).terminals.map Token.word) p := by
  let text := (Reading.selected source defines).text
  let start : State := .start (Reading.tokens source defines) text (Reading.lexicalLog file source defines)
  obtain ⟨rfl, errorFree, _⟩ := Reading.ofAccepted found
  have clean : (Grammar.program.run start).2.mistakes = start.mistakes := (Reading.soundOfErrorFree errorFree).2
  obtain ⟨ws, words, holds⟩ := h start rfl (fun _ _ => trivial) (Nat.lt_succ_self _) trivial clean
  have ended : (Grammar.program.run start).2.words = [] :=
    List.map_eq_nil_iff.mpr (readsEachOnce rfl (fun t mem => scanInner mem) text _).1
  rw [ended, List.append_nil] at words
  exact (words ▸ holds : T start.words (Reading.parsed file source defines).1)

theorem rangesOfAccepted (errorFree : (Reading.ofSource file source defines).errorCount = 0) :
    ∃ p ∈ (Reading.ofSource file source defines).program, ∃ ranges,
      Ranged ((Reading.tokens source defines).terminals.map Token.word) ranges ∧ ranges ≤ extracts p := by
  have found : (Reading.parsed file source defines).1 ∈ (Reading.ofSource file source defines).program :=
    Reading.programOfErrorFree errorFree
  obtain ⟨ranges, ranged, enough⟩ := foundOfAccepted tellsProgram found
  rw [zero_add] at enough
  exact ⟨_, found, ranges, ranged, enough⟩

end Accepted

/-- Where a bracket holds the bounds of an extract and nothing else, it is read as that extract of what stands in
front of it, whatever that is and however deep in other expressions; so expressions with such brackets are
expressions again, and are read as such. Where a source has a bit range anywhere else, it has an error. -/
theorem boundsOnlyExtract :
    (∀ inner upper lower, IsRange inner upper lower → ∀ opened closed,
      (∀ (bottom : Nested) tokens base rest (s : State), s.isClosed → s.left ≤ tokens.length + 1 →
        s.words = ⟨.leftBracket, opened⟩ :: (inner ++ ⟨.rightBracket, closed⟩ :: rest) →
        let r := (bracket (nest bottom level tokens) base).run s
        (∃ span, r.1 = .apply span (.extract upper lower) [base]) ∧ r.2.words = rest ∧ r.2.log = s.log) ∧
      ∀ ws b, Derives readable (.expr .brackets) ws b → ∀ rank : Rank, rank.strength ≤ 10 →
        Derives readable (.expr rank) (ws ++ ⟨.leftBracket, opened⟩ :: (inner ++ [⟨.rightBracket, closed⟩]))
          (extractTree upper lower b)) ∧
    (∀ ws e, Derives readable (.expr .equivalence) ws e → ∀ rest, strength (headKind rest) < 1 →
      Reads ws rest (fun a => bare a = e) expression) ∧
    ∀ file source defines, (Reading.ofSource file source defines).errorCount = 0 →
      ∃ p ∈ (Reading.ofSource file source defines).program, ∃ ranges,
        Ranged ((Reading.tokens source defines).terminals.map Token.word) ranges ∧ ranges ≤ extracts p := by
  refine ⟨fun inner upper lower h opened closed => ⟨?_, fun ws b derived rank looser => ?_⟩, ?_, ?_⟩
  · exact fun bottom tokens base rest s ends enough words => bracketTakesBounds h base ends enough words
  · have inside : readable.inside inner (extractTree upper lower) := fun text rest =>
      (readsBounds h text rest).weaken fun _ => IsBounds.isInside
    exact .ofBrackets (derived.grows rfl (.otherInside inside)) rank looser
  · exact fun ws e derived rest weak => readsExpression (derived.accepted readableAccepted rest weak)
  · exact fun file source defines errorFree => rangesOfAccepted errorFree

/-- Where a bracket with bounds begins, as in a text of nothing else. -/
def atBracket : State := .start (Token.scan "[(7):0];".toList) "[(7):0];".toList (.empty "")

theorem boundsAmongIndexes :
    (let r := (bracket (nest operand level atBracket.cursor.ahead) (.name .nowhere "x")).run atBracket;
      (∃ span, r.1 = .apply span (.extract 7 0) [.name .nowhere "x"]) ∧
        r.2.words = [⟨.semicolon, [';']⟩] ∧ r.2.log = .empty "") ∧
      (∃ p ∈ (Reading.ofSource "" "axiom x[(7):0];" []).program, extracts p ≠ 0) ∧
      (Reading.ofSource "" "axiom x[1, 7:0];" []).errorCount ≠ 0 := by
  let word (k : Kind) (text : String) : Word := ⟨k, text.toList⟩
  refine ⟨?_, ?_, fun errorFree => ?_⟩
  · let number := [word .leftParen "(", word .digits "7", word .rightParen ")"]
    have digits : IsNumber number 7 := .paren (@IsNumber.digits ['7'] 7 (by decide))
    have range : IsRange (number ++ [word .colon ":", word .digits "0"]) 7 0 :=
      .bounds digits (by decide) (by decide) (by decide)
    have words : atBracket.words = ⟨.leftBracket, ['[']⟩ :: ((number ++ [word .colon ":", word .digits "0"]) ++
        ⟨.rightBracket, [']']⟩ :: [⟨.semicolon, [';']⟩]) := by decide +kernel
    exact (boundsOnlyExtract.1 _ 7 0 range ['['] [']']).1 operand atBracket.cursor.ahead (.name .nowhere "x") _ atBracket
      rfl (Nat.le_succ _) words
  · obtain ⟨p, given, ranges, ranged, enough⟩ := boundsOnlyExtract.2.2 "" "axiom x[(7):0];" [] (by decide +kernel)
    have words : (Reading.tokens "axiom x[(7):0];" []).terminals.map Token.word =
        [word .kwAxiom "axiom", word .identifier "x", word .leftBracket "[", word .leftParen "(", word .digits "7",
          word .rightParen ")"] ++ word .colon ":" :: word .digits "0" ::
          [word .rightBracket "]", word .semicolon ";"] := by decide +kernel
    rw [words] at ranged
    obtain ⟨_, _, _, _, _, upper, lower, _, _, _, mem⟩ := ranged.around rfl rfl
    refine ⟨p, given, fun none => ?_⟩
    rw [none] at enough
    exact absurd (Multiset.mem_of_le enough mem) (Multiset.notMem_zero _)
  · obtain ⟨p, given, ranges, ranged, enough⟩ := boundsOnlyExtract.2.2 _ _ _ errorFree
    have words : (Reading.tokens "axiom x[1, 7:0];" []).terminals.map Token.word =
        [word .kwAxiom "axiom", word .identifier "x", word .leftBracket "[", word .digits "1", word .comma ",",
          word .digits "7"] ++ word .colon ":" :: word .digits "0" ::
          [word .rightBracket "]", word .semicolon ";"] := by decide +kernel
    rw [words] at ranged
    obtain ⟨before, opened, number, closed, _, upper, lower, split, _, range, _⟩ := ranged.around rfl rfl
    have digits : IsNumber number upper := (range.split rfl rfl).choose_spec.2.2
    have turned := congrArg List.reverse split
    cases digits <;> simp [word] at turned

end Boogie
