import Boogie.Proofs.Text.Lines
import Boogie.Proofs.Token.Far
import Boogie.Proofs.Token.OneLine
import Mathlib.Data.List.Forall2

/-! What is said of a selected text is said of the source. A line that is not selected is blanked, so every
line that is kept keeps its number and its columns; and what stands on one line of the selected text stands
there in the source. -/
namespace Boogie

def HoldsAt (text piece : List Char) (p : Position) : Prop :=
  ∃ before after, text = before ++ piece ++ after ∧ p = Position.behind before

theorem Token.scanHolds {text : List Char} {t : Token} (mem : t ∈ (scan text).terminals)
    (held : t.span.start < Span.maxOffset) :
    HoldsAt text t.text.toList t.position ∧ t.text.toList ≠ [] ∧ '\n' ∉ t.text.toList := by
  obtain ⟨body, terminal⟩ := List.mem_filter.mp mem
  obtain ⟨front, back, cut, stands⟩ := (scanSpread text).slice t body
  rw [List.nil_append] at stands
  have place := (stands.place (by rw [cut, List.append_assoc]) held).2
  obtain ⟨c, rest, _, role, same⟩ := scanCut body
  have same : t.text.toList = taken c rest := same
  refine ⟨⟨front, back, cut, place⟩, stands.some, ?_⟩
  rw [same]
  exact plainTaken role (by simpa [Kind.isTerminal, word] using terminal)

theorem takeWhileStops {α : Type} {p : α → Bool} {mark : α} (stops : p mark = false) (front back : List α) :
    (front ++ mark :: back).takeWhile p = front.takeWhile p := by
  induction front with
  | nil => simp [stops]
  | cons c front ih =>
    cases kept : p c with
    | true => simp [kept, ih]
    | false => simp [kept]

theorem lastLineBehind (line rest : List Char) : lastLine (line ++ '\n' :: rest) = lastLine rest := by
  unfold lastLine
  rw [List.reverse_append, List.reverse_cons, List.append_assoc, List.singleton_append]
  exact congrArg List.reverse (takeWhileStops (by decide) rest.reverse line.reverse)

theorem behindNewline {line : List Char} (plain : '\n' ∉ line) (rest : List Char) :
    Position.behind (line ++ '\n' :: rest) = ⟨(Position.behind rest).line + 1, (Position.behind rest).column⟩ := by
  have count : (line ++ '\n' :: rest).count '\n' = rest.count '\n' + 1 := by
    rw [List.count_append, List.count_eq_zero.mpr plain, List.count_cons_self, Nat.zero_add]
  simp only [Position.behind, count, lastLineBehind]

namespace Conditional

def LeftOf (left line : List Char) : Prop := left = line ∨ left = []

theorem selectLinesLeft (defines : List (List Char)) (s : State) (kept : List (List Char))
    (lines : List (List Char × Nat)) : ∃ left, (selectLines defines s kept lines).1 = kept.reverse ++ left ∧
      List.Forall₂ LeftOf left (lines.map Prod.fst) := by
  fun_induction selectLines defines s kept lines with
  | case1 s kept => exact ⟨[], by simp, .nil⟩
  | case2 s kept line number rest d found ih =>
    obtain ⟨left, same, ofRest⟩ := ih
    exact ⟨[] :: left, by simp [same], .cons (.inr rfl) ofRest⟩
  | case3 s kept line number rest plain ih =>
    obtain ⟨left, same, ofRest⟩ := ih
    refine ⟨(if s.keeps then line else []) :: left, by simp [same], .cons ?_ ofRest⟩
    cases s.keeps with
    | true => exact .inl rfl
    | false => exact .inr rfl

theorem leftPlain {left line : List Char} (h : LeftOf left line) (plain : '\n' ∉ line) : '\n' ∉ left := by
  rcases h with rfl | rfl
  · exact plain
  · exact List.not_mem_nil

theorem leftPlainAll {left lines : List (List Char)} (h : List.Forall₂ LeftOf left lines)
    (plain : ∀ line ∈ lines, '\n' ∉ line) : ∀ part ∈ left, '\n' ∉ part := by
  induction h with
  | nil => exact nofun
  | cons ofLine ofRest ih =>
    obtain ⟨plainLine, plainRest⟩ := List.forall_mem_cons.mp plain
    exact List.forall_mem_cons.mpr ⟨leftPlain ofLine plainLine, ih plainRest⟩

theorem cutAtNewline {line rest before piece after : List Char} (some : piece ≠ []) (plain : '\n' ∉ piece)
    (cut : line ++ '\n' :: rest = before ++ piece ++ after) :
    (∃ more, line = before ++ piece ++ more) ∨ ∃ more, before = line ++ '\n' :: more ∧ rest = more ++ piece ++ after := by
  rw [List.append_assoc] at cut
  rcases List.append_eq_append_iff.mp cut with ⟨between, same, behind⟩ | ⟨piece', same, behind⟩
  · cases between with
    | nil =>
      cases piece with
      | nil => contradiction
      | cons c piece =>
        obtain ⟨rfl, _⟩ := List.cons.inj behind
        exact absurd List.mem_cons_self plain
    | cons c more =>
      obtain ⟨rfl, later⟩ := List.cons.inj behind
      exact .inr ⟨more, same, later.trans (List.append_assoc _ _ _).symm⟩
  · rcases List.append_eq_append_iff.mp behind with ⟨more, here, _⟩ | ⟨past, here, behind⟩
    · exact .inl ⟨more, by rw [same, here, List.append_assoc]⟩
    · cases past with
      | nil => exact .inl ⟨[], by rw [same, here]; simp⟩
      | cons c past =>
        obtain ⟨rfl, _⟩ := List.cons.inj behind
        exact absurd (by simp [here]) plain

theorem holdsInLines {left lines : List (List Char)} (h : List.Forall₂ LeftOf left lines)
    (plainLines : ∀ line ∈ lines, '\n' ∉ line) {piece : List Char} (some : piece ≠ []) (plain : '\n' ∉ piece)
    {p : Position} (holds : HoldsAt (Text.join '\n' left) piece p) : HoldsAt (Text.join '\n' lines) piece p := by
  induction h generalizing p with
  | nil => exact holds
  | @cons part line left lines ofLine ofRest ih =>
    obtain ⟨plainLine, plainRest⟩ := List.forall_mem_cons.mp plainLines
    obtain ⟨before, after, cut, place⟩ := holds
    -- a blanked line holds nothing
    have here {more : List Char} (inside : part = before ++ piece ++ more) : line = before ++ piece ++ more := by
      rcases ofLine with rfl | rfl
      · exact inside
      · simp [some] at inside
    cases ofRest with
    | nil =>
      have whole : part = before ++ piece ++ after := by simpa [Text.join] using cut
      exact ⟨before, after, by simpa [Text.join] using here whole, place⟩
    | @cons next nextLine left lines ofNext ofMore =>
      rw [Text.joinCons] at cut ⊢
      rcases cutAtNewline some plain cut with ⟨more, inside⟩ | ⟨more, passed, behind⟩
      · refine ⟨before, more ++ '\n' :: Text.join '\n' (nextLine :: lines), ?_, place⟩
        rw [here inside, List.append_assoc _ more]
      · obtain ⟨before', after', cut', place'⟩ := ih plainRest ⟨more, after, behind, rfl⟩
        refine ⟨line ++ '\n' :: before', after', ?_, ?_⟩
        · rw [cut']
          simp
        · rw [place, passed, behindNewline (leftPlain ofLine plainLine), behindNewline plainLine, place']

end Conditional

namespace Reading

open Conditional

theorem selectedLeft (source : String) (defines : List String) :
    ∃ left, (selected source defines).text = Text.join '\n' left ∧
      List.Forall₂ LeftOf left (splitLines source.toList) := by
  obtain ⟨left, same, ofLines⟩ :=
    selectLinesLeft (defines.map String.toList) .start [] (numberedLines source.toList)
  rw [numberedLinesFst] at ofLines
  exact ⟨left, congrArg (Text.join '\n') same, ofLines⟩

theorem selectedNewlines (source : String) (defines : List String) :
    (selected source defines).text.count '\n' = source.toList.count '\n' := by
  obtain ⟨left, same, ofLines⟩ := selectedLeft source defines
  have filled : left ≠ [] := by
    rintro rfl
    exact splitLinesNe source.toList (List.forall₂_nil_left_iff.mp ofLines)
  have lines : splitLines (selected source defines).text = left := by
    rw [same]
    exact Text.splitJoin filled (leftPlainAll ofLines fun line mem => linePlain mem)
  have count := splitLinesLength (selected source defines).text
  rw [lines, ofLines.length_eq, splitLinesLength] at count
  exact (Nat.succ.inj count).symm

theorem selectedHolds {source : String} {defines : List String} {piece : List Char} (some : piece ≠ [])
    (plain : '\n' ∉ piece) {p : Position} (holds : HoldsAt (selected source defines).text piece p) :
    HoldsAt source.toList piece p := by
  obtain ⟨left, same, ofLines⟩ := selectedLeft source defines
  rw [same] at holds
  have whole := holdsInLines ofLines (fun line mem => linePlain mem) some plain holds
  rwa [splitLines, Text.joinSplit] at whole

end Reading

/-- Selecting keeps the newlines of a source, and where a token of the selected text stands, on that line and
from that column on, the source has the text of the token. The token must begin where a span can still tell it; if
that holds in the source too, the line table finds the place there. -/
theorem tokensStandInSource (source : String) (defines : List String) :
    (Reading.selected source defines).text.count '\n' = source.toList.count '\n' ∧
      ∀ t ∈ (Reading.tokens source defines).terminals, t.span.start < Span.maxOffset → ∃ before after,
        source.toList = before ++ t.text.toList ++ after ∧
          t.position = ⟨before.count '\n' + 1, (lastLine before).length + 1⟩ ∧
          (byteLength before < Span.maxOffset →
            t.position = (LineTable.ofText source.toList).position (byteLength before)) := by
  refine ⟨Reading.selectedNewlines source defines, fun t mem held => ?_⟩
  obtain ⟨holds, some, plain⟩ := Token.scanHolds mem held
  obtain ⟨before, after, cut, place⟩ := Reading.selectedHolds some plain holds
  refine ⟨before, after, cut, place, fun heldInSource => ?_⟩
  rw [cut, List.append_assoc, LineTable.positionBehind before _ heldInSource, place]

theorem wordStandsInSource :
    let source := "#if A\r\n(\n#else\r\n/* ∀\n#endif\n∀ */ ∧ x"
    let t : Token := ⟨.identifier, "x", ⟨22, 23⟩, ⟨6, 8⟩⟩
    t ∈ (Reading.tokens source []).terminals ∧ t.span.start < Span.maxOffset ∧ ∃ before after,
      source.toList = before ++ t.text.toList ++ after ∧
        t.position = ⟨before.count '\n' + 1, (lastLine before).length + 1⟩ ∧
        (byteLength before < Span.maxOffset →
          t.position = (LineTable.ofText source.toList).position (byteLength before)) :=
  have found : (⟨.identifier, "x", ⟨22, 23⟩, ⟨6, 8⟩⟩ : Token) ∈
      (Reading.tokens "#if A\r\n(\n#else\r\n/* ∀\n#endif\n∀ */ ∧ x" []).terminals := by decide +kernel
  have held : 22 < Span.maxOffset := by decide
  ⟨found, held, (tokensStandInSource _ []).2 _ found held⟩

/-- Behind a newline and as many spaces as a span can tell, a name is given a column in which it does not stand. -/
theorem farWordMisplaced :
    let source := String.ofList (Token.farFront ++ ['x'])
    ∃ t ∈ (Reading.tokens source []).terminals, ¬ ∃ before after,
      source.toList = before ++ t.text.toList ++ after ∧ t.position = Position.behind before := by
  intro source
  have chars : source.toList = Token.farFront ++ ['x'] := String.toList_ofList
  have tokens : Reading.tokens source [] = Token.scan (Token.farFront ++ ['x']) := by
    rw [Reading.tokens, Reading.selected, chars, Token.selectFar [] (by decide) rfl]
  have words := Token.scanWords (Token.farFront ++ ['x'])
  rw [Token.wordsFar, show Token.words ['x'] = [⟨.identifier, ['x']⟩] by decide +kernel] at words
  obtain ⟨t, body, word⟩ := List.map_eq_singleton_iff.mp words
  obtain ⟨kind, text⟩ := Token.Word.mk.inj word
  refine ⟨t, ?_, ?_⟩
  · rw [tokens, TokenList.terminals, body]
    simp [show t.kind = .identifier from kind, Token.Kind.isTerminal]
  · rintro ⟨before, after, cut, place⟩
    have far := (Token.scanFar ['x'] t (by simp [TokenList.toList, body])).position
    have absent : 'x' ∉ Token.farFront := fun mem => absurd (Token.farFrontBlank 'x' mem) (by decide)
    rw [chars, text, List.append_assoc] at cut
    obtain ⟨front, _⟩ := (List.append_cons_inj_of_notMem absent List.not_mem_nil).mp cut
    have column : (Position.behind Token.farFront).column = Span.maxOffset + 1 := by
      have plain : lastLine (List.replicate Span.maxOffset ' ') = List.replicate Span.maxOffset ' ' := by
        simp [lastLine]
      rw [Position.behind, Token.farFront, ← List.nil_append ('\n' :: _), lastLineBehind, plain, List.length_replicate]
    have held : t.position.column ≤ Position.maxNumber := far ▸ LineTable.columnHeld _ _
    rw [place, ← front, column] at held
    exact absurd held (Nat.not_succ_le_self _)

end Boogie
