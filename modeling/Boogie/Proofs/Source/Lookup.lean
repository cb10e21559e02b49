import Boogie.Proofs.Source.Places

/-! The line table against the plain count. Halving finds at every boundary of two characters what is counted from
the start of the text, so a later boundary has a later place; past the end there is the place of the end. -/
namespace Boogie

/-- The offset stands in front of a character or at the end of the text. -/
def IsBoundary (text : List Char) (offset : Nat) : Prop :=
  ∃ before after, text = before ++ after ∧ offset = byteLength before

namespace LineTable

theorem charsBeforeAll {line : List Char} {bytes : Nat} (all : byteLength line ≤ bytes) (count : Nat) :
    charsBefore bytes line count = some (count + line.length) := by
  induction line generalizing bytes count with
  | nil => cases bytes <;> rfl
  | cons c line ih =>
    have size := byteLengthCons c line
    have pos := c.utf8Size_pos
    obtain ⟨n, rfl⟩ : ∃ n, bytes = n + 1 := ⟨bytes - 1, by omega⟩
    rw [charsBefore, if_pos (by omega), ih (by omega), List.length_cons]
    · congr 1
      omega
    · omega

theorem positionPast {text : List Char} {offset : Nat} (past : byteLength text ≤ offset)
    (short : byteLength text < Span.maxOffset) : (ofText text).position offset = Position.behind text := by
  obtain ⟨front, start, rows, index, whole, early⟩ := rowsBehind text []
  rw [List.append_nil, List.append_nil, ← rowsOfText] at rows
  have few : text.count '\n' < Position.maxNumber :=
    Nat.lt_of_le_of_lt (Nat.le_trans List.count_le_length (lengthLeBytes text)) short
  have narrow : (lastLine text).length < Position.maxNumber :=
    Nat.lt_of_le_of_lt (Nat.le_trans (lengthLeBytes (lastLine text)) (by omega)) short
  have count : charsBefore (offset - min start Span.maxOffset) (lastLine text) 0 = some (0 + (lastLine text).length) :=
    charsBeforeAll (by omega) 0
  rw [positionFound rows (fun r mem => Nat.le_trans (early r mem) (by omega)) (by dsimp only; omega) nofun (index ▸ few)
    count, index, Nat.zero_add, Position.numberSmall narrow]
  rfl

theorem boundaryLater {text : List Char} {a b : Nat} (first : IsBoundary text a) (second : IsBoundary text b)
    (less : a < b) : ∃ before more after, text = before ++ more ++ after ∧ more ≠ [] ∧ a = byteLength before ∧
      b = byteLength (before ++ more) := by
  obtain ⟨before, after, rfl, rfl⟩ := first
  obtain ⟨before', after', same, rfl⟩ := second
  rcases List.append_eq_append_iff.mp same with ⟨more, rfl, rfl⟩ | ⟨more, rfl, rfl⟩
  · refine ⟨before, more, after', (List.append_assoc _ _ _).symm, ?_, rfl, rfl⟩
    rintro rfl
    rw [List.append_nil] at less
    exact Nat.lt_irrefl _ less
  · rw [byteLengthAppend] at less
    omega

/-- The place of a boundary is one line more than there are newlines in front of it, and one column more than
there are characters behind the last of these. Places rise with the boundaries, and do not move past the end. -/
theorem lookupCounts (text : List Char) (short : byteLength text < Span.maxOffset) :
    (∀ before after, text = before ++ after → (ofText text).position (byteLength before) =
      ⟨1 + before.count '\n', 1 + (before.reverse.takeWhile (· != '\n')).length⟩) ∧
    (∀ a b, IsBoundary text a → IsBoundary text b → a < b →
      (ofText text).position a < (ofText text).position b) ∧
    ∀ offset, byteLength text ≤ offset →
      (ofText text).position offset = (ofText text).position (byteLength text) := by
  have place (before after : List Char) (cut : text = before ++ after) :
      (ofText text).position (byteLength before) = Position.behind before := by
    have size := byteLengthAppend before after
    rw [← cut] at size
    rw [cut]
    exact positionBehind before after (by omega)
  refine ⟨fun before after cut => ?_, ?_, ?_⟩
  · rw [place before after cut, Position.behind, lastLine, List.length_reverse, Nat.add_comm 1, Nat.add_comm 1]
  · intro a b first second less
    obtain ⟨before, more, after, cut, some, rfl, rfl⟩ := boundaryLater first second less
    rw [place before (more ++ after) (by rw [cut, List.append_assoc]), place (before ++ more) after cut]
    exact Position.behindLater before more some
  · intro offset past
    rw [positionPast past short, positionPast (Nat.le_refl _) short]

theorem lookupCountsWide :
    let text := "a ⇒ b\nλ".toList
    byteLength text < Span.maxOffset ∧ (ofText text).position 6 = ⟨1, 5⟩ ∧ (ofText text).position 8 = ⟨2, 1⟩ ∧
      (ofText text).position 50 = (ofText text).position 10 := by
  have short : byteLength "a ⇒ b\nλ".toList < Span.maxOffset := by decide
  have facts := lookupCounts "a ⇒ b\nλ".toList short
  exact ⟨short, facts.1 "a ⇒ ".toList _ rfl, facts.1 "a ⇒ b\n".toList _ rfl, facts.2.2 50 (by decide)⟩

end LineTable

end Boogie
