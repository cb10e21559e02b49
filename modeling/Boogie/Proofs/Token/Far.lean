import Boogie.Proofs.Selection
import Boogie.Proofs.Token.Lossless
import Boogie.Proofs.Token.Relaid

/-! Text so far back that no span can tell where it begins. All its tokens are given one place. -/
namespace Boogie.Token

def farFront : List Char := '\n' :: List.replicate Span.maxOffset ' '

theorem farFrontBlank : ∀ c ∈ farFront, isSpace c = true := by
  intro c mem
  rw [farFront] at mem
  rcases List.mem_cons.mp mem with rfl | space
  · rfl
  · rw [List.eq_of_mem_replicate space]
    rfl

theorem farFrontSize : byteLength farFront = Span.maxOffset + 1 := by
  have spaces (n : Nat) : byteLength (List.replicate n ' ') = n := by
    induction n with
    | zero => rfl
    | succ n ih => rw [List.replicate_succ, byteLengthCons, ih, Nat.add_comm]; rfl
  rw [farFront, byteLengthCons, spaces, Nat.add_comm]
  rfl

theorem wordsFar (rest : List Char) : words (farFront ++ rest) = words rest :=
  wordsBehind (isLayoutOfSpaces farFrontBlank) rest

theorem scanFromBlank {front : List Char} (blank : ∀ c ∈ front, isSpace c = true) (lines : LineTable) (offset : Nat)
    (found : Found) (rest : List Char) :
    scanFrom lines offset found (front ++ rest) = scanFrom lines (offset + byteLength front) found rest := by
  induction front generalizing offset with
  | nil => rfl
  | cons c front ih =>
    obtain ⟨space, others⟩ := List.forall_mem_cons.mp blank
    have layout : lexeme c (front ++ rest) = ⟨.layout, 1⟩ := by
      unfold lexeme
      rw [if_pos space]
    have one : byteLength [c] = c.utf8Size := byteLengthCons c []
    rw [List.cons_append, scanFrom, layout]
    simp only [Nat.sub_self, List.take_zero, List.drop_zero, one]
    rw [ih others, byteLengthCons, Nat.add_assoc]

structure IsFar (lines : LineTable) (t : Token) : Prop where
  span : t.span = ⟨Span.maxOffset, Span.maxOffset⟩
  position : t.position = lines.position Span.maxOffset

theorem scanFromFar {lines : LineTable} {offset : Nat} (far : Span.maxOffset ≤ offset) (found : Found)
    (text : List Char) (before : ∀ t ∈ found.tokens, IsFar lines t) :
    ∀ t ∈ (scanFrom lines offset found text).tokens, IsFar lines t := by
  fun_induction scanFrom lines offset found text with
  | case1 offset found => exact before
  | case2 offset found c rest lex more piece next layout ih => exact ih (by omega) before
  | case3 offset found c rest lex more piece next kind token span ih =>
    refine ih (by omega) (List.forall_mem_cons.mpr ⟨?_, before⟩)
    have clamped : span = ⟨Span.maxOffset, Span.maxOffset⟩ := by
      simp only [span, Span.ofRange, Span.mk.injEq]
      omega
    exact ⟨clamped, by rw [clamped]⟩

theorem scanFar (rest : List Char) :
    ∀ t ∈ (scan (farFront ++ rest)).toList, IsFar (.ofText (farFront ++ rest)) t := by
  have size := byteLengthAppend farFront rest
  have front := farFrontSize
  intro t mem
  rcases List.mem_append.mp mem with inBody | last
  · have found : t ∈ (scanFrom (.ofText (farFront ++ rest)) 0 ⟨[], []⟩ (farFront ++ rest)).tokens :=
      List.mem_reverse.mp inBody
    rw [scanFromBlank farFrontBlank] at found
    exact scanFromFar (by omega) ⟨[], []⟩ rest nofun t found
  · have clamped : Span.ofRange (byteLength (farFront ++ rest)) (byteLength (farFront ++ rest)) =
        ⟨Span.maxOffset, Span.maxOffset⟩ := by
      simp only [Span.ofRange, Span.mk.injEq]
      omega
    rw [List.mem_singleton.mp last, scan, scanAll, clamped]
    exact ⟨rfl, rfl⟩

theorem selectFar (defines : List String) {rest : List Char} (plain : '\n' ∉ rest)
    (none : Conditional.directive rest = none) :
    Conditional.select defines (farFront ++ rest) = ⟨farFront ++ rest, []⟩ := by
  refine Conditional.selectPlain defines fun line mem => ?_
  have lines : splitLines (farFront ++ rest) = [[], List.replicate Span.maxOffset ' ' ++ rest] := by
    rw [farFront, List.cons_append, splitLines, Text.splitMark, Text.splitPlain]
    simp [plain]
  rw [lines] at mem
  rcases List.mem_cons.mp mem with rfl | second
  · rfl
  · have trimmed : Text.trimStart (List.replicate Span.maxOffset ' ' ++ rest) = Text.trimStart rest := by
      refine List.dropWhile_append_of_pos fun c mem => ?_
      rw [List.eq_of_mem_replicate mem]
      rfl
    rw [List.mem_singleton.mp second, Conditional.directive, trimmed]
    exact none

end Boogie.Token
