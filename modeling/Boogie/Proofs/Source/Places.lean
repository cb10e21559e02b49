import Boogie.Token.Scan
import Mathlib.Data.List.Induction

/-! Places in a text. The position behind a part of a text is found by halving in a line table. While 32 bits
hold its offset, it tells the number of newlines passed and the number of characters since the last of them. -/
namespace Boogie

theorem byteLengthAppend (a b : List Char) : byteLength (a ++ b) = byteLength a + byteLength b := by
  have from_ (text : List Char) (n : Nat) :
      text.foldl (fun n c => n + c.utf8Size) n = n + byteLength text := by
    induction text generalizing n with
    | nil => rfl
    | cons c rest ih => rw [byteLength, List.foldl_cons, List.foldl_cons, ih, ih (0 + _)]; omega
  rw [byteLength, List.foldl_append, from_, ← byteLength]

theorem byteLengthCons (c : Char) (rest : List Char) :
    byteLength (c :: rest) = c.utf8Size + byteLength rest := by
  have apart := byteLengthAppend [c] rest
  simpa [byteLength] using apart

theorem byteLengthPos {text : List Char} (some : text ≠ []) : 0 < byteLength text := by
  cases text with
  | nil => contradiction
  | cons c rest =>
    have := byteLengthCons c rest
    have := c.utf8Size_pos
    omega

def lastLine (text : List Char) : List Char := (text.reverse.takeWhile (· != '\n')).reverse

theorem lastLineNewline (text : List Char) : lastLine (text ++ ['\n']) = [] := by
  simp [lastLine]

theorem lastLineSnoc {c : Char} (other : c ≠ '\n') (text : List Char) :
    lastLine (text ++ [c]) = lastLine text ++ [c] := by
  simp [lastLine, other]

namespace Position

theorem ltTrans {a b c : Position} (first : a < b) (second : b < c) : a < c := by
  rcases first with first | first <;> rcases second with second | second
  · exact .inl (by omega)
  · exact .inl (by omega)
  · exact .inl (by omega)
  · exact .inr (by omega)

theorem ltIrrefl {a : Position} : ¬ a < a := by
  rintro (less | ⟨_, less⟩) <;> exact Nat.lt_irrefl _ less

def behind (text : List Char) : Position := ⟨text.count '\n' + 1, (lastLine text).length + 1⟩

theorem behindSnoc (text : List Char) (c : Char) : behind text < behind (text ++ [c]) := by
  by_cases newline : c = '\n'
  · subst newline
    exact .inl (by simp [behind])
  · refine .inr ⟨?_, ?_⟩
    · simp [behind, newline]
    · simp [behind, lastLineSnoc newline]

theorem behindLater (text more : List Char) (some : more ≠ []) : behind text < behind (text ++ more) := by
  induction more using List.reverseRecOn with
  | nil => contradiction
  | append_singleton more c ih =>
    rw [← List.append_assoc]
    by_cases first : more = []
    · rw [first, List.append_nil]
      exact behindSnoc text c
    · exact ltTrans (ih first) (behindSnoc (text ++ more) c)

theorem numberSmall {before : Nat} (small : before < maxNumber) : number before = before + 1 := by
  rw [number, if_pos (Nat.le_of_lt small)]
  exact Nat.mod_eq_of_lt (Nat.succ_lt_succ small)

end Position

theorem lengthLeBytes (text : List Char) : text.length ≤ byteLength text := by
  induction text with
  | nil => exact Nat.le_refl 0
  | cons c rest ih =>
    have := byteLengthCons c rest
    have := c.utf8Size_pos
    rw [List.length_cons]
    omega

namespace LineTable

theorem columnHeld (t : LineTable) (offset : Nat) : (t.position offset).column ≤ Position.maxNumber :=
  Nat.lt_succ_iff.mp (Nat.mod_lt _ (Nat.succ_pos _))

def rowsFrom (offset : Nat) : List Char → List Line
  | [] => []
  | c :: rest =>
    if c = '\n' then ⟨min (offset + c.utf8Size) Span.maxOffset, rest⟩ :: rowsFrom (offset + c.utf8Size) rest
    else rowsFrom (offset + c.utf8Size) rest

theorem rowsOfText (text : List Char) : (ofText text).rows.toList = ⟨0, text⟩ :: rowsFrom 0 text := by
  have from_ (rows : Array Line) (offset : Nat) (text : List Char) :
      (addLines rows offset text).toList = rows.toList ++ rowsFrom offset text := by
    induction text generalizing rows offset with
    | nil => simp [addLines, rowsFrom]
    | cons c rest ih =>
      rw [addLines, ih, rowsFrom]
      by_cases newline : c = '\n' <;> simp [newline]
  exact from_ #[⟨0, text⟩] 0 text

theorem rowsFromLater {offset : Nat} {text : List Char} {row : Line} (mem : row ∈ rowsFrom offset text) :
    min (offset + 1) Span.maxOffset ≤ row.start := by
  induction text generalizing offset with
  | nil => simp [rowsFrom] at mem
  | cons c rest ih =>
    have pos := c.utf8Size_pos
    have behind (mem : row ∈ rowsFrom (offset + c.utf8Size) rest) : min (offset + 1) Span.maxOffset ≤ row.start := by
      have := ih mem
      omega
    rw [rowsFrom] at mem
    by_cases newline : c = '\n'
    · rw [if_pos newline] at mem
      rcases List.mem_cons.mp mem with rfl | later
      · dsimp only
        omega
      · exact behind later
    · rw [if_neg newline] at mem
      exact behind mem

theorem rowsBehind (before after : List Char) :
    ∃ front start, ⟨0, before ++ after⟩ :: rowsFrom 0 (before ++ after) =
        front ++ ⟨min start Span.maxOffset, lastLine before ++ after⟩ :: rowsFrom (byteLength before) after ∧
      front.length = before.count '\n' ∧ start + byteLength (lastLine before) = byteLength before ∧
      ∀ row ∈ front, row.start ≤ start := by
  induction before using List.reverseRecOn generalizing after with
  | nil => exact ⟨[], 0, rfl, rfl, rfl, nofun⟩
  | append_singleton before c ih =>
    obtain ⟨front, start, rows, index, offset, early⟩ := ih (c :: after)
    have size : byteLength (before ++ [c]) = byteLength before + c.utf8Size := by
      rw [byteLengthAppend, byteLengthCons]
      rfl
    rw [List.append_assoc, List.singleton_append, rows, rowsFrom, size]
    by_cases newline : c = '\n'
    · subst newline
      rw [if_pos rfl, lastLineNewline]
      refine ⟨front ++ [⟨min start Span.maxOffset, lastLine before ++ '\n' :: after⟩], byteLength before + '\n'.utf8Size,
        by simp, by simp [index], rfl, fun row mem => ?_⟩
      rcases List.mem_append.mp mem with first | last
      · have := early row first
        omega
      · rw [List.mem_singleton.mp last]
        dsimp only
        omega
    · rw [if_neg newline, lastLineSnoc newline]
      refine ⟨front, start, by simp, by simp [index, newline], ?_, early⟩
      rw [byteLengthAppend, byteLengthCons, ← Nat.add_assoc, offset]
      rfl

theorem searchFinds {t : LineTable} {offset low high : Nat} {front back : List Line} {row : Line}
    (rows : t.rows.toList = front ++ row :: back) (early : ∀ r ∈ front, r.start ≤ offset)
    (here : row.start ≤ offset) (late : ∀ r ∈ back, offset < r.start)
    (above : low ≤ front.length) (below : front.length < high) (inside : high ≤ t.rows.size) :
    t.search offset low high = front.length := by
  have at_ (i : Nat) : t.rows[i]? = (front ++ row :: back)[i]? := by rw [← rows, Array.getElem?_toList]
  fun_induction search t offset low high with
  | case1 low high more middle found same starts ih =>
    refine ih ?_ below inside
    rw [at_] at same
    by_cases first : middle ≤ front.length
    · exact first
    · have mem : found ∈ back := by
        rw [List.getElem?_append_right (by omega)] at same
        obtain ⟨k, pos⟩ : ∃ k, middle - front.length = k + 1 := ⟨middle - front.length - 1, by omega⟩
        rw [pos, List.getElem?_cons_succ] at same
        exact List.mem_of_getElem? same
      have := late found mem
      omega
  | case2 low high more middle found same starts ih =>
    refine ih above ?_ (by omega)
    rw [at_] at same
    by_cases last : front.length < middle
    · exact last
    · have mem : found ∈ front ++ [row] := by
        have whole : (front ++ row :: back)[middle]? = (front ++ [row])[middle]? := by
          rw [List.append_cons, List.getElem?_append_left (by simp; omega)]
        exact List.mem_of_getElem? (whole ▸ same)
      rcases List.mem_append.mp mem with first | only
      · exact absurd (early found first) starts
      · exact absurd here (by rwa [List.mem_singleton.mp only] at starts)
  | case3 low high more middle none ih =>
    have size : middle < t.rows.size := by omega
    simp [size] at none
  | case4 low high done => omega

theorem charsBeforePrefix {part line : List Char} (begins : part <+: line) (count : Nat) :
    charsBefore (byteLength part) line count = some (count + part.length) := by
  obtain ⟨rest, rfl⟩ := begins
  induction part generalizing count with
  | nil => cases rest <;> rfl
  | cons c part ih =>
    have size := byteLengthCons c part
    have pos := c.utf8Size_pos
    obtain ⟨n, succ⟩ : ∃ n, byteLength (c :: part) = n + 1 := ⟨byteLength (c :: part) - 1, by omega⟩
    have less : n + 1 - c.utf8Size = byteLength part := by omega
    rw [succ, List.cons_append, charsBefore, if_pos (by omega), less, ih, List.length_cons]
    · congr 1
      omega
    · omega

theorem positionFound {t : LineTable} {offset chars : Nat} {front back : List Line} {row : Line}
    (rows : t.rows.toList = front ++ row :: back) (early : ∀ r ∈ front, r.start ≤ offset)
    (here : row.start ≤ offset) (late : ∀ r ∈ back, offset < r.start) (few : front.length < Position.maxNumber)
    (count : charsBefore (offset - row.start) row.text 0 = some chars) :
    t.position offset = ⟨front.length + 1, Position.number chars⟩ := by
  have size : front.length < t.lineCount := by
    rw [lineCount, ← Array.length_toList, rows]
    simp
  have found : t.rowIndex offset = front.length :=
    searchFinds rows early here late (Nat.zero_le _) size (Nat.le_refl _)
  have line : t.lineAt offset = front.length + 1 := by rw [lineAt, found, Position.numberSmall few]
  have back : (front.length + 1 + Position.maxNumber) % (Position.maxNumber + 1) = front.length := by
    simp only [Position.maxNumber] at few ⊢
    omega
  have at_ : t.row (front.length + 1) = row := by
    rw [LineTable.row, back, ← Array.getElem?_toList, rows]
    simp
  simp only [position, line, at_, count, Option.getD_some]

theorem positionBehind (before after : List Char) (held : byteLength before < Span.maxOffset) :
    (ofText (before ++ after)).position (byteLength before) = Position.behind before := by
  obtain ⟨front, start, rows, index, offset, early⟩ := rowsBehind before after
  rw [← rowsOfText] at rows
  have late : ∀ r ∈ rowsFrom (byteLength before) after, byteLength before < r.start := by
    intro r mem
    have := rowsFromLater mem
    omega
  have few : before.count '\n' < Position.maxNumber :=
    Nat.lt_of_le_of_lt (Nat.le_trans List.count_le_length (lengthLeBytes before)) held
  have short : (lastLine before).length < Position.maxNumber :=
    Nat.lt_of_le_of_lt (Nat.le_trans (lengthLeBytes (lastLine before)) (by omega)) held
  have count := charsBeforePrefix (List.prefix_append (lastLine before) after) 0
  rw [show byteLength (lastLine before) = byteLength before - min start Span.maxOffset by omega] at count
  rw [positionFound rows (fun r mem => Nat.le_trans (early r mem) (by omega)) (by dsimp only; omega) late (index ▸ few) count,
    index, Nat.zero_add, Position.numberSmall short]
  rfl

end LineTable

end Boogie
