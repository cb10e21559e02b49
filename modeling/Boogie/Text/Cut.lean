/-! Cutting a text at characters, which belong to none of the parts. -/
namespace Boogie.Text

def cutFirst (p : Char → Bool) (text : List Char) : Option (List Char × List Char) :=
  match text.dropWhile (!p ·) with
  | [] => none
  | _ :: rest => some (text.takeWhile (!p ·), rest)

def cutLast (p : Char → Bool) (text : List Char) : Option (List Char × List Char) :=
  (cutFirst p text.reverse).map fun (after, before) => (before.reverse, after.reverse)

theorem cutFirstAt {p : Char → Bool} {pre post : List Char} {mark : Char} (plain : pre.all (!p ·) = true)
    (marked : p mark = true) : cutFirst p (pre ++ mark :: post) = some (pre, post) := by
  have drop : (pre ++ mark :: post).dropWhile (!p ·) = mark :: post := by
    rw [List.dropWhile_append_of_pos (by simpa using plain)]
    simp [marked]
  have take : (pre ++ mark :: post).takeWhile (!p ·) = pre := by
    rw [List.takeWhile_append_of_pos (by simpa using plain)]
    simp [marked]
  simp [cutFirst, drop, take]

theorem cutFirstNone {p : Char → Bool} {text : List Char} (plain : text.all (!p ·) = true) :
    cutFirst p text = none := by
  have drop : text.dropWhile (!p ·) = [] := by
    have whole : (text ++ []).dropWhile (!p ·) = [].dropWhile (!p ·) :=
      List.dropWhile_append_of_pos (by simpa using plain)
    rwa [List.append_nil] at whole
  simp [cutFirst, drop]

theorem cutLastAt {p : Char → Bool} {pre post : List Char} {mark : Char} (plain : post.all (!p ·) = true)
    (marked : p mark = true) : cutLast p (pre ++ mark :: post) = some (pre, post) := by
  have back : (pre ++ mark :: post).reverse = post.reverse ++ mark :: pre.reverse := by simp
  rw [cutLast, back, cutFirstAt (by simpa using plain) marked]
  simp

def consPart (c : Char) : List (List Char) → List (List Char)
  | [] => [[c]]
  | part :: rest => (c :: part) :: rest

def split (mark : Char) (text : List Char) : List (List Char) :=
  text.foldr (fun c parts => if c = mark then [] :: parts else consPart c parts) [[]]

@[simp] theorem splitNil (mark : Char) : split mark [] = [[]] := rfl

theorem splitMark (mark : Char) (text : List Char) : split mark (mark :: text) = [] :: split mark text := by
  simp [split]

theorem splitCons {mark c : Char} (h : c ≠ mark) (text : List Char) :
    split mark (c :: text) = consPart c (split mark text) := by
  simp [split, h]

theorem splitNe (mark : Char) (text : List Char) : split mark text ≠ [] := by
  cases text with
  | nil => simp
  | cons c rest =>
    by_cases h : c = mark
    · subst h; simp [splitMark]
    · rw [splitCons h]; cases split mark rest <;> simp [consPart]

theorem splitLength (mark : Char) (text : List Char) :
    (split mark text).length = text.count mark + 1 := by
  induction text with
  | nil => rfl
  | cons c rest ih =>
    by_cases h : c = mark
    · subst h; simp [splitMark, ih]
    · rw [splitCons h, List.count_cons_of_ne h, ← ih]
      cases hs : split mark rest with
      | nil => exact absurd hs (splitNe mark rest)
      | cons part more => simp [consPart]

def join (mark : Char) (parts : List (List Char)) : List Char := List.intercalate [mark] parts

end Boogie.Text
