import Boogie.Proofs.Token.Layout

/-! What a token is does not depend on what stands behind white space. Each reader of the scanner that stops
within a piece of text stops at the same place when white space, or nothing, follows that piece. -/
namespace Boogie.Token

abbrev isSetOff (text : List Char) : Prop := startsWith isSpace text

structure Local (f : List Char → Option Nat) : Prop where
  found {piece rest rest' : List Char} (off : isSetOff rest') {n : Nat} (read : f (piece ++ rest) = some n)
    (within : n ≤ piece.length) : f (piece ++ rest') = some n
  missing {piece rest rest' : List Char} (off : isSetOff rest') (unread : f (piece ++ rest) = none) :
    f (piece ++ rest') = none

section Readers

variable {piece rest rest' : List Char}

def isSolid (text : List Char) : Bool := text.all fun c => !isSpace c

theorem solidMem {text : List Char} (solid : isSolid text = true) : ∀ c ∈ text, isSpace c = false := by
  simpa [isSolid] using solid

theorem prefixBehind {pre : List Char} (solid : ∀ c ∈ pre, isSpace c = false) (off : isSetOff rest')
    (h : pre <+: piece ++ rest') : pre <+: piece := by
  refine prefixOfAppend h (startsWithMono (fun c space => ?_) off)
  have other : ¬ piece ++ [c] <+: pre := by
    intro goes
    have solid := solid c (goes.subset (by simp))
    rw [space] at solid
    contradiction
  rw [Bool.not_eq_true', ← Bool.not_eq_true, List.isPrefixOf_iff_prefix]
  exact other

theorem runWithin {p : Char → Bool} (solid : ∀ c, isSpace c = true → p c = false) (off : isSetOff rest')
    (within : run p (piece ++ rest) ≤ piece.length) :
    run p (piece ++ rest') = run p (piece ++ rest) := by
  induction piece with
  | nil =>
    have none : run p rest' = 0 := by
      cases rest' with
      | nil => rfl
      | cons c more => simp [run, solid c off]
    simp only [List.nil_append, List.length_nil] at within ⊢
    omega
  | cons c piece ih =>
    cases h : p c with
    | false => simp [run, h]
    | true =>
      simp only [run, List.cons_append, List.takeWhile_cons, h, ↓reduceIte, List.length_cons] at within ⊢
      have same := ih (by simp only [run]; omega)
      simp only [run] at same
      omega

theorem runNone {p : Char → Bool} (solid : ∀ c, isSpace c = true → p c = false) (off : isSetOff rest')
    (none : run p (piece ++ rest) = 0) : run p (piece ++ rest') = 0 := by
  have within : run p (piece ++ rest) ≤ piece.length := by omega
  rw [runWithin solid off within, none]

theorem takeWithin {n : Nat} (within : n ≤ piece.length) :
    (piece ++ rest').take n = (piece ++ rest).take n := by
  rw [List.take_append_of_le_length within, List.take_append_of_le_length within]

theorem dropWithin {n : Nat} (within : n ≤ piece.length) (rest : List Char) :
    (piece ++ rest).drop n = piece.drop n ++ rest := List.drop_append_of_le_length within

theorem digitSolid (c : Char) (space : isSpace c = true) : Text.isDigit c = false := by
  cases digit : Text.isDigit c with
  | false => rfl
  | true => exact absurd space (by simp [isDigitNotSpace digit])

theorem nameStartSolid (c : Char) (space : isSpace c = true) : isNameStart c = false := by
  cases start : isNameStart c with
  | false => rfl
  | true => exact absurd space (by simp [isNameStartNotSpace start])

theorem namePartSolid (c : Char) (space : isSpace c = true) : isNamePart c = false := by
  simp [isNamePart, digitSolid c space, nameStartSolid c space]

theorem hexDigitSolid (c : Char) (space : isSpace c = true) : Text.isHexDigit c = false := by
  simp only [isSpace, Bool.or_eq_true, beq_iff_eq] at space
  rcases space with (((rfl | rfl) | rfl) | rfl) | rfl <;> decide

end Readers

def digitsBehind (mark text : List Char) : Option Nat :=
  if mark.isPrefixOf text then
    let n := run Text.isDigit (text.drop mark.length)
    if n = 0 then none else some (n + mark.length)
  else none

theorem digitsBehindMark (mark rest : List Char) :
    digitsBehind mark (mark ++ rest) =
      if run Text.isDigit rest = 0 then none else some (run Text.isDigit rest + mark.length) := by
  simp [digitsBehind]

theorem digitsBehindNone {mark text : List Char} (h : ¬ mark <+: text) : digitsBehind mark text = none := by
  simp [digitsBehind, List.isPrefixOf_iff_prefix, h]

theorem Local.digitsBehind {mark : List Char} (solid : isSolid mark = true) :
    Local (Token.digitsBehind mark) where
  found := by
    intro piece rest rest' off n read within
    by_cases marked : mark <+: piece
    · obtain ⟨digits, rfl⟩ := marked
      rw [List.append_assoc, digitsBehindMark] at read ⊢
      split at read
      · contradiction
      · rename_i some
        cases read
        have short : run Text.isDigit (digits ++ rest) ≤ digits.length := by
          simp only [List.length_append] at within
          omega
        rw [runWithin digitSolid off short, if_neg some]
    · by_cases further : mark <+: piece ++ rest
      · refine absurd (List.prefix_of_prefix_length_le further (List.prefix_append _ _) ?_) marked
        obtain ⟨more, same⟩ := further
        rw [← same, digitsBehindMark] at read
        split at read
        · contradiction
        · cases read
          omega
      · rw [digitsBehindNone further] at read
        contradiction
  missing := by
    intro piece rest rest' off none
    by_cases marked : mark <+: piece
    · obtain ⟨digits, rfl⟩ := marked
      rw [List.append_assoc, digitsBehindMark] at none ⊢
      split at none
      · rename_i zero
        rw [runNone digitSolid off zero, if_pos rfl]
      · contradiction
    · exact digitsBehindNone (mt (prefixBehind (solidMem solid) off) marked)

theorem widthBehind : widthLength = digitsBehind ['b', 'v'] := by
  funext text
  unfold widthLength
  split
  · rename_i rest
    exact (digitsBehindMark ['b', 'v'] rest).symm
  · rename_i other
    refine (digitsBehindNone ?_).symm
    rintro ⟨rest, rfl⟩
    exact other rest rfl

theorem fractionBehind : fractionLength = digitsBehind ['.'] := by
  funext text
  unfold fractionLength
  split
  · rename_i rest
    exact (digitsBehindMark ['.'] rest).symm
  · rename_i other
    refine (digitsBehindNone ?_).symm
    rintro ⟨rest, rfl⟩
    exact other rest rfl

theorem exponentBehind (text : List Char) :
    exponentLength text = (digitsBehind ['e', '-'] text).or (digitsBehind ['e'] text) := by
  unfold exponentLength
  split
  · rename_i rest
    have minus := digitsBehindMark ['e', '-'] rest
    have plain : digitsBehind ['e'] ('e' :: '-' :: rest) = none := digitsBehindMark ['e'] ('-' :: rest)
    simp only [List.cons_append, List.nil_append] at minus
    rw [minus, plain]
    simp
  · rename_i rest other
    have minus : digitsBehind ['e', '-'] ('e' :: rest) = none := by
      refine digitsBehindNone ?_
      rintro ⟨more, same⟩
      exact other more (List.cons.inj same).2.symm
    rw [minus]
    exact (digitsBehindMark ['e'] rest).symm
  · rename_i minus plain
    have none (mark : List Char) (first : mark.head? = some 'e') : digitsBehind mark text = none := by
      refine digitsBehindNone ?_
      rintro ⟨more, rfl⟩
      cases mark with
      | nil => contradiction
      | cons c mark =>
        cases first
        exact plain _ rfl
    rw [none _ rfl, none _ rfl]
    rfl

theorem Local.or {f g : List Char → Option Nat} (ofF : Local f) (ofG : Local g) :
    Local fun text => (f text).or (g text) where
  found := by
    intro piece rest rest' off n read within
    cases first : f (piece ++ rest) with
    | some m =>
      rw [first] at read
      cases read
      rw [ofF.found off first within]
      rfl
    | none =>
      rw [first, Option.none_or] at read
      rw [ofF.missing off first, Option.none_or, ofG.found off read within]
  missing off none := by
    obtain ⟨first, second⟩ := Option.or_eq_none_iff.mp none
    rw [ofF.missing off first, ofG.missing off second]
    rfl

theorem Local.width : Local widthLength := widthBehind ▸ .digitsBehind (by decide)

theorem Local.fraction : Local fractionLength := fractionBehind ▸ .digitsBehind (by decide)

theorem Local.exponent : Local exponentLength := by
  rw [funext exponentBehind]
  exact .or (.digitsBehind (by decide)) (.digitsBehind (by decide))

section Numbers

variable {piece rest rest' : List Char} (off : isSetOff rest')
include off

theorem exponentWithin (within : (exponentLength (piece ++ rest)).getD 0 ≤ piece.length) :
    exponentLength (piece ++ rest') = exponentLength (piece ++ rest) := by
  cases h : exponentLength (piece ++ rest) with
  | none => exact Local.exponent.missing off h
  | some n => exact Local.exponent.found off h (by simpa [h] using within)

theorem plainNumberWithin (within : (plainNumber (piece ++ rest)).length ≤ piece.length) :
    plainNumber (piece ++ rest') = plainNumber (piece ++ rest) := by
  have digits : run Text.isDigit (piece ++ rest) ≤ piece.length := by
    refine Nat.le_trans ?_ within
    simp only [plainNumber]
    split <;> simp only <;> omega
  have same := runWithin digitSolid off digits
  simp only [plainNumber, same, dropWithin digits] at within ⊢
  have length : (piece.drop (run Text.isDigit (piece ++ rest))).length =
      piece.length - run Text.isDigit (piece ++ rest) := List.length_drop
  generalize run Text.isDigit (piece ++ rest) = count at *
  generalize piece.drop count = tail at *
  cases width : widthLength (tail ++ rest) with
  | some n =>
    simp only [width] at within
    rw [Local.width.found off width (by omega)]
  | none =>
    rw [Local.width.missing off width]
    cases fraction : fractionLength (tail ++ rest) with
    | some n =>
      simp only [width, fraction] at within
      have short : n ≤ tail.length := by omega
      rw [Local.fraction.found off fraction short]
      simp only [dropWithin short] at within ⊢
      have left : (exponentLength (tail.drop n ++ rest)).getD 0 ≤ (tail.drop n).length := by
        rw [List.length_drop]
        omega
      rw [exponentWithin off left]
    | none =>
      rw [Local.fraction.missing off fraction]
      cases exponent : exponentLength (tail ++ rest) with
      | some n =>
        simp only [width, fraction, exponent] at within
        rw [Local.exponent.found off exponent (by omega)]
      | none => rw [Local.exponent.missing off exponent]

end Numbers

theorem hexTailLe (last : Char) (count : Nat) (text : List Char) : count ≤ hexTailLength last count text := by
  induction text generalizing last count with
  | nil => exact Nat.le_refl _
  | cons c text ih =>
    rw [hexTailLength]
    split
    · exact Nat.le_of_succ_le (ih c (count + 1))
    · exact Nat.le_refl _

theorem hexTailWithin {piece rest rest' : List Char} (off : isSetOff rest') {last : Char} {count : Nat}
    (within : hexTailLength last count (piece ++ rest) ≤ count + piece.length) :
    hexTailLength last count (piece ++ rest') = hexTailLength last count (piece ++ rest) := by
  induction piece generalizing last count with
  | nil =>
    have none : hexTailLength last count rest' = count := by
      cases rest' with
      | nil => rfl
      | cons c more =>
        have part := namePartSolid c off
        simp only [isNamePart, isNameStart, Bool.or_eq_false_iff] at part
        have minus : (c == '-') = false := by
          refine Bool.eq_false_iff.mpr fun same => ?_
          rw [beq_iff_eq.mp same] at off
          contradiction
        simp [hexTailLength, part, minus]
    have := hexTailLe last count rest
    simp only [List.nil_append, List.length_nil] at within ⊢
    omega
  | cons c piece ih =>
    simp only [List.cons_append, hexTailLength, List.length_cons] at within ⊢
    split
    · rename_i part
      rw [if_pos part] at within
      exact ih (by omega)
    · rfl

structure LocalFloat (marked : Nat) (f : List Char → Option Lexeme) : Prop where
  long {text : List Char} {l : Lexeme} (read : f text = some l) : marked ≤ l.length
  found {piece rest rest' : List Char} (off : isSetOff rest') {l : Lexeme} (read : f (piece ++ rest) = some l)
    (sound : l.role ≠ .token .invalid) (within : l.length ≤ piece.length + marked) :
    f (piece ++ rest') = some l
  missing {piece rest rest' : List Char} (off : isSetOff rest') (unread : f (piece ++ rest) = none) :
    f (piece ++ rest') = none

theorem localHexFloat : LocalFloat 2 hexFloat where
  long := by
    intro text l read
    simp only [hexFloat] at read
    split at read
    · contradiction
    · split at read <;> cases read <;> simp only <;> omega
  found := by
    intro piece rest rest' off l read sound within
    simp only [hexFloat] at read
    split at read
    · contradiction
    · rename_i some
      split at read
      · rename_i tail behind
        cases read
        have digits : run Text.isHexDigit (piece ++ rest) ≤ piece.length := by simp only at within; omega
        rw [dropWithin digits] at behind
        have length : (piece.drop (run Text.isHexDigit (piece ++ rest))).length =
            piece.length - run Text.isHexDigit (piece ++ rest) := List.length_drop
        cases left : piece.drop (run Text.isHexDigit (piece ++ rest)) with
        | nil =>
          simp only [left, List.length_nil] at length within
          omega
        | cons point fraction =>
          obtain ⟨rfl, rfl⟩ : point = '.' ∧ fraction ++ rest = tail := by simpa [left] using behind
          simp only [left, List.length_cons] at length within
          simp only [hexFloat, runWithin hexDigitSolid off digits, if_neg some, dropWithin digits, left,
            List.cons_append]
          have short : hexTailLength '.' 0 (fraction ++ rest) ≤ 0 + fraction.length := by omega
          rw [hexTailWithin off short]
      · cases read
        exact absurd rfl sound
  missing := by
    intro piece rest rest' off unread
    simp only [hexFloat] at unread
    split at unread
    · rename_i none
      simp only [hexFloat, runNone hexDigitSolid off none, if_pos]
    · split at unread <;> contradiction

theorem localSpecialFloat : LocalFloat 4 specialFloat where
  long := by
    intro text l read
    simp only [specialFloat] at read
    split at read
    · contradiction
    · split at read
      · split at read <;> cases read <;> simp only <;> omega
      · cases read
        simp only
        omega
  found := by
    intro piece rest rest' off l read sound within
    simp only [specialFloat] at read
    split at read
    · contradiction
    · rename_i some
      split at read
      · rename_i tail behind
        split at read
        · cases read
          exact absurd rfl sound
        · rename_i more
          cases read
          have digits : run Text.isDigit (piece ++ rest) ≤ piece.length := by simp only at within; omega
          rw [dropWithin digits] at behind
          have length : (piece.drop (run Text.isDigit (piece ++ rest))).length =
              piece.length - run Text.isDigit (piece ++ rest) := List.length_drop
          cases left : piece.drop (run Text.isDigit (piece ++ rest)) with
          | nil =>
            simp only [left, List.length_nil] at length within
            omega
          | cons mark exponent =>
            obtain ⟨rfl, rfl⟩ : mark = 'e' ∧ exponent ++ rest = tail := by simpa [left] using behind
            simp only [left, List.length_cons] at length within
            simp only [specialFloat, runWithin digitSolid off digits, if_neg some, dropWithin digits, left,
              List.cons_append]
            have short : run Text.isDigit (exponent ++ rest) ≤ exponent.length := by omega
            rw [runWithin digitSolid off short, if_neg more]
      · cases read
        exact absurd rfl sound
  missing := by
    intro piece rest rest' off unread
    simp only [specialFloat] at unread
    split at unread
    · rename_i none
      simp only [specialFloat, runNone digitSolid off none, if_pos]
    · split at unread
      · split at unread <;> contradiction
      · contradiction

def floatMarks : List (List Char × (List Char → Option Lexeme)) :=
  [(['0', 'x'], hexFloat), (['0', 'N', 'a', 'N'], specialFloat), (['0', 'n', 'a', 'n'], specialFloat),
    (['0', '+', 'o', 'o'], specialFloat), (['0', '-', 'o', 'o'], specialFloat)]

theorem localFloatMarks : ∀ m ∈ floatMarks, LocalFloat m.1.length m.2 := by
  simp only [floatMarks, List.forall_mem_cons, List.not_mem_nil]
  exact ⟨localHexFloat, localSpecialFloat, localSpecialFloat, localSpecialFloat, localSpecialFloat, nofun⟩

theorem solidFloatMarks : ∀ m ∈ floatMarks, ∀ c ∈ m.1, isSpace c = false := by
  simp [floatMarks, isSpace]

theorem floatNumberMarked (rest : List Char) : ∀ m ∈ floatMarks, floatNumber (m.1 ++ rest) = m.2 rest := by
  simp only [floatMarks, List.forall_mem_cons, List.not_mem_nil]
  exact ⟨rfl, rfl, rfl, rfl, rfl, nofun⟩

theorem floatNumberUnmarked {text : List Char} (h : ∀ m ∈ floatMarks, ¬ m.1 <+: text) :
    floatNumber text = none := by
  simp only [floatMarks, List.forall_mem_cons, List.not_mem_nil] at h
  obtain ⟨hex, NaN, nan, plus, minus, _⟩ := h
  unfold floatNumber
  split
  · exact absurd ⟨_, rfl⟩ hex
  · exact absurd ⟨_, rfl⟩ NaN
  · exact absurd ⟨_, rfl⟩ nan
  · exact absurd ⟨_, rfl⟩ plus
  · exact absurd ⟨_, rfl⟩ minus
  · rfl

theorem localFloatNumber : LocalFloat 0 floatNumber where
  long _ := Nat.zero_le _
  found := by
    intro piece rest rest' off l read sound within
    by_cases marked : ∃ m ∈ floatMarks, m.1 <+: piece ++ rest
    · obtain ⟨m, mem, more, same⟩ := marked
      have ends := localFloatMarks m mem
      have long : m.1.length ≤ l.length := by
        rw [← same, floatNumberMarked _ m mem] at read
        exact ends.long read
      obtain ⟨tail, rfl⟩ : m.1 <+: piece :=
        List.prefix_of_prefix_length_le ⟨more, same⟩ (List.prefix_append _ _) (by omega)
      rw [List.append_assoc, floatNumberMarked _ m mem] at read ⊢
      exact ends.found off read sound (by simp only [List.length_append] at within; omega)
    · rw [floatNumberUnmarked fun m mem pre => marked ⟨m, mem, pre⟩] at read
      contradiction
  missing := by
    intro piece rest rest' off unread
    by_cases marked : ∃ m ∈ floatMarks, m.1 <+: piece
    · obtain ⟨m, mem, tail, rfl⟩ := marked
      rw [List.append_assoc, floatNumberMarked _ m mem] at unread ⊢
      exact (localFloatMarks m mem).missing off unread
    · exact floatNumberUnmarked fun m mem pre =>
        marked ⟨m, mem, prefixBehind (solidFloatMarks m mem) off pre⟩

theorem numberWithin {piece rest rest' : List Char} (off : isSetOff rest')
    (sound : (number (piece ++ rest)).role ≠ .token .invalid)
    (within : (number (piece ++ rest)).length ≤ piece.length) :
    number (piece ++ rest') = number (piece ++ rest) := by
  simp only [number] at sound within ⊢
  cases float : floatNumber (piece ++ rest) with
  | some l =>
    simp only [float, Option.getD_some] at sound within
    rw [localFloatNumber.found off float sound within, Option.getD_some, Option.getD_some]
  | none =>
    simp only [float, Option.getD_none] at within
    rw [localFloatNumber.missing off float]
    exact plainNumberWithin off within

theorem stringQuote (count : Nat) (rest : List Char) : stringLength count ('"' :: rest) = (count + 1, true) := by
  rw [stringLength]

theorem stringKept (count : Nat) {c : Char} (plain : c ≠ '\n') (rest : List Char) :
    stringLength count ('\\' :: c :: rest) = stringLength (count + 2) rest := by
  rw [stringLength, if_neg plain]

theorem stringOther (count : Nat) {c : Char} (quote : c ≠ '"') (backslash : c ≠ '\\') (plain : c ≠ '\n')
    (rest : List Char) : stringLength count (c :: rest) = stringLength (count + 1) rest := by
  rw [stringLength, if_neg plain]
  · exact fun same => quote same
  · exact fun _ _ same => absurd same backslash
  · exact fun same => absurd same backslash

theorem closedLt {count : Nat} {text : List Char} (closed : (stringLength count text).2 = true) :
    count < (stringLength count text).1 := by
  fun_induction stringLength count text with
  | case1 => exact Nat.lt_succ_self _
  | case3 count c rest plain ih => exact Nat.lt_of_succ_lt (Nat.lt_of_succ_lt (ih closed))
  | case6 count c rest _ _ _ plain ih => exact Nat.lt_of_succ_lt (ih closed)
  | case2 => contradiction
  | case4 => contradiction
  | case5 => contradiction
  | case7 => contradiction

theorem stringWithin {piece rest : List Char} (rest' : List Char) {count : Nat}
    (closed : (stringLength count (piece ++ rest)).2 = true)
    (within : (stringLength count (piece ++ rest)).1 ≤ count + piece.length) :
    stringLength count (piece ++ rest') = stringLength count (piece ++ rest) := by
  generalize same : piece ++ rest = text at closed within
  fun_induction stringLength count text generalizing piece with
  | case1 count behind =>
    cases piece with
    | nil => exact absurd within (by simp)
    | cons c piece =>
      obtain ⟨rfl, _⟩ := List.cons.inj same
      exact stringQuote count (piece ++ rest')
  | case2 => contradiction
  | case3 count c behind plain ih =>
    have longer := closedLt closed
    rcases piece with _ | ⟨d, _ | ⟨e, piece⟩⟩
    · simp only [List.length_nil] at within
      omega
    · simp only [List.length_cons, List.length_nil] at within
      omega
    · simp only [List.cons_append, List.cons.injEq] at same
      obtain ⟨rfl, rfl, same⟩ := same
      simp only [List.length_cons] at within
      rw [List.cons_append, List.cons_append, stringKept count plain]
      exact ih same closed (by omega)
  | case4 => contradiction
  | case5 => contradiction
  | case6 count c behind quote kept last plain ih =>
    have longer := closedLt closed
    have backslash : c ≠ '\\' := by
      rintro rfl
      cases behind with
      | nil => exact last rfl rfl
      | cons d more => exact kept d more rfl rfl
    cases piece with
    | nil =>
      simp only [List.length_nil] at within
      omega
    | cons d piece =>
      simp only [List.cons_append, List.cons.injEq] at same
      obtain ⟨rfl, same⟩ := same
      simp only [List.length_cons] at within
      rw [List.cons_append, stringOther count quote backslash plain]
      exact ih same closed (by omega)
  | case7 => contradiction

theorem solidSymbols : ∀ p ∈ symbolTable, ∀ c ∈ p.1, isSpace c = false := by
  have solid : (symbolTable.all fun p => isSolid p.1) = true := by decide
  exact fun p mem => solidMem (List.all_eq_true.mp solid p mem)

theorem symbolWithin {piece rest rest' : List Char} (off : isSetOff rest')
    (sound : (symbol (piece ++ rest)).role ≠ .token .invalid)
    (within : (symbol (piece ++ rest)).length ≤ piece.length) :
    symbol (piece ++ rest') = symbol (piece ++ rest) := by
  have shorter : ∀ table : List (List Char × Kind), (∀ p ∈ table, ∀ c ∈ p.1, isSpace c = false) →
      ∀ p, (table.find? fun p => p.1.isPrefixOf (piece ++ rest)) = some p → p.1.length ≤ piece.length →
      (table.find? fun p => p.1.isPrefixOf (piece ++ rest')) = some p := by
    intro table solid p found within
    induction table with
    | nil => contradiction
    | cons q table ih =>
      rw [List.find?_cons] at found ⊢
      by_cases here : q.1 <+: piece ++ rest'
      · have inner := prefixBehind (solid q (by simp)) off here
        rw [List.isPrefixOf_iff_prefix.mpr (prefixAppend inner rest)] at found
        rw [List.isPrefixOf_iff_prefix.mpr here]
        exact found
      · have other : ¬ q.1 <+: piece := fun inner => here (prefixAppend inner rest')
        rw [Bool.eq_false_iff.mpr (mt List.isPrefixOf_iff_prefix.mp here)]
        split at found
        · rename_i further
          cases found
          exact absurd (List.prefix_of_prefix_length_le (List.isPrefixOf_iff_prefix.mp further)
            (List.prefix_append _ _) within) other
        · exact ih (fun p mem => solid p (by simp [mem])) found
  simp only [symbol] at sound within ⊢
  split at sound
  · rename_i spelling kind found
    rw [found] at within
    rw [shorter symbolTable solidSymbols _ found within]
  · exact absurd rfl sound

theorem lexemeWithin {c : Char} {piece rest rest' : List Char} {kind : Kind} (off : isSetOff rest')
    (role : (lexeme c (piece ++ rest)).role = .token kind) (sound : kind ≠ .invalid)
    (within : (lexeme c (piece ++ rest)).length ≤ piece.length + 1) :
    lexeme c (piece ++ rest') = lexeme c (piece ++ rest) := by
  have real : (lexeme c (piece ++ rest)).role ≠ .token .invalid := by
    rw [role]
    exact fun same => sound (by simpa using same)
  have symbols (here : lexeme c (piece ++ rest) = symbol (c :: piece ++ rest))
      (there : lexeme c (piece ++ rest') = symbol (c :: piece ++ rest')) :
      lexeme c (piece ++ rest') = lexeme c (piece ++ rest) := by
    rw [here] at real within
    rw [here, there, symbolWithin off real within]
  by_cases space : isSpace c = true
  · unfold lexeme at role
    rw [if_pos space] at role
    contradiction
  by_cases digit : Text.isDigit c = true
  · rw [lexemeNumber digit] at real within
    rw [lexemeNumber digit, lexemeNumber digit]
    exact numberWithin off (show (number (c :: piece ++ rest)).role ≠ _ from real) within
  by_cases name : isNameStart c = true
  · rw [lexemeWord name] at within
    have same := runWithin namePartSolid off (Nat.le_of_succ_le_succ within)
    rw [lexemeWord name, lexemeWord name, ← takeRun, ← takeRun, same,
      takeWithin (Nat.le_of_succ_le_succ within)]
  by_cases quote : c = '"'
  · subst quote
    have closed : (stringLength 1 (piece ++ rest)).2 = true := by
      refine Decidable.byContradiction fun open_ => real ?_
      show Role.token (if _ then _ else _) = _
      rw [if_neg open_]
    show Lexeme.mk (.token (if _ then _ else _)) _ = Lexeme.mk (.token (if _ then _ else _)) _
    rw [stringWithin rest' closed (by rw [Nat.add_comm]; exact within)]
  by_cases backslash : c = '\\'
  · subst backslash
    cases piece with
    | nil =>
      -- one character is too short for a name behind a backslash
      cases rest with
      | nil => exact absurd (by decide) real
      | cons d more =>
        have lexeme : lexeme '\\' (d :: more) =
            if isNameStart d then ⟨.token .identifier, run isNamePart more + 2⟩ else ⟨.token .invalid, 1⟩ := rfl
        rw [List.nil_append, lexeme] at real within
        split at within
        · simp at within
        · rename_i other
          rw [if_neg other] at real
          contradiction
    | cons d piece =>
      by_cases start : isNameStart d = true
      · rw [List.cons_append, lexemeEscaped start] at within
        have short : run isNamePart (piece ++ rest) ≤ piece.length := by
          simp only [List.length_cons] at within
          omega
        rw [List.cons_append, List.cons_append, lexemeEscaped start, lexemeEscaped start,
          runWithin namePartSolid off short]
      · refine absurd ?_ real
        show (if isNameStart d = true then _ else _ : Lexeme).role = _
        rw [if_neg start]
  by_cases slash : c = '/'
  · subst slash
    have plain {text : List Char} (h : startsWith (fun d => !(d == '/' || d == '*')) text) :
        lexeme '/' text = symbol ('/' :: text) := lexemeMark (k := .slash) (by decide) fun _ => h
    have comment : startsWith (fun d => !(d == '/' || d == '*')) (piece ++ rest) := by
      cases behind : piece ++ rest with
      | nil => trivial
      | cons d more =>
        rw [behind] at role
        by_cases line : d = '/'
        · subst line
          contradiction
        by_cases block : d = '*'
        · subst block
          rw [lexemeComment, blockComment] at role
          split at role
          · contradiction
          · cases role
            contradiction
        simp [startsWith, line, block]
    refine symbols (plain comment) (plain ?_)
    cases piece with
    | nil =>
      refine startsWithMono (fun d space => ?_) off
      simp only [Bool.not_eq_true', Bool.or_eq_false_iff, beq_eq_false_iff_ne]
      constructor <;> rintro rfl <;> contradiction
    | cons d piece => exact comment
  · have mark : Kind.isMark .plus c = true := by simp [Kind.isMark, space, digit, name, quote, backslash, slash]
    have noSlash {text : List Char} : Kind.plus = .slash → startsWith (fun d => !(d == '/' || d == '*')) text :=
      fun same => absurd same (by decide)
    exact symbols (lexemeMark mark noSlash) (lexemeMark mark noSlash)

theorem runLe (p : Char → Bool) (text : List Char) : run p text ≤ text.length :=
  (List.takeWhile_sublist p).length_le

theorem digitsBehindLe {mark text : List Char} {n : Nat} (h : digitsBehind mark text = some n) :
    n ≤ text.length := by
  simp only [digitsBehind] at h
  split at h
  · rename_i marked
    have long := (List.isPrefixOf_iff_prefix.mp marked).length_le
    have short := runLe Text.isDigit (text.drop mark.length)
    rw [List.length_drop] at short
    split at h
    · contradiction
    · cases h
      omega
  · contradiction

theorem exponentLe {text : List Char} {n : Nat} (h : exponentLength text = some n) : n ≤ text.length := by
  rw [exponentBehind, Option.or_eq_some_iff] at h
  rcases h with signed | ⟨_, plain⟩
  · exact digitsBehindLe signed
  · exact digitsBehindLe plain

theorem plainNumberLe (text : List Char) : (plainNumber text).length ≤ text.length := by
  have digits := runLe Text.isDigit text
  have length : (text.drop (run Text.isDigit text)).length = text.length - run Text.isDigit text :=
    List.length_drop
  simp only [plainNumber]
  generalize text.drop (run Text.isDigit text) = rest at *
  cases width : widthLength rest with
  | some n =>
    have width := digitsBehindLe (widthBehind ▸ width)
    simp only
    omega
  | none =>
    cases fraction : fractionLength rest with
    | some n =>
      have fraction := digitsBehindLe (fractionBehind ▸ fraction)
      have exponent : (exponentLength (rest.drop n)).getD 0 ≤ rest.length - n := by
        rw [← List.length_drop]
        cases exponent : exponentLength (rest.drop n) with
        | none => exact Nat.zero_le _
        | some m => exact exponentLe exponent
      simp only
      omega
    | none =>
      cases exponent : exponentLength rest with
      | some n =>
        have exponent := exponentLe exponent
        simp only
        omega
      | none => exact digits

theorem hexTailLeLength (last : Char) (count : Nat) (text : List Char) :
    hexTailLength last count text ≤ count + text.length := by
  induction text generalizing last count with
  | nil => exact Nat.le_refl _
  | cons c text ih =>
    rw [hexTailLength]
    split
    · have := ih c (count + 1)
      simp only [List.length_cons]
      omega
    · exact Nat.le_add_right _ _

theorem hexFloatLe {text : List Char} {l : Lexeme} (h : hexFloat text = some l) : l.length ≤ text.length + 2 := by
  have digits := runLe Text.isHexDigit text
  simp only [hexFloat] at h
  split at h
  · contradiction
  · split at h
    · rename_i rest behind
      have length := congrArg List.length behind
      have tail := hexTailLeLength '.' 0 rest
      rw [List.length_drop, List.length_cons] at length
      cases h
      simp only
      omega
    · cases h
      simp only
      omega

theorem specialFloatLe {text : List Char} {l : Lexeme} (h : specialFloat text = some l) :
    l.length ≤ text.length + 4 := by
  have digits := runLe Text.isDigit text
  simp only [specialFloat] at h
  split at h
  · contradiction
  · split at h
    · rename_i rest behind
      have length := congrArg List.length behind
      have more := runLe Text.isDigit rest
      rw [List.length_drop, List.length_cons] at length
      split at h
      · cases h
        simp only
        omega
      · cases h
        simp only
        omega
    · cases h
      simp only
      omega

theorem floatNumberLe {text : List Char} {l : Lexeme} (h : floatNumber text = some l) :
    l.length ≤ text.length := by
  unfold floatNumber at h
  split at h
  · exact hexFloatLe h
  · exact specialFloatLe h
  · exact specialFloatLe h
  · exact specialFloatLe h
  · exact specialFloatLe h
  · contradiction

theorem stringLe (count : Nat) (text : List Char) : (stringLength count text).1 ≤ count + text.length := by
  fun_induction stringLength count text with
  | case1 count rest => simp only [List.length_cons]; omega
  | case2 count rest => exact Nat.le_add_right _ _
  | case3 count c rest plain ih => simp only [List.length_cons]; omega
  | case4 count => exact Nat.le_add_right _ _
  | case5 count rest => exact Nat.le_add_right _ _
  | case6 count c rest _ _ _ plain ih => simp only [List.length_cons]; omega
  | case7 count => exact Nat.le_add_right _ _

theorem lexemeLe (c : Char) (rest : List Char) : (lexeme c rest).length ≤ rest.length + 1 := by
  unfold lexeme
  split
  · exact Nat.succ_le_succ (Nat.zero_le _)
  split
  · rw [number]
    cases float : floatNumber (c :: rest) with
    | some l => exact floatNumberLe float
    | none => exact plainNumberLe (c :: rest)
  split
  · exact Nat.succ_le_succ (runLe _ _)
  split
  · exact Nat.succ_le_succ (Nat.succ_le_succ (runLe _ _))
  · rename_i more
    split
    · rename_i n length
      obtain ⟨body, behind, rfl, _, rfl⟩ := closesOfLength length
      simp only [List.length_cons, List.length_append]
      omega
    · exact Nat.le_refl _
  · rw [Nat.add_comm]
    exact stringLe 1 rest
  · split
    · exact Nat.succ_le_succ (Nat.succ_le_succ (runLe _ _))
    · exact Nat.succ_le_succ (Nat.zero_le _)
  · rcases symbolRole (c :: rest) with ⟨spelling, kind, _, front, same⟩ | same
    · rw [same]
      exact front.length_le
    · rw [same]
      exact Nat.succ_le_succ (Nat.zero_le _)

end Boogie.Token
