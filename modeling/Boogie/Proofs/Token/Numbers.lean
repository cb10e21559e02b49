import Boogie.Proofs.Text.Values
import Boogie.Proofs.Token.Spelling

/-! Numbers in a text, each read back as one word where no part of a number stands behind it. -/
namespace Boogie.Token

def endsNumber (c : Char) : Bool := !isNamePart c && c != '+' && c != '-'

theorem endsNumberPart {c : Char} (h : endsNumber c = true) : isNamePart c = false := by
  simp only [endsNumber, Bool.and_eq_true, Bool.not_eq_true'] at h
  exact h.1.1

theorem endsNumberSign {c : Char} (h : endsNumber c = true) : c ≠ '+' ∧ c ≠ '-' := by
  simp only [endsNumber, Bool.and_eq_true, bne_iff_ne] at h
  exact ⟨h.1.2, h.2⟩

theorem digitIsPart {c : Char} (h : Text.isDigit c = true) : isNamePart c = true := by
  simp [isNamePart, h]

theorem letterIsPart {c : Char} (h : Text.isLetter c = true) : isNamePart c = true := by
  simp [isNamePart, isNameStart, h]

theorem stopsDigits {c : Char} (h : endsNumber c = true) : (!Text.isDigit c) = true := by
  by_cases digit : Text.isDigit c = true
  · exact absurd (digitIsPart digit) (by simp [endsNumberPart h])
  · simp [digit]

theorem runDigits {digits rest : List Char} (all : digits.all Text.isDigit = true)
    (ends : startsWith endsNumber rest) : run Text.isDigit (digits ++ rest) = digits.length :=
  runEnds all (startsWithMono (fun _ => stopsDigits) ends)

theorem widthNone {rest : List Char} (h : startsWith (· != 'b') rest) : widthLength rest = none := by
  unfold widthLength
  split
  · exact absurd h (by simp [startsWith])
  · rfl

theorem fractionNone {rest : List Char} (h : startsWith (· != '.') rest) : fractionLength rest = none := by
  unfold fractionLength
  split
  · exact absurd h (by simp [startsWith])
  · rfl

theorem exponentNone {rest : List Char} (h : startsWith (· != 'e') rest) : exponentLength rest = none := by
  unfold exponentLength
  split
  · exact absurd h (by simp [startsWith])
  · exact absurd h (by simp [startsWith])
  · rfl

theorem otherThanPart {c : Char} (part : isNamePart c = true) {d : Char} (h : endsNumber d = true) :
    (d != c) = true := by
  refine bne_iff_ne.mpr ?_
  rintro rfl
  exact absurd part (by simp [endsNumberPart h])

def isPlainSecond (c : Char) : Bool := c != 'x' && c != 'N' && c != 'n' && c != '+' && c != '-'

theorem floatNumberNone {c : Char} {rest : List Char} (h : startsWith isPlainSecond rest) :
    floatNumber (c :: rest) = none := by
  unfold floatNumber
  split
  case h_6 => rfl
  all_goals
    rename_i same
    rw [(List.cons.inj same).2] at h
    exact absurd h nofun

theorem digitIsPlain {c : Char} (h : Text.isDigit c = true) : isPlainSecond c = true := by
  simp only [isPlainSecond, Bool.and_eq_true, bne_iff_ne]
  refine ⟨⟨⟨⟨?_, ?_⟩, ?_⟩, ?_⟩, ?_⟩ <;> rintro rfl <;> exact absurd h (by decide)

theorem endsNumberIsPlain {c : Char} (h : endsNumber c = true) : isPlainSecond c = true := by
  have signs := endsNumberSign h
  have letters := endsNumberPart h
  simp only [isPlainSecond, Bool.and_eq_true, bne_iff_ne]
  refine ⟨⟨⟨⟨?_, ?_⟩, ?_⟩, signs.1⟩, signs.2⟩ <;> rintro rfl <;> exact absurd letters (by decide)

theorem numberPlain {digits rest : List Char} (all : Text.isDigits digits = true)
    (plain : startsWith isPlainSecond rest) : number (digits ++ rest) = plainNumber (digits ++ rest) := by
  cases digits with
  | nil => exact absurd all nofun
  | cons c digits =>
    have none : floatNumber (c :: (digits ++ rest)) = none := by
      refine floatNumberNone ?_
      cases digits with
      | nil => exact plain
      | cons d digits =>
        have parts : Text.isDigit c = true ∧ Text.isDigit d = true ∧ digits.all Text.isDigit = true := by
          simpa [Text.isDigits] using all
        exact digitIsPlain parts.2.1
    rw [number, List.cons_append, none]
    rfl

theorem wordsNumber {text rest : List Char} {kind : Kind} (starts : text.head?.any Text.isDigit = true)
    (h : number (text ++ rest) = ⟨.token kind, text.length⟩) :
    words (text ++ rest) = ⟨kind, text⟩ :: words rest := by
  cases text with
  | nil => exact absurd starts nofun
  | cons c text =>
    refine wordsToken ?_
    rw [lexemeNumber (by simpa using starts)]
    exact h

theorem digitsStart {digits rest : List Char} (all : Text.isDigits digits = true) :
    (digits ++ rest).head?.any Text.isDigit = true := by
  cases digits with
  | nil => exact absurd all nofun
  | cons c digits =>
    have parts : Text.isDigit c = true ∧ digits.all Text.isDigit = true := by simpa [Text.isDigits] using all
    simp [parts.1]

theorem digitsNe {digits : List Char} (h : Text.isDigits digits = true) : digits.length ≠ 0 := by
  cases digits with
  | nil => exact absurd h nofun
  | cons c digits => exact Nat.succ_ne_zero _

def digitsBefore (count : Nat) (tail : List Char) : Lexeme :=
  match widthLength tail, fractionLength tail, exponentLength tail with
  | some n, _, _ => ⟨.token .bitVector, count + n⟩
  | _, some n, _ => ⟨.token .fraction, count + n + (exponentLength (tail.drop n)).getD 0⟩
  | _, _, some n => ⟨.token .decimal, count + n⟩
  | _, _, _ => ⟨.token .digits, count⟩

theorem plainNumberEq (text : List Char) :
    plainNumber text = digitsBefore (run Text.isDigit text) (text.drop (run Text.isDigit text)) := rfl

theorem numberOf {digits tail : List Char} (all : Text.isDigits digits = true)
    (stops : startsWith (fun c => !Text.isDigit c) tail) (plain : startsWith isPlainSecond tail) :
    number (digits ++ tail) = digitsBefore digits.length tail := by
  have read : run Text.isDigit (digits ++ tail) = digits.length := runEnds (Text.allOfDigits all) stops
  rw [numberPlain all plain, plainNumberEq, read, List.drop_left]

theorem exponentLengthOf {exponent rest : List Char} {shift : Int} (written : Text.WritesInteger exponent shift)
    (ends : startsWith endsNumber rest) : exponentLength ('e' :: (exponent ++ rest)) = some (exponent.length + 1) := by
  cases written with
  | negative all => simp [exponentLength, runDigits (Text.allOfDigits all) ends, digitsNe all]
  | natural all =>
    have read := runDigits (Text.allOfDigits all) ends
    unfold exponentLength
    split
    · -- digits do not begin with a minus sign
      rename_i minus
      have first := @digitsStart exponent rest all
      rw [(List.cons.inj minus).2] at first
      contradiction
    · rename_i same
      rw [← (List.cons.inj same).2, read, if_neg (digitsNe all)]
    · rename_i other
      exact absurd rfl (other _)

section Plain

variable {digits rest : List Char} (all : Text.isDigits digits = true) (ends : startsWith endsNumber rest)
include all ends

theorem wordsDigits : words (digits ++ rest) = ⟨.digits, digits⟩ :: words rest := by
  refine wordsNumber (by simpa using @digitsStart digits [] all) ?_
  rw [numberOf all (startsWithMono (fun _ => stopsDigits) ends)
      (startsWithMono (fun _ => endsNumberIsPlain) ends), digitsBefore,
    widthNone (startsWithMono (fun _ => otherThanPart (by decide)) ends),
    fractionNone (startsWithMono (fun _ => otherThanPart (by decide)) ends),
    exponentNone (startsWithMono (fun _ => otherThanPart (by decide)) ends)]

theorem wordsBitVector {width : List Char} (ofWidth : Text.isDigits width = true) :
    words (digits ++ 'b' :: 'v' :: width ++ rest) =
      ⟨.bitVector, digits ++ 'b' :: 'v' :: width⟩ :: words rest := by
  have length : widthLength ('b' :: 'v' :: (width ++ rest)) = some (width.length + 2) := by
    simp [widthLength, runDigits (Text.allOfDigits ofWidth) ends, digitsNe ofWidth]
  refine wordsNumber (digitsStart all) ?_
  rw [List.append_assoc, List.cons_append, List.cons_append, numberOf all, digitsBefore, length]
  · simp
  · rfl
  · rfl

theorem wordsFraction {fraction : List Char} (ofFraction : Text.isDigits fraction = true) :
    words (digits ++ '.' :: fraction ++ rest) = ⟨.fraction, digits ++ '.' :: fraction⟩ :: words rest := by
  have length : fractionLength ('.' :: (fraction ++ rest)) = some (fraction.length + 1) := by
    simp [fractionLength, runDigits (Text.allOfDigits ofFraction) ends, digitsNe ofFraction]
  have none : exponentLength rest = none :=
    exponentNone (startsWithMono (fun _ => otherThanPart (by decide)) ends)
  refine wordsNumber (digitsStart all) ?_
  rw [List.append_assoc, List.cons_append, numberOf all, digitsBefore, length, widthNone]
  · simp [none]
  · rfl
  · rfl
  · rfl

theorem wordsShifted {fraction exponent : List Char} (ofFraction : Text.isDigits fraction = true) {shift : Int}
    (ofExponent : Text.WritesInteger exponent shift) :
    words (digits ++ '.' :: fraction ++ 'e' :: exponent ++ rest) =
      ⟨.fraction, digits ++ '.' :: fraction ++ 'e' :: exponent⟩ :: words rest := by
  have stops : startsWith (fun c => !Text.isDigit c) ('e' :: (exponent ++ rest)) := rfl
  have length : fractionLength ('.' :: (fraction ++ 'e' :: (exponent ++ rest))) = some (fraction.length + 1) := by
    simp [fractionLength, runEnds (Text.allOfDigits ofFraction) stops, digitsNe ofFraction]
  have behind := exponentLengthOf ofExponent ends
  have starts : (digits ++ '.' :: fraction ++ 'e' :: exponent).head?.any Text.isDigit = true := by
    rw [List.append_assoc]
    exact digitsStart all
  refine wordsNumber starts ?_
  rw [List.append_assoc, List.append_assoc, List.cons_append, List.cons_append, numberOf all, digitsBefore, length,
    widthNone]
  · simp [behind]
    omega
  · rfl
  · rfl
  · rfl

theorem wordsDecimal {exponent : List Char} {shift : Int} (ofExponent : Text.WritesInteger exponent shift) :
    words (digits ++ 'e' :: exponent ++ rest) = ⟨.decimal, digits ++ 'e' :: exponent⟩ :: words rest := by
  have length := exponentLengthOf ofExponent ends
  refine wordsNumber (digitsStart all) ?_
  rw [List.append_assoc, List.cons_append, numberOf all, digitsBefore, length, widthNone, fractionNone]
  · simp
  · rfl
  · rfl
  · rfl
  · rfl

end Plain

end Boogie.Token
