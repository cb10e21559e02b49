import Boogie.Literal.Decimal

/-! How decimal literals are written: digits, a point with digits behind it, and an exponent. A text is read just
when it has this form and its exponents are held by 32 bits. -/
namespace Boogie

namespace Text

theorem cutFirstCons (p : Char → Bool) (c : Char) (rest : List Char) :
    cutFirst p (c :: rest) =
      if p c = true then some ([], rest) else (cutFirst p rest).map fun (pre, post) => (c :: pre, post) := by
  by_cases marked : p c = true
  · simp [cutFirst, marked]
  · simp only [cutFirst, List.dropWhile_cons, List.takeWhile_cons, marked, Bool.not_false, if_true]
    cases rest.dropWhile (!p ·) <;> rfl

theorem cutFirstIff {p : Char → Bool} {text pre post : List Char} :
    cutFirst p text = some (pre, post) ↔
      ∃ mark, p mark = true ∧ pre.all (!p ·) = true ∧ text = pre ++ mark :: post := by
  constructor
  · intro cut
    induction text generalizing pre with
    | nil => exact absurd cut nofun
    | cons c rest ih =>
      rw [cutFirstCons] at cut
      split at cut
      · rename_i marked
        cases cut
        exact ⟨c, marked, rfl, rfl⟩
      · rename_i plain
        obtain ⟨⟨front, _⟩, found, same⟩ := Option.map_eq_some_iff.mp cut
        cases same
        obtain ⟨mark, marked, before, rfl⟩ := ih found
        exact ⟨mark, marked, by simp [plain, before], rfl⟩
  · rintro ⟨mark, marked, before, rfl⟩
    exact cutFirstAt before marked

theorem digitsPlain {p : Char → Bool} {digits : List Char} (all : digits.all isDigit = true)
    (other : ∀ c, isDigit c = true → p c = false) : digits.all (!p ·) = true :=
  List.all_eq_true.mpr fun c mem => by simp [other c (List.all_eq_true.mp all c mem)]

theorem digitNotMark {mark : Char} (other : isDigit mark = false) (c : Char)
    (digit : isDigit c = true) : (c == mark) = false := by
  refine beq_eq_false_iff_ne.mpr ?_
  rintro rfl
  exact absurd digit (by simp [other])

inductive WritesSigned : List Char → Int → Prop
  | plain {digits} (all : isDigits digits = true) : WritesSigned digits (decimalValue digits)
  | plus {digits} (all : isDigits digits = true) : WritesSigned ('+' :: digits) (decimalValue digits)
  | minus {digits} (all : isDigits digits = true) : WritesSigned ('-' :: digits) (-decimalValue digits)

theorem readNatIff {text : List Char} {n : Nat} :
    readNat text = some n ↔ isDigits text = true ∧ n = decimalValue text := by
  rw [readNat, Option.ite_none_right_eq_some, Option.some.injEq, eq_comm (a := n)]

theorem readMinus (digits : List Char) :
    readSigned ('-' :: digits) = (readNat digits).map fun n : Nat => (-n : Int) := by
  rw [readSigned]
  cases readNat digits <;> rfl

theorem headOfDigits {c : Char} {rest : List Char} (all : isDigits (c :: rest) = true) : isDigit c = true := by
  simp only [isDigits, List.all_cons, Bool.and_eq_true] at all
  exact all.2.1

theorem readSignedIff {text : List Char} {n : Int} : readSigned text = some n ↔ WritesSigned text n := by
  constructor
  · intro read
    unfold readSigned at read
    split at read
    · rename_i digits
      rw [← readSigned, readMinus] at read
      obtain ⟨value, found, rfl⟩ := Option.map_eq_some_iff.mp read
      obtain ⟨all, rfl⟩ := readNatIff.mp found
      exact .minus all
    · unfold readUnsigned at read
      split at read
      · obtain ⟨value, found, rfl⟩ := Option.map_eq_some_iff.mp read
        obtain ⟨all, rfl⟩ := readNatIff.mp found
        exact .plus all
      · obtain ⟨value, found, rfl⟩ := Option.map_eq_some_iff.mp read
        obtain ⟨all, rfl⟩ := readNatIff.mp found
        exact .plain all
  · rintro (all | all | all)
    · have read := readNatIff.mpr ⟨all, rfl⟩
      unfold readSigned readUnsigned
      split
      · exact absurd (headOfDigits all) (by decide)
      · split
        · exact absurd (headOfDigits all) (by decide)
        · rw [read]
          rfl
    · simp [readSigned, readUnsigned, readNatIff.mpr ⟨all, rfl⟩]
    · rw [readMinus, readNatIff.mpr ⟨all, rfl⟩]
      rfl

def HeldBy32 (n : Int) : Prop := -2147483648 ≤ n ∧ n ≤ 2147483647

instance (n : Int) : Decidable (HeldBy32 n) := inferInstanceAs (Decidable (_ ∧ _))

theorem fitsInteger32 (n : Int) : fitsInteger 32 n = true ↔ HeldBy32 n := by
  have count : (wordCount 31 : Int) = 2147483648 := by decide
  simp only [fitsInteger, HeldBy32, Bool.and_eq_true, decide_eq_true_eq, count]
  omega

theorem readIntegerIff {bits : Nat} {text : List Char} {n : Int} :
    readInteger bits text = some n ↔ WritesSigned text n ∧ fitsInteger bits n = true := by
  rw [readInteger, Option.filter_eq_some_iff, readSignedIff]

theorem readInteger32 {text : List Char} {n : Int} :
    readInteger 32 text = some n ↔ WritesSigned text n ∧ HeldBy32 n := by
  rw [readIntegerIff, fitsInteger32]

theorem WritesSigned.unique {text : List Char} {n m : Int} (h : WritesSigned text n) (h' : WritesSigned text m) :
    n = m :=
  Option.some.inj ((readSignedIff.mpr h).symm.trans (readSignedIff.mpr h'))

end Text

namespace Decimal

inductive Pointed (whole : List Char) : List Char → List Char → Prop
  | whole : Pointed whole [] whole
  | fraction {fraction} : Pointed whole fraction (whole ++ '.' :: fraction)

structure WritesNumber (whole fraction number : List Char) : Prop where
  pointed : Pointed whole fraction number
  filled : Text.isDigits whole = true
  digits : fraction.all Text.isDigit = true

inductive Writes (whole fraction : List Char) : Int → List Char → Prop
  | bare {number} (writes : WritesNumber whole fraction number) : Writes whole fraction 0 number
  | shifted {number mark exponent shift} (writes : WritesNumber whole fraction number)
      (isMark : mark = 'e' ∨ mark = 'E') (signed : Text.WritesSigned exponent shift) :
      Writes whole fraction shift (number ++ mark :: exponent)

/-- What 32 bits have to hold: the exponent that is written, the number of places behind the point, and the
exponent that is left when the point is moved behind them. -/
structure Held (fraction : List Char) (shift : Int) : Prop where
  written : Text.HeldBy32 shift
  places : Text.HeldBy32 fraction.length
  moved : Text.HeldBy32 (shift - fraction.length)

def assembled (whole fraction : List Char) (shift : Int) : Decimal :=
  ⟨Text.decimalValue (whole ++ fraction), shift - fraction.length⟩

def isExponentMark (c : Char) : Bool := c == 'e' || c == 'E'

theorem digitNoMark (c : Char) (digit : Text.isDigit c = true) : isExponentMark c = false := by
  rw [isExponentMark, Text.digitNotMark (by decide) c digit, Text.digitNotMark (by decide) c digit]
  rfl

section Parts

variable {whole fraction number : List Char}

theorem WritesNumber.wholeDigits (writes : WritesNumber whole fraction number) : whole.all Text.isDigit = true := by
  have all := writes.filled
  simp only [Text.isDigits, Bool.and_eq_true] at all
  exact all.2

theorem WritesNumber.lengthLe (writes : WritesNumber whole fraction number) :
    whole.length + fraction.length ≤ number.length := by
  cases writes.pointed <;> simp

theorem Writes.inFront {text : List Char} {shift : Int} (writes : Writes whole fraction shift text) :
    ∃ number, WritesNumber whole fraction number ∧ number.length ≤ text.length := by
  cases writes with
  | bare writes => exact ⟨_, writes, Nat.le_refl _⟩
  | shifted writes => exact ⟨_, writes, by simp⟩

theorem WritesNumber.pointAt (writes : WritesNumber whole fraction number) :
    (Text.cutFirst (· == '.') number).getD (number, []) = (whole, fraction) := by
  have plain := Text.digitsPlain writes.wholeDigits (Text.digitNotMark (by decide : Text.isDigit '.' = false))
  cases writes.pointed with
  | whole => rw [Text.cutFirstNone plain, Option.getD_none]
  | fraction => rw [Text.cutFirstAt plain rfl, Option.getD_some]

theorem WritesNumber.unmarked (writes : WritesNumber whole fraction number) :
    number.all (!isExponentMark ·) = true := by
  have plain := Text.digitsPlain writes.wholeDigits digitNoMark
  cases writes.pointed with
  | whole => exact plain
  | fraction =>
    rw [List.all_append, List.all_cons, plain, Text.digitsPlain writes.digits digitNoMark]
    rfl

theorem partsBare (writes : WritesNumber whole fraction number) : parts number = (whole, fraction, none) := by
  have cut : Text.cutFirst (fun c => c == 'e' || c == 'E') number = none := Text.cutFirstNone writes.unmarked
  simp only [parts, cut, writes.pointAt]

theorem partsShifted (writes : WritesNumber whole fraction number) {mark : Char} (isMark : mark = 'e' ∨ mark = 'E')
    (exponent : List Char) : parts (number ++ mark :: exponent) = (whole, fraction, some exponent) := by
  have marked : isExponentMark mark = true := by rcases isMark with rfl | rfl <;> rfl
  have cut : Text.cutFirst (fun c => c == 'e' || c == 'E') (number ++ mark :: exponent) = some (number, exponent) :=
    Text.cutFirstAt writes.unmarked marked
  simp only [parts, cut, writes.pointAt]

theorem pointedOfCut (number : List Char) :
    Pointed ((Text.cutFirst (· == '.') number).getD (number, [])).1
      ((Text.cutFirst (· == '.') number).getD (number, [])).2 number := by
  cases cut : Text.cutFirst (· == '.') number with
  | none => exact .whole
  | some found =>
    obtain ⟨mark, isPoint, _, rfl⟩ := Text.cutFirstIff.mp cut
    rw [beq_iff_eq.mp isPoint]
    exact .fraction

theorem partsWritten {text : List Char} {exponent : Option (List Char)}
    (cut : parts text = (whole, fraction, exponent)) :
    (exponent = none ∧ Pointed whole fraction text) ∨
      ∃ number mark written, exponent = some written ∧ (mark = 'e' ∨ mark = 'E') ∧
        Pointed whole fraction number ∧ text = number ++ mark :: written := by
  unfold parts at cut
  cases first : Text.cutFirst (fun c => c == 'e' || c == 'E') text with
  | none =>
    simp only [first, Prod.mk.injEq] at cut
    obtain ⟨rfl, rfl, rfl⟩ := cut
    exact .inl ⟨rfl, pointedOfCut text⟩
  | some found =>
    simp only [first, Prod.mk.injEq] at cut
    obtain ⟨rfl, rfl, rfl⟩ := cut
    obtain ⟨mark, marked, _, rfl⟩ := Text.cutFirstIff.mp first
    exact .inr ⟨found.1, mark, found.2, rfl, by simpa using marked, pointedOfCut found.1, rfl⟩

theorem readOfParts {text : List Char} {exponent : Option (List Char)}
    (cut : parts text = (whole, fraction, exponent)) (d : Decimal) :
    read text = some d ↔ ∃ shift, (exponent.elim (shift = 0) fun written => Text.WritesSigned written shift) ∧
      Text.isDigits whole = true ∧ fraction.all Text.isDigit = true ∧ Held fraction shift ∧
      d = assembled whole fraction shift := by
  have tested (shift : Int) : (if Text.isDigits whole && fraction.all Text.isDigit &&
      Text.fitsInteger 32 fraction.length && Text.fitsInteger 32 (shift - fraction.length) then
      some (assembled whole fraction shift) else none) = some d ∧ Text.HeldBy32 shift ↔
      Text.isDigits whole = true ∧ fraction.all Text.isDigit = true ∧ Held fraction shift ∧
        d = assembled whole fraction shift := by
    simp only [Option.ite_none_right_eq_some, Bool.and_eq_true, Text.fitsInteger32, Option.some.injEq]
    constructor
    · rintro ⟨⟨⟨⟨⟨filled, digits⟩, places⟩, moved⟩, rfl⟩, written⟩
      exact ⟨filled, digits, ⟨written, places, moved⟩, rfl⟩
    · rintro ⟨filled, digits, held, rfl⟩
      exact ⟨⟨⟨⟨⟨filled, digits⟩, held.places⟩, held.moved⟩, rfl⟩, held.written⟩
  unfold read
  rw [cut]
  cases exponent with
  | none =>
    have zero : Text.HeldBy32 0 := by decide
    constructor
    · intro found
      exact ⟨0, rfl, (tested 0).mp ⟨found, zero⟩⟩
    · rintro ⟨_, rfl, sound⟩
      exact ((tested 0).mpr sound).1
  | some written =>
    simp only [Option.bind_eq_bind, Option.bind_eq_some_iff, Text.readInteger32]
    constructor
    · rintro ⟨shift, ⟨signed, held⟩, found⟩
      exact ⟨shift, signed, (tested shift).mp ⟨found, held⟩⟩
    · rintro ⟨shift, signed, sound⟩
      obtain ⟨found, held⟩ := (tested shift).mpr sound
      exact ⟨shift, ⟨signed, held⟩, found⟩

end Parts

theorem readIff {text : List Char} {d : Decimal} :
    read text = some d ↔ ∃ whole fraction shift, Writes whole fraction shift text ∧ Held fraction shift ∧
      d = assembled whole fraction shift := by
  constructor
  · intro found
    obtain ⟨⟨whole, fraction, exponent⟩, cut⟩ : ∃ found, parts text = found := ⟨_, rfl⟩
    obtain ⟨shift, given, filled, digits, held, same⟩ := (readOfParts cut d).mp found
    refine ⟨whole, fraction, shift, ?_, held, same⟩
    rcases partsWritten cut with ⟨rfl, pointed⟩ | ⟨number, mark, written, rfl, isMark, pointed, rfl⟩
    · cases given
      exact .bare ⟨pointed, filled, digits⟩
    · exact .shifted ⟨pointed, filled, digits⟩ isMark given
  · rintro ⟨whole, fraction, shift, written, held, same⟩
    cases written with
    | bare writes => exact (readOfParts (partsBare writes) d).mpr ⟨_, rfl, writes.filled, writes.digits, held, same⟩
    | shifted writes isMark signed =>
      exact (readOfParts (partsShifted writes isMark _) d).mpr
        ⟨_, signed, writes.filled, writes.digits, held, same⟩

theorem Writes.readEq {whole fraction text : List Char} {shift : Int} (writes : Writes whole fraction shift text)
    (d : Decimal) : read text = some d ↔ Held fraction shift ∧ d = assembled whole fraction shift := by
  constructor
  · intro found
    cases writes with
    | bare writes =>
      obtain ⟨shift, rfl, _, _, sound⟩ := (readOfParts (partsBare writes) d).mp found
      exact sound
    | shifted writes isMark signed =>
      obtain ⟨shift', signed', _, _, sound⟩ := (readOfParts (partsShifted writes isMark _) d).mp found
      rwa [signed'.unique signed] at sound
  · rintro ⟨held, same⟩
    exact readIff.mpr ⟨whole, fraction, shift, writes, held, same⟩

end Decimal

end Boogie
