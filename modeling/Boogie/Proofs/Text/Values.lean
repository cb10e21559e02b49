import Mathlib.Data.List.Induction
import Mathlib.Data.Nat.Digits.Defs
import Boogie.Proofs.Text.Digits

/-! The numbers that digits of a base denote. Where nothing but digits is read, what is read is that number. -/
namespace Boogie.Text

def digitNumber (c : Char) : Nat := (digitValue c).getD 0

/-- The number that digits of a base denote: the last of them counts the units, and each the next higher power of
the base in front of it. -/
def valueOf (base : Nat) (digits : List Char) : Nat := Nat.ofDigits base (digits.reverse.map digitNumber)

theorem valueSnoc (base : Nat) (digits : List Char) (c : Char) :
    valueOf base (digits ++ [c]) = base * valueOf base digits + digitNumber c := by
  rw [valueOf, List.reverse_append, List.reverse_singleton, List.singleton_append, List.map_cons, Nat.ofDigits_cons,
    Nat.add_comm]
  rfl

theorem foldDigits {base : Nat} {digits : List Char}
    (each : ∀ c ∈ digits, ∀ n, addDigit base (some n) c = some (base * n + digitNumber c)) :
    digits.foldl (addDigit base) (some 0) = some (valueOf base digits) := by
  induction digits using List.reverseRecOn with
  | nil => rfl
  | append_singleton digits c ih =>
    rw [List.foldl_append, ih fun d mem => each d (List.mem_append_left _ mem), List.foldl_cons, List.foldl_nil,
      each c (by simp), valueSnoc]

theorem digitNumberDecimal {c : Char} (digit : isDigit c = true) : digitNumber c = c.toNat - '0'.toNat := by
  rw [digitNumber, digitValue, if_pos digit, Option.getD_some]

theorem decimalValueEq {digits : List Char} (all : digits.all isDigit = true) :
    decimalValue digits = valueOf 10 digits := by
  induction digits using List.reverseRecOn with
  | nil => rfl
  | append_singleton digits c ih =>
    rw [List.all_append, Bool.and_eq_true] at all
    have digit : isDigit c = true := by simpa using all.2
    rw [decimalValueSnoc, ih all.1, valueSnoc, digitNumberDecimal digit]

theorem valueToDigits (n : Nat) : valueOf 10 (Nat.toDigits 10 n) = n := by
  rw [← decimalValueEq (allDigits n), decimalValueToDigits]

theorem readNatDigits {digits : List Char} (all : isDigits digits = true) :
    readNat digits = some (valueOf 10 digits) := by
  rw [readNat, if_pos all, decimalValueEq (allOfDigits all)]

theorem readWordDigits {digits : List Char} (all : isDigits digits = true) (bits : Nat) :
    readWord bits digits = if valueOf 10 digits < wordCount bits then some (valueOf 10 digits) else none := by
  rw [readWord, readUnsignedDigits all, decimalValueEq (allOfDigits all), Option.filter_some]
  simp only [decide_eq_true_eq]

inductive WritesInteger : List Char → Int → Prop
  | natural {digits} (all : isDigits digits = true) : WritesInteger digits (valueOf 10 digits)
  | negative {digits} (all : isDigits digits = true) : WritesInteger ('-' :: digits) (-valueOf 10 digits)

theorem writesToString (n : Int) : WritesInteger (toString n).toList n := by
  rw [intDigits]
  split
  · have written := WritesInteger.negative (isDigitsToDigits n.natAbs)
    have same : -(n.natAbs : Int) = n := by omega
    rwa [valueToDigits, same] at written
  · have written := WritesInteger.natural (isDigitsToDigits n.natAbs)
    have same : (n.natAbs : Int) = n := by omega
    rwa [valueToDigits, same] at written

def isHexDigits (text : List Char) : Bool := !text.isEmpty && text.all isHexDigit

theorem hexDigitIff {c : Char} : isHexDigit c = true ↔ ∃ d < 16, digitValue c = some d := by
  have digits : '0'.val.toNat = 48 ∧ '9'.val.toNat = 57 := ⟨rfl, rfl⟩
  have lower : 'a'.val.toNat = 97 ∧ 'f'.val.toNat = 102 ∧ 'z'.val.toNat = 122 := ⟨rfl, rfl, rfl⟩
  have upper : 'A'.val.toNat = 65 ∧ 'F'.val.toNat = 70 ∧ 'Z'.val.toNat = 90 := ⟨rfl, rfl, rfl⟩
  simp only [isHexDigit, digitValue, isDigit, Bool.or_eq_true, Bool.and_eq_true, decide_eq_true_eq, Char.le_def,
    UInt32.le_iff_toNat_le, Char.toNat, digits, lower, upper]
  generalize c.val.toNat = place
  split
  · simp only [Option.some.injEq, exists_eq_right']
    omega
  · split
    · simp only [Option.some.injEq, exists_eq_right']
      omega
    · split
      · simp only [Option.some.injEq, exists_eq_right']
        omega
      · simp only [reduceCtorEq, and_false, exists_false, iff_false]
        omega

theorem addHex {c : Char} (hex : isHexDigit c = true) (n : Nat) :
    addDigit 16 (some n) c = some (16 * n + digitNumber c) := by
  obtain ⟨d, less, value⟩ := hexDigitIff.mp hex
  have plain : c ≠ '_' := by
    rintro rfl
    exact absurd hex (by decide)
  simp [addDigit, plain, digitNumber, value, less]

theorem hexOfFold {digits : List Char} (plain : '_' ∉ digits) {start : Option Nat} {n : Nat}
    (read : digits.foldl (addDigit 16) start = some n) : digits.all isHexDigit = true ∧ start.isSome = true := by
  induction digits generalizing start with
  | nil => exact ⟨rfl, by simp_all⟩
  | cons c rest ih =>
    rw [List.mem_cons, not_or] at plain
    obtain ⟨others, added⟩ := ih plain.2 read
    rw [addDigit, if_neg (Ne.symm plain.1)] at added
    obtain ⟨m, found⟩ := Option.isSome_iff_exists.mp added
    obtain ⟨value, begun, more⟩ := Option.bind_eq_some_iff.mp found
    obtain ⟨d, ofDigit, more⟩ := Option.bind_eq_some_iff.mp more
    have less : d < 16 := (Option.ite_none_right_eq_some.mp more).1
    rw [List.all_cons, others, hexDigitIff.mpr ⟨d, less, ofDigit⟩, begun]
    exact ⟨rfl, rfl⟩

theorem readBasedPlain {base : Nat} {c : Char} {rest : List Char} (minus : c ≠ '-') (plus : c ≠ '+') (plain : c ≠ '_') :
    readBased base (c :: rest) = ((c :: rest).foldl (addDigit base) (some 0)).map Int.ofNat := by
  unfold readBased
  split
  · rename_i same
    exact absurd (List.cons.inj same).1 minus
  · rename_i same
    exact absurd (List.cons.inj same).1 plus
  · unfold readGrouped
    split
    · contradiction
    · rename_i same
      exact absurd (List.cons.inj same).1 plain
    · rfl

theorem readHexIff {text : List Char} (minus : text.head? ≠ some '-') (plus : '+' ∉ text) (plain : '_' ∉ text) {z : Int} :
    readBased 16 text = some z ↔ isHexDigits text = true ∧ z = valueOf 16 text := by
  cases text with
  | nil =>
    constructor
    · intro read
      contradiction
    · rintro ⟨filled, _⟩
      contradiction
  | cons c rest =>
    have minus : c ≠ '-' := by simpa using minus
    rw [readBasedPlain minus (List.ne_of_not_mem_cons plus).symm (List.ne_of_not_mem_cons plain).symm,
      Option.map_eq_some_iff]
    constructor
    · rintro ⟨n, read, rfl⟩
      have all := (hexOfFold plain read).1
      rw [foldDigits fun c mem => addHex (List.all_eq_true.mp all c mem), Option.some.injEq] at read
      exact ⟨all, congrArg Int.ofNat read.symm⟩
    · rintro ⟨filled, rfl⟩
      have all : (c :: rest).all isHexDigit = true := filled
      exact ⟨_, foldDigits fun c mem => addHex (List.all_eq_true.mp all c mem), rfl⟩

theorem isHexDigitsIff {text : List Char} : isHexDigits text = true ↔ text ≠ [] ∧ text.all isHexDigit = true := by
  simp [isHexDigits]

theorem hexDigitsOfLength {n : Nat} (some : n ≠ 0) : ∃ digits, isHexDigits digits = true ∧ digits.length = n := by
  obtain ⟨digits, all, length⟩ := digitsOfLength some
  have hex : digits.all isHexDigit = true := List.all_eq_true.mpr fun c mem => by
    simp [isHexDigit, List.all_eq_true.mp (allOfDigits all) c mem]
  exact ⟨digits, isHexDigitsIff.mpr ⟨List.ne_nil_of_length_pos (by omega), hex⟩, length⟩

theorem readHex {text : List Char} (digits : isHexDigits text = true) :
    readBased 16 text = some (valueOf 16 text : Int) := by
  have other {c : Char} (no : isHexDigit c = false) : c ∉ text := fun mem =>
    absurd (List.all_eq_true.mp (isHexDigitsIff.mp digits).2 c mem) (by simp [no])
  have minus : text.head? ≠ some '-' := fun first => other (by decide) (List.mem_of_head? first)
  exact (readHexIff minus (other (by decide)) (other (by decide))).mpr ⟨digits, rfl⟩

theorem allHexPadded (zeros n : Nat) : (List.replicate zeros '0' ++ Nat.toDigits 16 n).all isHexDigit = true := by
  have zero : isHexDigit '0' = true := by decide
  simp [allHexDigits, zero]

theorem valueHexDigits (zeros n : Nat) : valueOf 16 (List.replicate zeros '0' ++ Nat.toDigits 16 n) = n := by
  have folded := foldDigits fun c mem => addHex (List.all_eq_true.mp (allHexPadded zeros n) c mem)
  rw [foldZeros, foldHexDigits] at folded
  exact (Option.some.inj folded).symm

end Boogie.Text
