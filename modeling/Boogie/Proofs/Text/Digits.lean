import Boogie.Text.Numeral

/-! The digits of a number, and the number that they denote. -/
namespace Boogie.Text

theorem isDigitEq (c : Char) : isDigit c = c.isDigit := by
  simp [isDigit, Char.isDigit, Char.le_def]

theorem allDigits (n : Nat) : (Nat.toDigits 10 n).all isDigit = true :=
  List.all_eq_true.mpr fun c mem => by
    rw [isDigitEq]
    exact Nat.isDigit_of_mem_toDigits (by decide) (by decide) mem

theorem allOfDigits {digits : List Char} (h : isDigits digits = true) : digits.all isDigit = true :=
  (Bool.and_eq_true_iff.mp h).2

theorem digitsOfLength {n : Nat} (some : n ≠ 0) : ∃ digits, isDigits digits = true ∧ digits.length = n := by
  refine ⟨List.replicate n '0', ?_, List.length_replicate⟩
  have zero : isDigit '0' = true := rfl
  simp [isDigits, some, zero]

theorem isDigitsToDigits (n : Nat) : isDigits (Nat.toDigits 10 n) = true := by
  simp [isDigits, allDigits, Nat.toDigits_ne_nil]

theorem decimalValueToDigits (n : Nat) : decimalValue (Nat.toDigits 10 n) = n :=
  Nat.ofDigitChars_ten_toDigits

theorem readNatToDigits (n : Nat) : readNat (Nat.toDigits 10 n) = some n := by
  rw [readNat, if_pos (isDigitsToDigits n), decimalValueToDigits]

theorem toStringDigits (n : Nat) : (toString n).toList = Nat.toDigits 10 n := Nat.toList_repr

theorem readUnsignedDigits {digits : List Char} (all : isDigits digits = true) :
    readUnsigned digits = some (decimalValue digits) := by
  have plain : readNat digits = some (decimalValue digits) := by rw [readNat, if_pos all]
  unfold readUnsigned
  split
  · exact absurd all (by simp [isDigits, isDigit])
  · exact plain

theorem readWordToDigits {bits n : Nat} (less : n < wordCount bits) :
    readWord bits (Nat.toDigits 10 n) = some n := by
  simp [readWord, readUnsignedDigits (isDigitsToDigits n), decimalValueToDigits, less]

theorem intDigits (z : Int) : (toString z).toList =
    if z < 0 then '-' :: Nat.toDigits 10 z.natAbs else Nat.toDigits 10 z.natAbs := by
  cases z with
  | ofNat n =>
    show (toString n).toList = _
    rw [toStringDigits]
    simp
  | negSucc n =>
    show ("-" ++ toString (n + 1)).toList = _
    rw [String.toList_append, toStringDigits]
    simp [Int.negSucc_lt_zero]

theorem addHexDigit {d : Nat} (less : d < 16) (n : Nat) :
    addDigit 16 (some n) d.digitChar = some (16 * n + d) := by
  have plain : d.digitChar ≠ '_' ∧ digitValue d.digitChar = some d := by
    revert d
    decide
  simp [addDigit, plain, less]

theorem allHexDigits (n : Nat) : (Nat.toDigits 16 n).all isHexDigit = true := by
  have digit : ∀ d < 16, isHexDigit d.digitChar = true := by decide
  induction n using Nat.strongRecOn with
  | _ n ih =>
    rcases Nat.lt_or_ge n 16 with less | more
    · simp [Nat.toDigits_of_lt_base less, digit n less]
    · rw [Nat.toDigits_of_base_le (by decide) more, List.all_append, ih (n / 16) (by omega)]
      simp [digit (n % 16) (Nat.mod_lt _ (by decide))]

theorem foldHexDigits (n : Nat) : (Nat.toDigits 16 n).foldl (addDigit 16) (some 0) = some n := by
  induction n using Nat.strongRecOn with
  | _ n ih =>
    rcases Nat.lt_or_ge n 16 with less | more
    · simp [Nat.toDigits_of_lt_base less, addHexDigit less]
    · rw [Nat.toDigits_of_base_le (by decide) more, List.foldl_append, ih (n / 16) (by omega)]
      simp only [List.foldl_cons, List.foldl_nil, addHexDigit (Nat.mod_lt n (by decide : 16 > 0))]
      congr 1
      omega

theorem foldZeros (zeros : Nat) (text : List Char) :
    (List.replicate zeros '0' ++ text).foldl (addDigit 16) (some 0) = text.foldl (addDigit 16) (some 0) := by
  induction zeros with
  | zero => rfl
  | succ zeros ih => exact ih

end Boogie.Text
