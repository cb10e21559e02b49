import Boogie.Proofs.Printed.Literals

/-! Numbers are read back from what is printed for them, as they are and not only with the same value: a decimal keeps
its exponent, and a float the places behind its point. -/
namespace Boogie

open Token (ScansAs)

/-- A decimal is printed as one word of decimals, and the decimal is read back from it. -/
theorem Decimal.displayInverts {d : Decimal} (natural : 0 ≤ d.mantissa)
    (counted : (toString d.mantissa).length ≤ 2147483647) (held : Text.HeldBy32 d.exponent) :
    (∃ t, ScansAs .decimal d.text.toList t ∨ ScansAs .fraction d.text.toList t) ∧
      Decimal.read d.text.toList = some d := by
  obtain ⟨mantissa, exponent⟩ := d
  obtain ⟨n, rfl⟩ := Int.eq_ofNat_of_zero_le natural
  have digits : (Nat.toDigits 10 n).length < Text.wordCount 31 := by
    rw [← Layout.naturalDigits, String.length_toList]
    exact Nat.lt_succ_of_le counted
  refine ⟨?_, Layout.decimalRead ((Text.fitsInteger32 exponent).mpr held) digits⟩
  obtain ⟨k, sort, written⟩ := Layout.decimalWritten n exponent
  obtain ⟨t, scanned⟩ := written.alone
  rcases sort with rfl | rfl
  · exact ⟨t, .inl scanned⟩
  · exact ⟨t, .inr scanned⟩

theorem Decimal.displayOfZeros :
    Decimal.read "12.50".toList = some ⟨1250, -2⟩ ∧ Decimal.read "0e-2147483648".toList = some ⟨0, -2147483648⟩ := by
  have zeros : Decimal.text ⟨1250, -2⟩ = "12.50" := by decide +kernel
  have least : Decimal.text ⟨0, -2147483648⟩ = "0e-2147483648" := by decide +kernel
  rw [← zeros, ← least]
  exact ⟨(displayInverts (by decide) (by decide) (by decide)).2, (displayInverts (by decide) (by decide) (by decide)).2⟩

/-- A text `0xI.FeXfSeE` is one word whichever digits `I` and `F` have, and is read part by part just when each of the
numbers is held by as many bits as it may have. What is printed for a float is such a word, and the float is read back
from it. -/
theorem FloatLiteral.fieldsAndDisplay :
    (∀ (p : FloatParts) (exponent : Int), p.Writes exponent → (∃ t, ScansAs .float p.text t) ∧
      ∀ f, FloatLiteral.read p.text = some f ↔ p.IsHeld exponent ∧ f = p.literal exponent) ∧
    ∀ f, Layout.FloatLiteral.isHeld f → (∃ t, ScansAs .float f.text.toList t) ∧
      FloatLiteral.read f.text.toList = some f := by
  constructor
  · intro p exponent writes
    exact ⟨(Token.WritesNumeral.ofParts writes).alone, p.read writes⟩
  · intro f held
    obtain ⟨written, read⟩ := Layout.shownFloat held
    exact ⟨written.alone, read⟩

theorem FloatLiteral.fieldsOfLetters :
    FloatLiteral.read "0xfe.1eee-53f24e8".toList = some ⟨.finite 0xfe1ee 3 (-53), 24, 8⟩ ∧
      FloatLiteral.read "0x0.01ee7f24e8".toList = some ⟨.finite 0x1e 3 7, 24, 8⟩ := by
  have printed : FloatLiteral.text ⟨.finite 0x1e 3 7, 24, 8⟩ = "0x0.01ee7f24e8" := by decide +kernel
  rw [← printed]
  let p : FloatParts := ⟨['f', 'e'], ['1', 'e', 'e'], ['-', '5', '3'], ['2', '4'], ['8']⟩
  have writes : p.Writes (-53) := ⟨rfl, rfl, .negative rfl, rfl, rfl⟩
  have held : p.IsHeld (-53) := ⟨by decide, by decide, by decide, by decide⟩
  have value : p.literal (-53) = ⟨.finite 0xfe1ee 3 (-53), 24, 8⟩ := by decide
  have shown : Layout.FloatLiteral.isHeld ⟨.finite 0x1e 3 7, 24, 8⟩ :=
    ⟨by decide, by decide, ⟨0x1e, rfl⟩, by decide, by decide, by decide⟩
  exact ⟨((fieldsAndDisplay.1 p (-53) writes).2 _).mpr ⟨held, value.symm⟩, (fieldsAndDisplay.2 _ shown).2⟩

theorem FloatParts.refusedForPlaces {p : FloatParts} {exponent : Int} (writes : p.Writes exponent)
    (many : Text.wordCount 32 ≤ p.fraction.length) : FloatLiteral.read p.text = none := by
  refine Option.eq_none_iff_forall_ne_some.mpr fun f found => ?_
  exact absurd ((p.read writes f).mp found).1.places (Nat.not_lt.mpr many)

/-- Four thousand million places and more, where all the numbers that are written are small. -/
theorem FloatLiteral.placesBeyondWord : ∃ p : FloatParts, p.Writes 0 ∧ Text.fitsInteger 64 0 = true ∧
    Text.valueOf 10 p.significandSize < Text.wordCount 32 ∧ Text.valueOf 10 p.exponentSize < Text.wordCount 32 ∧
    (∃ t, ScansAs .float p.text t) ∧ FloatLiteral.read p.text = none := by
  obtain ⟨fraction, digits, length⟩ := Text.hexDigitsOfLength (by decide : Text.wordCount 32 ≠ 0)
  let p : FloatParts := ⟨['0'], fraction, ['0'], ['0'], ['0']⟩
  have writes : p.Writes 0 := ⟨rfl, digits, .natural rfl, rfl, rfl⟩
  have zero : Text.valueOf 10 ['0'] < Text.wordCount 32 := by decide
  exact ⟨p, writes, by decide, zero, zero, (Token.WritesNumeral.ofParts writes).alone,
    FloatParts.refusedForPlaces writes (Nat.le_of_eq length.symm)⟩

end Boogie
