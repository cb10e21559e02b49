import Boogie.Proofs.Literal.Shape
import Mathlib.Algebra.Order.Field.Rat
import Mathlib.Data.List.Induction
import Mathlib.Tactic.Ring

/-! The numbers that decimal literals denote. Every digit counts by its place, and what is read is exactly the sum. -/
namespace Boogie

namespace Text

/-- Every digit counts by its place, of which the one behind it has the next lower; units stand at place zero. -/
def placeValue (place : Int) : List Char → ℚ
  | [] => 0
  | c :: rest => ((c.toNat - '0'.toNat : Nat) : ℚ) * 10 ^ place + placeValue (place - 1) rest

theorem placeValueSnoc (place : Int) (digits : List Char) (c : Char) :
    placeValue place (digits ++ [c]) =
      placeValue place digits + ((c.toNat - '0'.toNat : Nat) : ℚ) * 10 ^ (place - digits.length) := by
  induction digits generalizing place with
  | nil => simp [placeValue]
  | cons d rest ih =>
    have lower : place - 1 - rest.length = place - (rest.length + 1 : Nat) := by omega
    rw [List.cons_append, placeValue, placeValue, ih, lower, List.length_cons]
    ring

theorem placeValueWhole (place : Int) (digits : List Char) :
    placeValue place digits = decimalValue digits * 10 ^ (place + 1 - digits.length) := by
  induction digits using List.reverseRecOn with
  | nil => simp [placeValue, decimalValueNil]
  | append_singleton digits c ih =>
    have step : place + 1 - digits.length = place - digits.length + 1 := by omega
    have last : place + 1 - (digits ++ [c]).length = place - digits.length := by
      rw [List.length_append, List.length_singleton]
      omega
    rw [placeValueSnoc, ih, decimalValueSnoc, last, step, zpow_add_one₀ (by norm_num)]
    push_cast
    ring

end Text

namespace Decimal

theorem assembledValue (whole fraction : List Char) (shift : Int) :
    ((assembled whole fraction shift).mantissa : ℚ) * 10 ^ (assembled whole fraction shift).exponent =
      Text.placeValue (whole.length - 1 + shift) (whole ++ fraction) := by
  have places : (whole.length : Int) - 1 + shift + 1 - (whole ++ fraction).length = shift - fraction.length := by
    rw [List.length_append]
    omega
  rw [Text.placeValueWhole, places, assembled, Int.cast_natCast]

/-- A text is read just when it is written as a decimal whose exponents are held by 32 bits. The mantissa is what
all digits denote, and the exponent is what is written less the places behind the point; the mantissa times that
power of ten is the number in which each digit counts by its place. -/
theorem readsExactly (text : List Char) :
    (∀ d, read text = some d ↔ ∃ whole fraction shift, Writes whole fraction shift text ∧ Held fraction shift ∧
      d.mantissa = Text.decimalValue (whole ++ fraction) ∧ d.exponent = shift - fraction.length) ∧
    ∀ whole fraction shift d, Writes whole fraction shift text → read text = some d →
      (d.mantissa : ℚ) * 10 ^ d.exponent = Text.placeValue (whole.length - 1 + shift) (whole ++ fraction) := by
  refine ⟨fun d => ?_, fun whole fraction shift d writes found => ?_⟩
  · rw [readIff]
    obtain ⟨mantissa, exponent⟩ := d
    simp only [assembled, Decimal.mk.injEq]
  · rw [((writes.readEq d).mp found).2, assembledValue]

example : Decimal.read "1.50E+3".toList = some ⟨150, 1⟩ ∧ Decimal.read "7.".toList = some ⟨7, 0⟩ ∧
    Decimal.read "1.5e-2147483648".toList = none := by decide +kernel

end Decimal

end Boogie
