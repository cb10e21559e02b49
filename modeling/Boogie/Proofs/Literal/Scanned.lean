import Boogie.Literal.Basic
import Boogie.Proofs.Literal.Decimal
import Boogie.Proofs.Token.Numerals

/-! The scanner and the readers of literals agree on numbers. A word that the scanner takes for a number is refused only
where a part of it is not held by as many bits as it may have, and what is read of it is what its digits denote. -/
namespace Boogie

/-- How a decimal `I.FeX` is read. The places behind the point are counted with 32 bits as well, which are enough in
every text of less than two thousand million characters. -/
structure Decimal.IsRead (text whole fraction : List Char) (shift : Int) : Prop where
  writes : Writes whole fraction shift text
  refused : read text = none ↔ ¬Held fraction shift
  exponents : Text.HeldBy32 fraction.length → read text = none →
    ¬Text.HeldBy32 shift ∨ ¬Text.HeldBy32 (shift - fraction.length)
  mantissa : ∀ d, read text = some d → d.mantissa = Text.valueOf 10 (whole ++ fraction)
  exponent : ∀ d, read text = some d → d.exponent = shift - fraction.length
  value : ∀ d, read text = some d →
    (d.mantissa : ℚ) * 10 ^ d.exponent = Text.placeValue (whole.length - 1 + shift) (whole ++ fraction)

theorem Decimal.Writes.allDigits {text whole fraction : List Char} {shift : Int}
    (writes : Writes whole fraction shift text) : (whole ++ fraction).all Text.isDigit = true := by
  obtain ⟨_, number, _⟩ := writes.inFront
  rw [List.all_append, number.wholeDigits, number.digits]
  rfl

theorem Decimal.Writes.isRead {text whole fraction : List Char} {shift : Int}
    (writes : Writes whole fraction shift text) : IsRead text whole fraction shift := by
  have refused : read text = none ↔ ¬Held fraction shift := by
    rw [Option.eq_none_iff_forall_ne_some]
    constructor
    · exact fun none held => none _ ((writes.readEq _).mpr ⟨held, rfl⟩)
    · exact fun open' d found => open' ((writes.readEq d).mp found).1
  have made (d : Decimal) (found : read text = some d) : d = assembled whole fraction shift :=
    ((writes.readEq d).mp found).2
  refine ⟨writes, refused, fun places none => ?_, fun d found => ?_, fun d found => ?_, fun d found => ?_⟩
  · -- the count of the places could be refused by itself, hence the hypothesis about it
    refine Decidable.byContradiction fun held => ?_
    rw [not_or, Decidable.not_not, Decidable.not_not] at held
    exact refused.mp none ⟨held.1, places, held.2⟩
  · rw [made d found, assembled, Text.decimalValueEq writes.allDigits]
  · rw [made d found, assembled]
  · rw [made d found, assembledValue]

theorem Literal.readWidth {value width : List Char} (ofValue : Text.isDigits value = true)
    (ofWidth : Text.isDigits width = true) : Literal.readBitVector (value ++ 'b' :: 'v' :: width) =
      if Text.valueOf 10 width < Text.wordCount 32 then some (Text.valueOf 10 value, Text.valueOf 10 width) else none := by
  have plain : Token.startsWith (fun c => !Text.isDigit c) ('b' :: 'v' :: width) := rfl
  have taken := Token.takeWhileEnds (Text.allOfDigits ofValue) plain
  have dropped : (value ++ 'b' :: 'v' :: width).dropWhile Text.isDigit = 'b' :: 'v' :: width := by
    rw [List.dropWhile_append_of_pos (by simpa using Text.allOfDigits ofValue)]
    rfl
  simp only [Literal.readBitVector, taken, dropped, ofValue, ofWidth, Bool.and_self, if_true,
    Text.readWordDigits ofWidth, Text.decimalValueEq (Text.allOfDigits ofValue)]
  split <;> rfl

/-- How a float is read. One that is no number is refused only for its sizes; one that is a number may lack some of
its parts, but none is read that has not all of them. -/
inductive FloatLiteral.IsRead : List Char → Prop
  | special {mark value significandSize exponentSize} (mem : (mark, value) ∈ marks)
      (ofSignificand : Text.isDigits significandSize = true) (ofExponent : Text.isDigits exponentSize = true)
      (refused : read (specialText mark significandSize exponentSize) = none →
        Text.wordCount 32 ≤ Text.valueOf 10 significandSize ∨ Text.wordCount 32 ≤ Text.valueOf 10 exponentSize)
      (accepted : ∀ f, read (specialText mark significandSize exponentSize) = some f →
        f = ⟨value, Text.valueOf 10 significandSize, Text.valueOf 10 exponentSize⟩) :
      IsRead (specialText mark significandSize exponentSize)
  | finite {tail} (accepted : ∀ f, read ('0' :: 'x' :: tail) = some f →
        ∃ (p : FloatParts) (exponent : Int), p.Writes exponent ∧ p.IsHeld exponent ∧ p.text = '0' :: 'x' :: tail ∧
          f = p.literal exponent) :
      IsRead ('0' :: 'x' :: tail)

namespace Token

variable {text : List Char}

theorem WritesNumeral.isNatural (written : WritesNumeral .digits text) : Text.isDigits text = true := by
  cases written with
  | digits all => exact all

theorem WritesNumeral.isDecimal {k : Kind} (written : WritesNumeral k text) (sort : k = .decimal ∨ k = .fraction) :
    ∃ whole fraction shift, Decimal.Writes whole fraction shift text := by
  cases written with
  | decimal ofWhole ofExponent => exact ⟨_, [], _, .shifted ⟨.whole, ofWhole, rfl⟩ (.inl rfl) ofExponent.signed⟩
  | fraction ofWhole ofFraction => exact ⟨_, _, 0, .bare ⟨.fraction, ofWhole, Text.allOfDigits ofFraction⟩⟩
  | shifted ofWhole ofFraction ofExponent =>
    exact ⟨_, _, _, .shifted ⟨.fraction, ofWhole, Text.allOfDigits ofFraction⟩ (.inl rfl) ofExponent.signed⟩
  | digits | bitVector | hexadecimal | special => rcases sort with same | same <;> contradiction

theorem WritesNumeral.isBitVector (written : WritesNumeral .bitVector text) :
    ∃ value width, Text.isDigits value = true ∧ Text.isDigits width = true ∧ text = value ++ 'b' :: 'v' :: width := by
  cases written with
  | bitVector ofValue ofWidth => exact ⟨_, _, ofValue, ofWidth, rfl⟩

theorem WritesNumeral.isFloat (written : WritesNumeral .float text) : FloatLiteral.IsRead text := by
  cases written with
  | special mem ofSignificand ofExponent =>
    have read := FloatLiteral.readSpecialText mem ofSignificand ofExponent
    refine .special mem ofSignificand ofExponent (fun none => ?_) fun f found => ((read f).mp found).2
    refine Decidable.byContradiction fun held => ?_
    rw [not_or, Nat.not_le, Nat.not_le] at held
    rw [(read _).mpr ⟨held, rfl⟩] at none
    contradiction
  | hexadecimal ofWhole ofTail =>
    refine .finite fun f found => ?_
    obtain ⟨p, exponent, writes, same⟩ := FloatLiteral.hexWritten ofWhole ofTail found
    rw [same] at found
    obtain ⟨held, made⟩ := (p.read writes f).mp found
    exact ⟨p, exponent, writes, held, same.symm, made⟩

theorem numeralOfToken {t : Token} (mem : t ∈ (scan text).toList) {k : Kind} (kind : t.kind = k)
    (numeral : isNumeral k = true) (sound : k ≠ .invalid) : WritesNumeral k t.text.toList := by
  subst kind
  rcases List.mem_append.mp mem with inside | last
  · exact numeralOfCut (scanCut inside) numeral sound
  · rw [List.mem_singleton.mp last] at numeral
    contradiction

/-- In every text, each number that is found is read: digits always, a decimal unless its exponents go beyond 32 bits,
a bitvector unless its width does, and a float that is no number unless its sizes do. What is read is what the digits
denote, and that is natural. -/
theorem numbersRead (text : List Char) : ∀ t ∈ (scan text).toList,
    (t.kind = .digits → Text.readNat t.text.toList = some (Text.valueOf 10 t.text.toList)) ∧
    (t.kind = .decimal ∨ t.kind = .fraction →
      ∃ whole fraction shift, Decimal.IsRead t.text.toList whole fraction shift) ∧
    (t.kind = .bitVector → ∃ value width, Text.isDigits value = true ∧ Text.isDigits width = true ∧
      t.text.toList = value ++ 'b' :: 'v' :: width ∧ Literal.readBitVector t.text.toList =
        if Text.valueOf 10 width < Text.wordCount 32 then some (Text.valueOf 10 value, Text.valueOf 10 width) else none) ∧
    (t.kind = .float → FloatLiteral.IsRead t.text.toList) := by
  intro t mem
  refine ⟨fun kind => ?_, fun kind => ?_, fun kind => ?_, fun kind => ?_⟩
  · exact Text.readNatDigits (numeralOfToken mem kind rfl (by decide)).isNatural
  · have written : WritesNumeral t.kind t.text.toList := by
      refine numeralOfToken mem rfl ?_ ?_
      · rcases kind with same | same <;> rw [same] <;> rfl
      · rcases kind with same | same <;> rw [same] <;> decide
    obtain ⟨whole, fraction, shift, writes⟩ := written.isDecimal kind
    exact ⟨whole, fraction, shift, writes.isRead⟩
  · obtain ⟨value, width, ofValue, ofWidth, same⟩ := (numeralOfToken mem kind rfl (by decide)).isBitVector
    refine ⟨value, width, ofValue, ofWidth, same, ?_⟩
    rw [same, Literal.readWidth ofValue ofWidth]
  · exact (numeralOfToken mem kind rfl (by decide)).isFloat

theorem numberWithPointRead : ∃ t ∈ (scan ['1', '2', '.', '5', '0']).toList, t.kind = .fraction ∧
    ∃ whole fraction shift, Decimal.IsRead t.text.toList whole fraction shift := by
  have words : words ['1', '2', '.', '5', '0'] = [⟨.fraction, ['1', '2', '.', '5', '0']⟩] := by
    have whole : Text.isDigits ['1', '2'] = true := rfl
    have fraction : Text.isDigits ['5', '0'] = true := rfl
    have ends : startsWith endsNumber [] := trivial
    have alone := wordsFraction whole ends fraction
    rwa [wordsNil] at alone
  obtain ⟨t, scanned⟩ := scansAsIff.mpr words
  have mem : t ∈ (scan ['1', '2', '.', '5', '0']).toList := by
    rw [scanned.whole]
    exact List.mem_cons_self
  exact ⟨t, mem, scanned.kind, (numbersRead _ t mem).2.1 (.inr scanned.kind)⟩

theorem refusedForPlaces {fraction exponent : List Char} {shift : Int} (digits : Text.isDigits fraction = true)
    (written : Text.WritesInteger exponent shift) (many : ¬Text.HeldBy32 fraction.length) :
    ∃ t ∈ (scan (['0'] ++ '.' :: fraction ++ 'e' :: exponent)).toList, t.kind = .fraction ∧
      Decimal.Writes ['0'] fraction shift t.text.toList ∧ Decimal.read t.text.toList = none := by
  have whole : Text.isDigits ['0'] = true := rfl
  obtain ⟨t, scanned⟩ := (WritesNumeral.shifted whole digits written).alone
  have writes : Decimal.Writes ['0'] fraction shift t.text.toList := by
    rw [scanned.text]
    exact .shifted ⟨.fraction, whole, Text.allOfDigits digits⟩ (.inl rfl) written.signed
  exact ⟨t, by rw [scanned.whole]; exact List.mem_cons_self, scanned.kind, writes,
    writes.isRead.refused.mpr fun held => many held.places⟩

/-- Two thousand million places and more, with an exponent that makes up for them. -/
theorem placesBeyondBits : ∃ fraction shift, Text.HeldBy32 shift ∧ Text.HeldBy32 (shift - fraction.length) ∧
    ∃ text, ∃ t ∈ (scan text).toList, t.kind = .fraction ∧ Decimal.Writes ['0'] fraction shift t.text.toList ∧
      Decimal.read t.text.toList = none := by
  obtain ⟨fraction, digits, length⟩ := Text.digitsOfLength (by decide : 2147483648 ≠ 0)
  exact ⟨fraction, 2147483647, by decide, by rw [length]; decide, _,
    refusedForPlaces digits (Text.writesToString 2147483647) (by rw [length]; decide)⟩

end Token

end Boogie
