import Boogie.Proofs.Printed.Names
import Boogie.Proofs.Literal.Scanned
import Boogie.Proofs.Derived.Expr
import Mathlib.Data.List.Induction

/-! Printed literals. Numbers are printed in one way, whichever way they were written, and each is read back
as the number that it was. -/
namespace Boogie.Layout

open Token (Kind Word WritesNumeral startsWith endsNumber)
open Grammar (literalOf literalOfWord literalStart)

structure IsLegible (v : Literal) : Prop where
  flows : Flows .mark [.text v.text] .word
  word : ∃ w, (Piece.text v.text).words = [w] ∧ literalStart.contains w.kind = true ∧ literalOfWord w = some v

theorem literalSound {k : Kind} (sort : literalStart.contains k = true) : k.isTerminal = true := by
  refine bne_iff_ne.mpr ?_
  rintro rfl
  exact absurd sort (by decide)

structure IsWorded (v : Literal) (w : Word) : Prop where
  flows : Flows .mark [.text v.text] .word
  alone : (Piece.text v.text).words = [w]
  sort : literalStart.contains w.kind = true

theorem wordedOf {v : Literal} {w : Word} (spelled : v.text.toList = w.text)
    (begins : w.text.head?.any Edge.mark.allows = true) (sort : literalStart.contains w.kind = true)
    (words : ∀ rest, startsWith endsNumber rest → Token.words (w.text ++ rest) = w :: Token.words rest) :
    IsWorded v w := by
  have alone : (Piece.text v.text).words = [w] := by
    have nothing : startsWith endsNumber [] := trivial
    have whole := words [] nothing
    rw [List.append_nil, Token.wordsNil, ← spelled] at whole
    exact whole
  refine ⟨.piece (fun rest _ => ?_) (fun rest ends => ?_) ?_, alone, sort⟩
  · show startsWith _ (v.text.toList ++ rest)
    rw [spelled]
    exact startsOfHead begins rest
  · rw [alone]
    show Token.words (v.text.toList ++ rest) = _
    rw [spelled]
    exact words rest (endsNumberOfWord ends)
  · simpa [alone] using literalSound sort

theorem legibleOf {v : Literal} {w : Word} (spelled : v.text.toList = w.text)
    (begins : w.text.head?.any Edge.mark.allows = true) (sort : literalStart.contains w.kind = true)
    (read : literalOfWord w = some v)
    (words : ∀ rest, startsWith endsNumber rest → Token.words (w.text ++ rest) = w :: Token.words rest) :
    IsLegible v :=
  have worded := wordedOf spelled begins sort words
  ⟨worded.flows, w, worded.alone, sort, read⟩

def literalWords : List Kind :=
  [.kwFalse, .kwTrue, .nearestEven, .nearestAway, .towardPositive, .towardNegative, .towardZero]

theorem literalWordsFit : ∀ k ∈ literalWords, k.isWord = true ∧
    k.spelling.toList.head?.any Edge.mark.allows = true ∧ literalStart.contains k = true := by decide +kernel

theorem legibleWord {v : Literal} (k : Kind) (known : k ∈ literalWords) (spelled : v.text = k.spelling)
    (read : literalOfWord (.of k) = some v) : IsLegible v := by
  obtain ⟨isWord, begins, sort⟩ := literalWordsFit k known
  refine legibleOf (w := .of k) (congrArg String.toList spelled) begins sort read fun rest here => ?_
  refine Token.wordsOfKind ?_ (Token.startsWithMono (fun c stops => ?_) here)
  · simpa using (Bool.and_eq_true_iff.mp isWord).1
  · simpa [Kind.endsBefore, isWord] using Token.endsNumberPart stops

theorem legibleBool (b : Bool) : IsLegible (.bool b) := by
  cases b with
  | false => exact legibleWord .kwFalse (by decide) rfl rfl
  | true => exact legibleWord .kwTrue (by decide) rfl rfl

theorem legibleRounding (mode : RoundingMode) : IsLegible (.rounding mode) := by
  cases mode with
  | nearestEven => exact legibleWord .nearestEven (by decide) rfl rfl
  | nearestAway => exact legibleWord .nearestAway (by decide) rfl rfl
  | towardPositive => exact legibleWord .towardPositive (by decide) rfl rfl
  | towardNegative => exact legibleWord .towardNegative (by decide) rfl rfl
  | towardZero => exact legibleWord .towardZero (by decide) rfl rfl

theorem digitAllowed {c : Char} (digit : Text.isDigit c = true) : Edge.mark.allows c = true := by
  refine Bool.and_eq_true_iff.mpr ⟨bne_iff_ne.mpr ?_, bne_iff_ne.mpr ?_⟩ <;> rintro rfl <;>
    exact absurd digit (by decide)

theorem wordedNumeral {v : Literal} {k : Kind} (written : WritesNumeral k v.text.toList)
    (sort : literalStart.contains k = true) : IsWorded v ⟨k, v.text.toList⟩ := by
  refine wordedOf rfl ?_ sort fun rest ends => written.words ends
  have starts := written.starts
  cases first : v.text.toList.head? with
  | none => simp [first] at starts
  | some c => exact digitAllowed (by simpa [first] using starts)

theorem legibleNumeral {v : Literal} {k : Kind} (written : WritesNumeral k v.text.toList)
    (sort : literalStart.contains k = true) (read : literalOfWord ⟨k, v.text.toList⟩ = some v) : IsLegible v :=
  have worded := wordedNumeral written sort
  ⟨worded.flows, _, worded.alone, sort, read⟩

theorem naturalDigits (n : Nat) : (toString (n : Int)).toList = Nat.toDigits 10 n := by
  rw [Text.intDigits, if_neg (by omega)]
  rfl

theorem legibleInt (n : Nat) : IsLegible (.int n) := by
  have sort : literalStart.contains .digits = true := by decide
  have printed : (Literal.int n).text.toList = Nat.toDigits 10 n := naturalDigits n
  refine legibleNumeral (printed ▸ .digits (Text.isDigitsToDigits n)) sort ?_
  simp [literalOfWord, literalOf, printed, Text.readNatToDigits]

theorem legibleBitVector (value : Nat) {width : Nat} (less : width < Text.wordCount 32) :
    IsLegible (.bitVector value width) := by
  have ofValue := Text.isDigitsToDigits value
  have ofWidth := Text.isDigitsToDigits width
  have sort : literalStart.contains .bitVector = true := by decide
  have printed : (Literal.bitVector value width).text.toList =
      Nat.toDigits 10 value ++ 'b' :: 'v' :: Nat.toDigits 10 width := by
    rw [Literal.text, String.toList_append, String.toList_append, naturalDigits, Text.toStringDigits, List.append_assoc]
    rfl
  refine legibleNumeral (printed ▸ .bitVector ofValue ofWidth) sort ?_
  simp [literalOfWord, literalOf, printed, Literal.readWidth ofValue ofWidth, Text.valueToDigits, less]

theorem readExponent (n : Nat) {exponent : Int} (held : Text.fitsInteger 32 exponent = true) :
    Decimal.read (Nat.toDigits 10 n ++ 'e' :: (toString exponent).toList) = some ⟨n, exponent⟩ := by
  have signed := (Text.writesToString exponent).signed
  have none : exponent - ([] : List Char).length = exponent := Int.sub_zero exponent
  have held := (Text.fitsInteger32 exponent).mp held
  refine Decimal.readIff.mpr ⟨_, [], exponent, .shifted ⟨.whole, Text.isDigitsToDigits n, rfl⟩ (.inl rfl) signed, ?_, ?_⟩
  · exact ⟨held, by decide, by rwa [none]⟩
  · rw [Decimal.assembled, none, List.append_nil, Text.decimalValueToDigits]

theorem fitsOfLess {n : Nat} (less : n < Text.wordCount 31) : Text.fitsInteger 32 n = true := by
  have natural : -(Text.wordCount 31 : Int) ≤ n := by omega
  simp [Text.fitsInteger, natural, less]

theorem fitsNegative {n : Nat} (less : n < Text.wordCount 31) : Text.fitsInteger 32 (-n) = true := by
  have low : -(Text.wordCount 31 : Int) ≤ -n := by omega
  have high : -(n : Int) < Text.wordCount 31 := by omega
  simp [Text.fitsInteger, low, high]

theorem readPoint {n : Nat} {whole fraction : List Char} (same : whole ++ fraction = Nat.toDigits 10 n)
    (ne : whole ≠ []) (less : fraction.length < Text.wordCount 31) :
    Decimal.read (whole ++ '.' :: fraction) = some ⟨n, -fraction.length⟩ := by
  have all := Text.allDigits n
  rw [← same, List.all_append, Bool.and_eq_true] at all
  have ofWhole : Text.isDigits whole = true := by simp [Text.isDigits, all.1, ne]
  have places := (Text.fitsInteger32 _).mp (fitsOfLess less)
  have moved := (Text.fitsInteger32 _).mp (fitsNegative less)
  refine Decimal.readIff.mpr ⟨whole, fraction, 0, .bare ⟨.fraction, ofWhole, all.2⟩, ?_, ?_⟩
  · exact ⟨by decide, places, by rwa [Int.zero_sub]⟩
  · rw [Decimal.assembled, same, Text.decimalValueToDigits, Int.zero_sub]

theorem printedDecimal (n : Nat) (exponent : Int) :
    (∃ whole fraction, whole ++ fraction = Nat.toDigits 10 n ∧ whole ≠ [] ∧ fraction ≠ [] ∧
      exponent = -fraction.length ∧ (Decimal.text ⟨n, exponent⟩).toList = whole ++ '.' :: fraction) ∨
    (Decimal.text ⟨n, exponent⟩).toList = Nat.toDigits 10 n ++ 'e' :: (toString exponent).toList := by
  have digits := naturalDigits n
  by_cases pointed : exponent < 0 ∧ (n : Int) ≠ 0 ∧ (-exponent).toNat < (toString (n : Int)).length
  · have within := pointed.2.2
    rw [← String.length_toList, digits] at within
    have negative := pointed.1
    let cut := (Nat.toDigits 10 n).length - (-exponent).toNat
    have length : ((Nat.toDigits 10 n).drop cut).length = (-exponent).toNat := by
      rw [List.length_drop]
      omega
    refine .inl ⟨_, _, List.take_append_drop cut _, List.ne_nil_of_length_pos ?_, List.ne_nil_of_length_pos ?_,
      by omega, ?_⟩
    · rw [List.length_take]
      omega
    · omega
    · simp only [Decimal.text]
      rw [if_pos pointed, String.toList_ofList, ← String.length_toList, digits]
  · refine .inr ?_
    simp only [Decimal.text, if_neg pointed]
    rw [String.toList_append, String.toList_append, digits, List.append_assoc]
    rfl

theorem decimalWritten (n : Nat) (exponent : Int) : ∃ k, (k = .decimal ∨ k = .fraction) ∧
    WritesNumeral k (Decimal.text ⟨n, exponent⟩).toList := by
  rcases printedDecimal n exponent with ⟨whole, fraction, same, ne, some, _, printed⟩ | printed
  · have all := Text.allDigits n
    rw [← same, List.all_append, Bool.and_eq_true] at all
    have ofWhole : Text.isDigits whole = true := by simp [Text.isDigits, all.1, ne]
    have ofFraction : Text.isDigits fraction = true := by simp [Text.isDigits, all.2, some]
    exact ⟨.fraction, .inr rfl, printed ▸ .fraction ofWhole ofFraction⟩
  · exact ⟨.decimal, .inl rfl, printed ▸ .decimal (Text.isDigitsToDigits n) (Text.writesToString exponent)⟩

theorem decimalRead {n : Nat} {exponent : Int} (held : Text.fitsInteger 32 exponent = true)
    (counted : (Nat.toDigits 10 n).length < Text.wordCount 31) :
    Decimal.read (Decimal.text ⟨n, exponent⟩).toList = some ⟨n, exponent⟩ := by
  rcases printedDecimal n exponent with ⟨whole, fraction, same, ne, some, places, printed⟩ | printed
  · have less := congrArg List.length same
    rw [List.length_append] at less
    rw [printed, places]
    exact readPoint same ne (by omega)
  · rw [printed]
    exact readExponent n held

theorem decimalSort {k : Kind} (sort : k = .decimal ∨ k = .fraction) : literalStart.contains k = true := by
  rcases sort with rfl | rfl <;> decide

theorem wordedDecimal (n : Nat) (exponent : Int) : ∃ w, IsWorded (.real ⟨n, exponent⟩) w := by
  obtain ⟨k, sort, written⟩ := decimalWritten n exponent
  exact ⟨_, wordedNumeral written (decimalSort sort)⟩

theorem legibleDecimal {n : Nat} {exponent : Int} (held : Text.fitsInteger 32 exponent = true)
    (counted : (Nat.toDigits 10 n).length < Text.wordCount 31) : IsLegible (.real ⟨n, exponent⟩) := by
  obtain ⟨k, sort, written⟩ := decimalWritten n exponent
  have read := decimalRead held counted
  refine legibleNumeral written (decimalSort sort) ?_
  rcases sort with rfl | rfl <;> simp [literalOfWord, literalOf, Literal.text, read]

structure FloatLiteral.IsShown (f : FloatLiteral) : Prop where
  written : WritesNumeral .float f.text.toList
  read : FloatLiteral.read f.text.toList = some f

theorem shownFinite {n places significandSize exponentSize : Nat} {exponent : Int} (filled : places ≠ 0)
    (less : places < Text.wordCount 32) (held : Text.fitsInteger 64 exponent = true)
    (ofSignificand : significandSize < Text.wordCount 32) (ofExponent : exponentSize < Text.wordCount 32) :
    FloatLiteral.IsShown ⟨.finite n places exponent, significandSize, exponentSize⟩ := by
  obtain ⟨p, writes, printed, same⟩ := FloatLiteral.printedFinite n filled exponent significandSize exponentSize
  obtain ⟨finite, size, size'⟩ := FloatLiteral.mk.inj same
  have counted : p.fraction.length = places := (FloatValue.finite.inj finite).2.1
  refine ⟨printed ▸ .ofParts writes, ?_⟩
  rw [printed, p.read writes, same]
  exact ⟨⟨held, by rwa [size], by rwa [size'], by rwa [counted]⟩, rfl⟩

theorem shownSpecial {value : FloatValue} (special : ∀ significand places exponent,
    value ≠ .finite significand places exponent) {significandSize exponentSize : Nat}
    (ofSignificand : significandSize < Text.wordCount 32) (ofExponent : exponentSize < Text.wordCount 32) :
    FloatLiteral.IsShown ⟨value, significandSize, exponentSize⟩ := by
  obtain ⟨mark, mem, printed⟩ := FloatLiteral.printedSpecial special significandSize exponentSize
  have size := Text.isDigitsToDigits significandSize
  have size' := Text.isDigitsToDigits exponentSize
  refine ⟨printed ▸ .special mem size size', ?_⟩
  rw [printed, FloatLiteral.readSpecialText mem size size']
  simp only [Text.valueToDigits]
  exact ⟨⟨ofSignificand, ofExponent⟩, trivial⟩

def isQuotable (content : String) : Prop :=
  Token.stringLength 1 (content.toList ++ ['"']) = (content.toList.length + 2, true)

def quoted (content : String) : List Char := '"' :: (content.toList ++ ['"'])

theorem contentOfQuoted (content : String) : Literal.stringContent (String.ofList (quoted content)) = content := by
  simp [Literal.stringContent, quoted]

theorem wordsQuoted {content : String} (ok : isQuotable content) (rest : List Char) :
    Token.words (quoted content ++ rest) = ⟨.string, quoted content⟩ :: Token.words rest := by
  have closed : (Token.stringLength 1 ((content.toList ++ ['"']) ++ [])).2 = true := by
    rw [List.append_nil, ok]
  have within : (Token.stringLength 1 ((content.toList ++ ['"']) ++ [])).1 ≤ 1 + (content.toList ++ ['"']).length := by
    rw [List.append_nil, ok, List.length_append, List.length_singleton]
    omega
  have same := Token.stringWithin rest closed within
  rw [List.append_nil, ok] at same
  refine Token.wordsToken ?_
  show Token.Lexeme.mk (.token (if _ then _ else _)) _ = _
  rw [same]
  simp

theorem legibleString {content : String} (ok : isQuotable content) : IsLegible (.string content) := by
  have sort : literalStart.contains .string = true := by decide
  refine legibleOf (w := ⟨.string, quoted content⟩) ?_ rfl sort ?_ fun rest _ => wordsQuoted ok rest
  · simp only [Literal.text, String.toList_append]
    rfl
  · simp only [literalOfWord, literalOf, contentOfQuoted]

theorem closedContent {count : Nat} {text : List Char} (closed : (Token.stringLength count text).2 = true) :
    ∃ content tail, text = content ++ '"' :: tail ∧ '\n' ∉ content ∧
      (Token.stringLength count text).1 = count + content.length + 1 := by
  fun_induction Token.stringLength count text with
  | case1 count rest => exact ⟨[], rest, rfl, List.not_mem_nil, rfl⟩
  | case3 count c rest plain ih =>
    obtain ⟨content, tail, rfl, within, length⟩ := ih closed
    exact ⟨'\\' :: c :: content, tail, rfl, by simp [within, Ne.symm plain], by rw [length]; simp; omega⟩
  | case6 count c rest _ _ _ plain ih =>
    obtain ⟨content, tail, rfl, within, length⟩ := ih closed
    exact ⟨c :: content, tail, rfl, by simp [within, Ne.symm plain], by rw [length]; simp; omega⟩
  | case2 => contradiction
  | case4 => contradiction
  | case5 => contradiction
  | case7 => contradiction

theorem quotablePlain {content : String} (ok : isQuotable content) : '\n' ∉ content.toList := by
  have closed : (Token.stringLength 1 (content.toList ++ ['"'])).2 = true := by rw [ok]
  obtain ⟨within, tail, same, plain, length⟩ := closedContent closed
  rw [ok] at length
  have count : within.length = content.toList.length := by
    simp only at length
    omega
  rwa [(List.append_inj same count.symm).1]

theorem quotableOfClosed {content tail : List Char}
    (closed : (Token.stringLength 1 (content ++ '"' :: tail)).2 = true)
    (length : (Token.stringLength 1 (content ++ '"' :: tail)).1 = 1 + content.length + 1) :
    isQuotable (String.ofList content) := by
  rw [List.append_cons] at closed length
  have within : (Token.stringLength 1 ((content ++ ['"']) ++ tail)).1 ≤ 1 + (content ++ ['"']).length := by
    rw [length, List.length_append, List.length_singleton]
    omega
  have same := Token.stringWithin [] closed within
  rw [List.append_nil] at same
  rw [isQuotable, String.toList_ofList, same]
  exact Prod.ext (by rw [length]; omega) closed

theorem quotableOfCut {text : List Char} {t : Token} (cut : Token.IsCut text (Token.word t))
    (kind : t.kind = .string) : isQuotable (Literal.stringContent t.text) := by
  obtain ⟨c, rest, _, role, spelled⟩ := cut
  rw [show (Token.word t).kind = .string from kind] at role
  rcases Token.lexemeOfClass role (by decide) with ⟨_, number⟩ | ⟨rfl, _, closed⟩
  · obtain ⟨k, role', numeral⟩ := Token.numberRole (c :: rest)
    rw [number] at role'
    cases role'
    contradiction
  · obtain ⟨content, tail, rfl, _, length⟩ := closedContent closed
    have lexeme : (Token.lexeme '"' (content ++ '"' :: tail)).length = 1 + content.length + 1 := length
    have count : 1 + content.length = (content ++ ['"']).length := by
      rw [List.length_append, List.length_singleton, Nat.add_comm]
    have whole : t.text.toList = quoted (String.ofList content) := by
      refine spelled.trans ?_
      rw [Token.taken, lexeme, Nat.add_sub_cancel, count, List.append_cons content '"' tail, List.take_left, quoted,
        String.toList_ofList]
    rw [← String.ofList_toList (s := t.text), whole, contentOfQuoted]
    exact quotableOfClosed closed length

theorem digitsOfDecimal {digits : List Char} (filled : digits ≠ []) (all : digits.all Text.isDigit = true) :
    (Nat.toDigits 10 (Text.decimalValue digits)).length ≤ digits.length := by
  have less : Text.decimalValue digits < 10 ^ digits.length := by
    clear filled
    induction digits using List.reverseRecOn with
    | nil => decide
    | append_singleton digits c ih =>
      rw [List.all_append, Bool.and_eq_true] at all
      have digit : Text.isDigit c = true := by simpa using all.2
      have less : c.toNat - '0'.toNat < 10 := by
        simp only [Text.isDigit, Bool.and_eq_true, decide_eq_true_eq] at digit
        have high : c.toNat ≤ '9'.toNat := digit.2
        have zero : '9'.toNat = '0'.toNat + 9 := by decide
        omega
      have before := ih all.1
      rw [Text.decimalValueSnoc, List.length_append, List.length_singleton, Nat.pow_succ]
      omega
  exact (Nat.length_toDigits_le_iff (by decide) (List.length_pos_iff.mpr filled)).mpr less

theorem decimalShape {text : List Char} {d : Decimal} (h : Decimal.read text = some d) :
    ∃ n : Nat, d.mantissa = n ∧ Text.fitsInteger 32 d.exponent = true ∧
      (Nat.toDigits 10 n).length ≤ text.length := by
  obtain ⟨whole, fraction, shift, writes, held, rfl⟩ := Decimal.readIff.mp h
  obtain ⟨number, pointed, length⟩ := writes.inFront
  have filled : whole ++ fraction ≠ [] := by
    have some := Token.digitsNe pointed.filled
    exact List.ne_nil_of_length_pos (by rw [List.length_append]; omega)
  have all : (whole ++ fraction).all Text.isDigit = true := by
    rw [List.all_append, pointed.wholeDigits, pointed.digits]
    rfl
  refine ⟨_, rfl, (Text.fitsInteger32 _).mpr held.moved, Nat.le_trans (digitsOfDecimal filled all) ?_⟩
  rw [List.length_append]
  exact Nat.le_trans pointed.lengthLe length

theorem legibleShaped {text whole : List Char} {d : Decimal} (within : text.length ≤ whole.length)
    (short : whole.length < Text.wordCount 31) (h : Decimal.read text = some d) : IsLegible (.real d) := by
  obtain ⟨mantissa, exponent⟩ := d
  obtain ⟨n, same, held, counted⟩ := decimalShape h
  cases same
  exact legibleDecimal held (by omega)

theorem lengthOfCut {text : List Char} {w : Word} (cut : Token.IsCut text w) : w.text.length ≤ text.length := by
  obtain ⟨c, rest, suffix, _, same⟩ := cut
  rw [same, Token.taken, List.length_cons]
  have inside := suffix.length_le
  have taken := (List.take_sublist ((Token.lexeme c rest).length - 1) rest).length_le
  rw [List.length_cons] at inside
  omega

theorem bitVectorShape {text : List Char} {value width : Nat}
    (h : Literal.readBitVector text = some (value, width)) : width < Text.wordCount 32 := by
  unfold Literal.readBitVector at h
  simp only at h
  split at h
  · split at h
    · obtain ⟨w, read, same⟩ := Option.map_eq_some_iff.mp h
      cases same
      simpa using (Option.filter_eq_some_iff.mp read).2
    · contradiction
  · contradiction

/-- The parts of a float are natural or held by as many bits as they may have. -/
def FloatLiteral.isHeld (f : FloatLiteral) : Prop :=
  f.significandSize < Text.wordCount 32 ∧ f.exponentSize < Text.wordCount 32 ∧
    match f.value with
    | .finite significand places exponent =>
      (∃ n : Nat, significand = n) ∧ places ≠ 0 ∧ places < Text.wordCount 32 ∧ Text.fitsInteger 64 exponent = true
    | _ => True

theorem heldSpecial {value : FloatValue} (special : ∀ significand places exponent,
    value ≠ .finite significand places exponent) {significandSize exponentSize : Nat}
    (size : significandSize < Text.wordCount 32) (size' : exponentSize < Text.wordCount 32) :
    FloatLiteral.isHeld ⟨value, significandSize, exponentSize⟩ := by
  refine ⟨size, size', ?_⟩
  cases value with
  | finite significand places exponent => exact absurd rfl (special significand places exponent)
  | notANumber | positiveInfinity | negativeInfinity => trivial

theorem shownFloat {f : FloatLiteral} (held : FloatLiteral.isHeld f) : FloatLiteral.IsShown f := by
  obtain ⟨value, significandSize, exponentSize⟩ := f
  obtain ⟨ofSignificand, ofExponent, parts⟩ := held
  cases value with
  | finite significand places exponent =>
    obtain ⟨⟨n, rfl⟩, filled, less, fits⟩ := parts
    exact shownFinite filled less fits ofSignificand ofExponent
  | notANumber => exact shownSpecial (by simp) ofSignificand ofExponent
  | positiveInfinity => exact shownSpecial (by simp) ofSignificand ofExponent
  | negativeInfinity => exact shownSpecial (by simp) ofSignificand ofExponent

theorem legibleFloat {f : FloatLiteral} (held : FloatLiteral.isHeld f) : IsLegible (.float f) := by
  obtain ⟨written, read⟩ := shownFloat held
  have sort : literalStart.contains .float = true := by decide
  refine legibleNumeral written sort ?_
  simp [literalOfWord, literalOf, Literal.text, read]

theorem heldOfCut {text : List Char} {t : Token} (cut : Token.IsCut text (Token.word t)) (kind : t.kind = .float)
    {f : FloatLiteral} (read : FloatLiteral.read t.text.toList = some f) : FloatLiteral.isHeld f := by
  have written : WritesNumeral .float t.text.toList := by
    have kind : (Token.word t).kind = .float := kind
    have numeral := Token.numeralOfCut cut (by rw [kind]; rfl) (by rw [kind]; decide)
    rwa [kind] at numeral
  generalize t.text.toList = spelled at written read
  cases written with
  | special mem ofSignificand ofExponent =>
    obtain ⟨⟨size, size'⟩, rfl⟩ := (FloatLiteral.readSpecialText mem ofSignificand ofExponent f).mp read
    exact heldSpecial (FloatLiteral.marksSpecial _ mem) size size'
  | hexadecimal ofWhole ofTail =>
    obtain ⟨p, exponent, writes, same⟩ := FloatLiteral.hexWritten ofWhole ofTail read
    rw [same] at read
    obtain ⟨held, rfl⟩ := (p.read writes f).mp read
    have filled := (Text.isHexDigitsIff.mp writes.ofFraction).1
    exact ⟨held.significandSize, held.exponentSize, ⟨_, rfl⟩, fun none => filled (List.length_eq_zero_iff.mp none),
      held.places, held.exponent⟩

theorem legibleOrDecimal {text : List Char} {t : Token} (cut : Token.IsCut text (Token.word t)) {v : Literal}
    (read : literalOf t = some v) : IsLegible v ∨ ∃ d, Decimal.read t.text.toList = some d ∧ v = .real d := by
  unfold literalOf at read
  split at read
  · cases read
    exact .inl (legibleBool true)
  · cases read
    exact .inl (legibleBool false)
  · obtain ⟨_, counted, rfl⟩ := Option.map_eq_some_iff.mp read
    obtain ⟨n, _, same⟩ := Option.bind_eq_some_iff.mp counted
    cases same
    exact .inl (legibleInt n)
  · obtain ⟨d, found, rfl⟩ := Option.map_eq_some_iff.mp read
    exact .inr ⟨d, found, rfl⟩
  · obtain ⟨d, found, rfl⟩ := Option.map_eq_some_iff.mp read
    exact .inr ⟨d, found, rfl⟩
  · rename_i kind
    obtain ⟨f, found, rfl⟩ := Option.map_eq_some_iff.mp read
    exact .inl (legibleFloat (heldOfCut cut kind found))
  · obtain ⟨⟨value, width⟩, found, rfl⟩ := Option.map_eq_some_iff.mp read
    exact .inl (legibleBitVector value (bitVectorShape found))
  · rename_i kind
    cases read
    exact .inl (legibleString (quotableOfCut cut kind))
  · obtain ⟨mode, _, rfl⟩ := Option.map_eq_some_iff.mp read
    exact .inl (legibleRounding mode)

theorem legibleOfCut {text : List Char} {t : Token} (cut : Token.IsCut text (Token.word t))
    (short : text.length < Text.wordCount 31) {v : Literal} (read : literalOf t = some v) : IsLegible v := by
  rcases legibleOrDecimal cut read with legible | ⟨d, found, rfl⟩
  · exact legible
  · exact legibleShaped (lengthOfCut cut) short found

theorem wordedOfCut {text : List Char} {t : Token} (cut : Token.IsCut text (Token.word t)) {v : Literal}
    (read : literalOf t = some v) : ∃ w, IsWorded v w := by
  rcases legibleOrDecimal cut read with ⟨flows, w, alone, sort, _⟩ | ⟨⟨mantissa, exponent⟩, found, rfl⟩
  · exact ⟨w, flows, alone, sort⟩
  · obtain ⟨n, rfl, _⟩ := decimalShape found
    exact wordedDecimal n exponent

end Boogie.Layout
