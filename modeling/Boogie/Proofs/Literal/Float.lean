import Boogie.Literal.Float
import Boogie.Proofs.Literal.Shape
import Boogie.Proofs.Text.Values
import Boogie.Proofs.Token.Numbers

/-! How floats are written: `0xI.FeXfSeE`, or a mark for what is no number and `SeE`. What is written so is scanned as
one word and read field by field, as long as each number is held by as many bits as it may have. The letters that
divide the fields are hexadecimal digits as well; there are none in the fields that are cut off from the right. -/
namespace Boogie

namespace Text

theorem WritesInteger.signed {text : List Char} {n : Int} (h : WritesInteger text n) : WritesSigned text n := by
  cases h with
  | natural all =>
    rw [← decimalValueEq (allOfDigits all)]
    exact .plain all
  | negative all =>
    rw [← decimalValueEq (allOfDigits all)]
    exact .minus all

theorem WritesInteger.plain {text : List Char} {n : Int} (h : WritesInteger text n) {mark : Char}
    (other : isDigit mark = false) (noSign : mark ≠ '-') : text.all (fun c => !(c == mark)) = true := by
  cases h with
  | natural all => exact digitsPlain (allOfDigits all) (digitNotMark other)
  | negative all =>
    rw [List.all_cons, digitsPlain (allOfDigits all) (digitNotMark other), beq_eq_false_iff_ne.mpr noSign.symm]
    rfl

theorem readIntegerWritten {text : List Char} {n : Int} (h : WritesInteger text n) (bits : Nat) :
    readInteger bits text = if fitsInteger bits n = true then some n else none := by
  rw [readInteger, readSignedIff.mpr h.signed, Option.filter_some]

theorem WritesSigned.integer {text : List Char} {n : Int} (h : WritesSigned text n) (plus : '+' ∉ text) :
    WritesInteger text n := by
  cases h with
  | plain all =>
    rw [decimalValueEq (allOfDigits all)]
    exact .natural all
  | plus all => exact absurd List.mem_cons_self plus
  | minus all =>
    rw [decimalValueEq (allOfDigits all)]
    exact .negative all

theorem digitsOfWord {bits : Nat} {text : List Char} {n : Nat} (read : readWord bits text = some n)
    (plus : '+' ∉ text) : isDigits text = true := by
  have read := (Option.filter_eq_some_iff.mp read).1
  unfold readUnsigned at read
  split at read
  · exact absurd List.mem_cons_self plus
  · exact (readNatIff.mp read).1

theorem cutLastSome {mark : Char} {text pre post : List Char} (cut : cutLast (· == mark) text = some (pre, post)) :
    text = pre ++ mark :: post := by
  obtain ⟨⟨after, before⟩, found, same⟩ := Option.map_eq_some_iff.mp cut
  cases same
  obtain ⟨c, marked, _, whole⟩ := cutFirstIff.mp found
  rw [← List.reverse_reverse text, whole, beq_iff_eq.mp marked]
  simp

theorem partOfHex {c : Char} (hex : isHexDigit c = true) : (isLetter c || isDigit c) = true := by
  simp only [isHexDigit, isLetter, Bool.or_eq_true, Bool.and_eq_true, decide_eq_true_eq] at hex ⊢
  rcases hex with (digit | ⟨low, high⟩) | ⟨low, high⟩
  · exact .inr digit
  · exact .inl (.inl ⟨low, Nat.le_trans high (by decide : 'f'.toNat ≤ 'z'.toNat)⟩)
  · exact .inl (.inr ⟨low, Nat.le_trans high (by decide : 'F'.toNat ≤ 'Z'.toNat)⟩)

end Text

namespace Token

def isHexTail : Char → List Char → Bool
  | _, [] => true
  | last, c :: rest => (Text.isLetter c || Text.isDigit c || (c == '-' && last == 'e')) && isHexTail c rest

theorem hexTailLengthOf {text rest : List Char} (ends : startsWith endsNumber rest) {last : Char} (count : Nat)
    (all : isHexTail last text = true) : hexTailLength last count (text ++ rest) = count + text.length := by
  induction text generalizing last count with
  | nil =>
    cases rest with
    | nil => rfl
    | cons c rest =>
      have part := endsNumberPart ends
      have sign := (endsNumberSign ends).2
      simp only [isNamePart, isNameStart, Bool.or_eq_false_iff] at part
      simp [hexTailLength, part.1.1, part.2, sign]
  | cons c text ih =>
    obtain ⟨here, more⟩ := Bool.and_eq_true_iff.mp all
    rw [List.cons_append, hexTailLength, if_pos here, ih (count + 1) more, List.length_cons]
    omega

theorem hexTailAppend {last : Char} {text more : List Char}
    (all : ∀ c ∈ text, (Text.isLetter c || Text.isDigit c) = true) (behind : ∀ last, isHexTail last more = true) :
    isHexTail last (text ++ more) = true := by
  induction text generalizing last with
  | nil => exact behind last
  | cons c text ih =>
    obtain ⟨here, others⟩ := List.forall_mem_cons.mp all
    rw [List.cons_append, isHexTail, ih others, here]
    rfl

theorem hexTailPlain {mark : Char} (letter : Text.isLetter mark = false) (digit : Text.isDigit mark = false)
    (sign : mark ≠ '-') {last : Char} {text : List Char} (tail : isHexTail last text = true) : mark ∉ text := by
  induction text generalizing last with
  | nil => exact List.not_mem_nil
  | cons c text ih =>
    obtain ⟨here, more⟩ := Bool.and_eq_true_iff.mp tail
    rw [List.mem_cons, not_or]
    refine ⟨?_, ih more⟩
    rintro rfl
    simp [letter, digit, sign] at here

theorem hexTailDigits {last : Char} {digits more : List Char} (all : Text.isDigits digits = true)
    (behind : ∀ last, isHexTail last more = true) : isHexTail last (digits ++ more) = true := by
  refine hexTailAppend (fun c mem => ?_) behind
  rw [List.all_eq_true.mp (Text.allOfDigits all) c mem, Bool.or_true]

theorem hexTailInteger {text more : List Char} {n : Int} (written : Text.WritesInteger text n)
    (behind : ∀ last, isHexTail last more = true) : isHexTail 'e' (text ++ more) = true := by
  cases written with
  | natural all => exact hexTailDigits all behind
  | negative all =>
    show isHexTail '-' (_ ++ more) = true
    exact hexTailDigits all behind

theorem wordsFinite {whole tail rest : List Char} (ofWhole : whole.all Text.isHexDigit = true) (ne : whole ≠ [])
    (ofTail : isHexTail '.' tail = true) (ends : startsWith endsNumber rest) :
    words ('0' :: 'x' :: (whole ++ '.' :: tail) ++ rest) =
      ⟨.float, '0' :: 'x' :: (whole ++ '.' :: tail)⟩ :: words rest := by
  have digits : run Text.isHexDigit (whole ++ '.' :: (tail ++ rest)) = whole.length :=
    runEnds ofWhole (rfl : startsWith (fun c => !Text.isHexDigit c) ('.' :: (tail ++ rest)))
  have filled : whole.length ≠ 0 := by simpa using ne
  have read : hexFloat (whole ++ '.' :: (tail ++ rest)) = some ⟨.token .float, whole.length + 3 + tail.length⟩ := by
    simp only [hexFloat, digits, List.drop_left]
    simp [filled, hexTailLengthOf ends 0 ofTail]
  refine wordsNumber rfl ?_
  simp only [List.cons_append, List.append_assoc, number, floatNumber, read, Option.getD_some, List.length_cons,
    List.length_append]
  congr 1
  omega

end Token

structure FloatParts where
  whole : List Char
  fraction : List Char
  exponent : List Char
  significandSize : List Char
  exponentSize : List Char

namespace FloatParts

def tail (p : FloatParts) : List Char :=
  p.fraction ++ 'e' :: (p.exponent ++ 'f' :: (p.significandSize ++ 'e' :: p.exponentSize))

def text (p : FloatParts) : List Char := '0' :: 'x' :: (p.whole ++ '.' :: p.tail)

/-- `I` and `F` are hexadecimal digits, `X` is the exponent with a minus sign or without one, `S` and `E` are digits. -/
structure Writes (p : FloatParts) (exponent : Int) : Prop where
  ofWhole : Text.isHexDigits p.whole = true
  ofFraction : Text.isHexDigits p.fraction = true
  ofExponent : Text.WritesInteger p.exponent exponent
  ofSignificandSize : Text.isDigits p.significandSize = true
  ofExponentSize : Text.isDigits p.exponentSize = true

/-- What is held by a fixed number of bits: the exponent, the two sizes and the number of places behind the point. -/
structure IsHeld (p : FloatParts) (exponent : Int) : Prop where
  exponent : Text.fitsInteger 64 exponent = true
  significandSize : Text.valueOf 10 p.significandSize < Text.wordCount 32
  exponentSize : Text.valueOf 10 p.exponentSize < Text.wordCount 32
  places : p.fraction.length < Text.wordCount 32

def literal (p : FloatParts) (exponent : Int) : FloatLiteral :=
  ⟨.finite (Text.valueOf 16 (p.whole ++ p.fraction)) p.fraction.length exponent, Text.valueOf 10 p.significandSize,
    Text.valueOf 10 p.exponentSize⟩

variable {p : FloatParts} {exponent : Int} (writes : p.Writes exponent)
include writes

theorem Writes.digits : Text.isHexDigits (p.whole ++ p.fraction) = true := by
  obtain ⟨some, whole⟩ := Text.isHexDigitsIff.mp writes.ofWhole
  obtain ⟨_, fraction⟩ := Text.isHexDigitsIff.mp writes.ofFraction
  exact Text.isHexDigitsIff.mpr ⟨List.append_ne_nil_of_left_ne_nil some _, by rw [List.all_append, whole, fraction]; rfl⟩

theorem read (f : FloatLiteral) : FloatLiteral.read p.text = some f ↔
    p.IsHeld exponent ∧ f = p.literal exponent := by
  show FloatLiteral.readFinite (p.whole ++ '.' :: p.tail) = some f ↔ _
  -- from the right no letter is met before the one that a field is cut off at
  have noMark {digits : List Char} (all : Text.isDigits digits = true) (mark : Char) (other : Text.isDigit mark = false) :
      digits.all (fun c => !(c == mark)) = true :=
    Text.digitsPlain (Text.allOfDigits all) (Text.digitNotMark other)
  have first : Text.cutLast (· == 'e')
      ((p.whole ++ '.' :: p.fraction ++ 'e' :: p.exponent ++ 'f' :: p.significandSize) ++ 'e' :: p.exponentSize) =
        some (_, _) := Text.cutLastAt (noMark writes.ofExponentSize 'e' (by decide)) rfl
  have second : Text.cutLast (· == 'f')
      ((p.whole ++ '.' :: p.fraction ++ 'e' :: p.exponent) ++ 'f' :: p.significandSize) = some (_, _) :=
    Text.cutLastAt (noMark writes.ofSignificandSize 'f' (by decide)) rfl
  have third : Text.cutLast (· == 'e') ((p.whole ++ '.' :: p.fraction) ++ 'e' :: p.exponent) = some (_, _) :=
    Text.cutLastAt (writes.ofExponent.plain (by decide) (by decide)) rfl
  obtain ⟨wholeSome, wholeHex⟩ := Text.isHexDigitsIff.mp writes.ofWhole
  obtain ⟨fractionSome, _⟩ := Text.isHexDigitsIff.mp writes.ofFraction
  have fourth : Text.cutFirst (· == '.') (p.whole ++ '.' :: p.fraction) = some (p.whole, p.fraction) := by
    refine Text.cutFirstAt (List.all_eq_true.mpr fun c mem => ?_) rfl
    have hex := List.all_eq_true.mp wholeHex c mem
    simp only [Bool.not_eq_true', beq_eq_false_iff_ne]
    rintro rfl
    exact absurd hex (by decide)
  have shape : p.whole ++ '.' :: p.tail =
      (p.whole ++ '.' :: p.fraction ++ 'e' :: p.exponent ++ 'f' :: p.significandSize) ++ 'e' :: p.exponentSize := by
    simp [tail]
  have filled : (p.whole.isEmpty || p.fraction.isEmpty) = false := by simp [wholeSome, fractionSome]
  rw [shape, FloatLiteral.readFinite]
  simp only [first, second, third, fourth, Option.bind_eq_bind, Option.bind_some, filled, Bool.false_eq_true, if_false,
    Text.readHex writes.digits, Text.readIntegerWritten writes.ofExponent, Text.readWordDigits writes.ofSignificandSize,
    Text.readWordDigits writes.ofExponentSize, Option.bind_eq_some_iff, Option.ite_none_right_eq_some,
    Option.some.injEq]
  constructor
  · rintro ⟨_, ⟨held, rfl⟩, _, ⟨ofSize, rfl⟩, _, ⟨ofSize', rfl⟩, places, rfl⟩
    exact ⟨⟨held, ofSize, ofSize', places⟩, rfl⟩
  · rintro ⟨⟨held, ofSize, ofSize', places⟩, rfl⟩
    exact ⟨_, ⟨held, rfl⟩, _, ⟨ofSize, rfl⟩, _, ⟨ofSize', rfl⟩, places, rfl⟩

theorem Writes.hexTail : Token.isHexTail '.' p.tail = true := by
  obtain ⟨_, fraction⟩ := Text.isHexDigitsIff.mp writes.ofFraction
  have sizes (last : Char) :
      Token.isHexTail last ('f' :: (p.significandSize ++ 'e' :: p.exponentSize)) = true := by
    refine Token.hexTailDigits writes.ofSignificandSize fun last => ?_
    have whole : Token.isHexTail 'e' (p.exponentSize ++ []) = true :=
      Token.hexTailDigits writes.ofExponentSize fun _ => rfl
    rwa [List.append_nil] at whole
  exact Token.hexTailAppend (fun c mem => Text.partOfHex (List.all_eq_true.mp fraction c mem)) fun last =>
    Token.hexTailInteger writes.ofExponent sizes

end FloatParts

theorem FloatLiteral.finiteWritten {text : List Char} (minus : text.head? ≠ some '-') (plus : '+' ∉ text)
    (plain : '_' ∉ text) {f : FloatLiteral} (read : FloatLiteral.readFinite text = some f) :
    ∃ (p : FloatParts) (exponent : Int), p.Writes exponent ∧ text = p.whole ++ '.' :: p.tail := by
  unfold FloatLiteral.readFinite at read
  obtain ⟨⟨first, exponentSize⟩, cut, read⟩ := Option.bind_eq_some_iff.mp read
  obtain ⟨⟨second, significandSize⟩, cut', read⟩ := Option.bind_eq_some_iff.mp read
  obtain ⟨⟨digits, signed⟩, cut'', read⟩ := Option.bind_eq_some_iff.mp read
  obtain ⟨⟨whole, fraction⟩, point, read⟩ := Option.bind_eq_some_iff.mp read
  obtain ⟨mark, isPoint, _, same⟩ := Text.cutFirstIff.mp point
  dsimp only at read cut cut' cut'' same
  split at read
  · contradiction
  · rename_i filled
    obtain ⟨significand, based, read⟩ := Option.bind_eq_some_iff.mp read
    obtain ⟨exponent, ofSigned, read⟩ := Option.bind_eq_some_iff.mp read
    obtain ⟨_, ofSize, read⟩ := Option.bind_eq_some_iff.mp read
    obtain ⟨_, ofSize', _⟩ := Option.bind_eq_some_iff.mp read
    have shape : text = whole ++ '.' :: (fraction ++ 'e' :: (signed ++ 'f' :: (significandSize ++ 'e' :: exponentSize))) := by
      rw [Text.cutLastSome cut, Text.cutLastSome cut', Text.cutLastSome cut'', same, beq_iff_eq.mp isPoint]
      simp
    simp only [Bool.or_eq_true, List.isEmpty_iff, not_or] at filled
    have first : (whole ++ fraction).head? = text.head? := by
      cases whole with
      | nil => exact absurd rfl filled.1
      | cons c whole =>
        rw [shape]
        rfl
    simp only [shape, List.mem_append, List.mem_cons, not_or] at plus plain
    have hex := (Text.readHexIff (first ▸ minus) (by simp [plus]) (by simp [plain])).mp based
    have all := (Text.isHexDigitsIff.mp hex.1).2
    rw [List.all_append, Bool.and_eq_true] at all
    refine ⟨⟨whole, fraction, signed, significandSize, exponentSize⟩, exponent, ⟨?_, ?_, ?_, ?_, ?_⟩, shape⟩
    · exact Text.isHexDigitsIff.mpr ⟨filled.1, all.1⟩
    · exact Text.isHexDigitsIff.mpr ⟨filled.2, all.2⟩
    · exact (Text.readIntegerIff.mp ofSigned).1.integer (by simp [plus])
    · exact Text.digitsOfWord ofSize (by simp [plus])
    · exact Text.digitsOfWord ofSize' (by simp [plus])

theorem FloatLiteral.hexWritten {whole tail : List Char} (ofWhole : Text.isHexDigits whole = true)
    (ofTail : Token.isHexTail '.' tail = true) {f : FloatLiteral}
    (read : FloatLiteral.read ('0' :: 'x' :: (whole ++ '.' :: tail)) = some f) :
    ∃ (p : FloatParts) (exponent : Int), p.Writes exponent ∧ '0' :: 'x' :: (whole ++ '.' :: tail) = p.text := by
  obtain ⟨filled, all⟩ := Text.isHexDigitsIff.mp ofWhole
  -- the readers of numbers take plus signs and underscores as well, but the scanner lets neither into the word
  have other {c : Char} (no : Text.isHexDigit c = false) : c ∉ whole := fun mem =>
    absurd (List.all_eq_true.mp all c mem) (by simp [no])
  have plus : '+' ∉ tail := Token.hexTailPlain (by decide) (by decide) (by decide) ofTail
  have plain : '_' ∉ tail := Token.hexTailPlain (by decide) (by decide) (by decide) ofTail
  have minus : (whole ++ '.' :: tail).head? ≠ some '-' := by
    intro first
    rw [List.head?_append, Option.or_eq_some_iff] at first
    rcases first with first | ⟨none, _⟩
    · exact other (by decide) (List.mem_of_head? first)
    · exact filled (List.head?_eq_none_iff.mp none)
  have noPlus : '+' ∉ whole := other (by decide)
  have noUnderscore : '_' ∉ whole := other (by decide)
  obtain ⟨p, exponent, writes, same⟩ :=
    finiteWritten minus (by simp [noPlus, plus]) (by simp [noUnderscore, plain]) read
  exact ⟨p, exponent, writes, by rw [same]; rfl⟩

theorem FloatLiteral.printedFinite (n : Nat) {places : Nat} (filled : places ≠ 0) (exponent : Int)
    (significandSize exponentSize : Nat) :
    ∃ p : FloatParts, p.Writes exponent ∧
      (FloatLiteral.text ⟨.finite n places exponent, significandSize, exponentSize⟩).toList = p.text ∧
      p.literal exponent = ⟨.finite n places exponent, significandSize, exponentSize⟩ := by
  let zeros := places + 1 - (Nat.toDigits 16 n).length
  let padded := List.replicate zeros '0' ++ Nat.toDigits 16 n
  let cut := padded.length - places
  have size : padded.length = zeros + (Nat.toDigits 16 n).length := by simp [padded]
  have same : padded.take cut ++ padded.drop cut = padded := List.take_append_drop cut padded
  have all : padded.all Text.isHexDigit = true := Text.allHexPadded zeros n
  have length : (padded.drop cut).length = places := by
    rw [List.length_drop]
    omega
  have ofFraction : padded.drop cut ≠ [] := List.ne_nil_of_length_pos (by omega)
  rw [← same, List.all_append, Bool.and_eq_true] at all
  refine ⟨⟨padded.take cut, padded.drop cut, (toString exponent).toList, Nat.toDigits 10 significandSize,
    Nat.toDigits 10 exponentSize⟩, ⟨?_, ?_, Text.writesToString exponent, Text.isDigitsToDigits _,
    Text.isDigitsToDigits _⟩, ?_, ?_⟩
  · refine Text.isHexDigitsIff.mpr ⟨List.ne_nil_of_length_pos ?_, all.1⟩
    rw [List.length_take]
    omega
  · exact Text.isHexDigitsIff.mpr ⟨ofFraction, all.2⟩
  · have natural : Text.basedDigits 16 n = Nat.toDigits 16 n := by
      rw [Text.basedDigits, if_neg (by omega)]
      rfl
    have pointed : FloatLiteral.pointed n places = padded.take cut ++ '.' :: padded.drop cut := by
      simp only [FloatLiteral.pointed, natural]
      rfl
    simp only [FloatLiteral.text, FloatLiteral.sizes, pointed, FloatParts.text, FloatParts.tail, String.toList_append,
      String.toList_ofList, Text.toStringDigits, List.append_assoc, List.cons_append]
    rfl
  · simp only [FloatParts.literal, same, length, Text.valueToDigits]
    rw [Text.valueHexDigits zeros n]

namespace FloatLiteral

def marks : List (List Char × FloatValue) :=
  [(['N', 'a', 'N'], .notANumber), (['n', 'a', 'n'], .notANumber), (['+', 'o', 'o'], .positiveInfinity),
    (['-', 'o', 'o'], .negativeInfinity)]

theorem marksKnown : ∀ m ∈ marks, m.1.length = 3 ∧ ∀ rest,
    Token.floatNumber ('0' :: (m.1 ++ rest)) = Token.specialFloat rest ∧
      FloatLiteral.read ('0' :: (m.1 ++ rest)) = readSpecial m.2 rest := by
  simp only [marks, List.forall_mem_cons]
  exact ⟨⟨rfl, fun _ => ⟨rfl, rfl⟩⟩, ⟨rfl, fun _ => ⟨rfl, rfl⟩⟩, ⟨rfl, fun _ => ⟨rfl, rfl⟩⟩,
    ⟨rfl, fun _ => ⟨rfl, rfl⟩⟩, List.forall_mem_nil _⟩

theorem marksSpecial : ∀ m ∈ marks, ∀ significand places exponent, m.2 ≠ .finite significand places exponent := by
  simp [marks]

def specialText (mark significandSize exponentSize : List Char) : List Char :=
  '0' :: (mark ++ (significandSize ++ 'e' :: exponentSize))

section Special

variable {mark : List Char} {value : FloatValue} (mem : (mark, value) ∈ marks) {significandSize exponentSize : List Char}
  (ofSignificand : Text.isDigits significandSize = true) (ofExponent : Text.isDigits exponentSize = true)
include mem ofSignificand ofExponent

theorem readSpecialText (f : FloatLiteral) : FloatLiteral.read (specialText mark significandSize exponentSize) = some f ↔
    (Text.valueOf 10 significandSize < Text.wordCount 32 ∧ Text.valueOf 10 exponentSize < Text.wordCount 32) ∧
      f = ⟨value, Text.valueOf 10 significandSize, Text.valueOf 10 exponentSize⟩ := by
  have cut : Text.cutFirst (· == 'e') (significandSize ++ 'e' :: exponentSize) = some (significandSize, exponentSize) :=
    Text.cutFirstAt (Text.digitsPlain (Text.allOfDigits ofSignificand) (Text.digitNotMark (by decide))) rfl
  rw [specialText, ((marksKnown _ mem).2 _).2, readSpecial]
  simp only [cut, Option.bind_eq_bind, Option.bind_some, Text.readWordDigits ofSignificand,
    Text.readWordDigits ofExponent, Option.bind_eq_some_iff, Option.ite_none_right_eq_some, Option.some.injEq]
  constructor
  · rintro ⟨_, ⟨ofSize, rfl⟩, _, ⟨ofSize', rfl⟩, rfl⟩
    exact ⟨⟨ofSize, ofSize'⟩, rfl⟩
  · rintro ⟨⟨ofSize, ofSize'⟩, rfl⟩
    exact ⟨_, ⟨ofSize, rfl⟩, _, ⟨ofSize', rfl⟩, rfl⟩

theorem wordsSpecial {rest : List Char} (ends : Token.startsWith Token.endsNumber rest) :
    Token.words (specialText mark significandSize exponentSize ++ rest) =
      ⟨.float, specialText mark significandSize exponentSize⟩ :: Token.words rest := by
  obtain ⟨length, known⟩ := marksKnown _ mem
  have first : Token.run Text.isDigit (significandSize ++ 'e' :: (exponentSize ++ rest)) = significandSize.length :=
    Token.runEnds (Text.allOfDigits ofSignificand) (rfl : Token.startsWith (fun c => !Text.isDigit c) ('e' :: _))
  have second := Token.runDigits (Text.allOfDigits ofExponent) ends
  have scanned : Token.specialFloat (significandSize ++ 'e' :: (exponentSize ++ rest)) =
      some ⟨.token .float, significandSize.length + exponentSize.length + 5⟩ := by
    simp only [Token.specialFloat, first, List.drop_left, second]
    simp [Token.digitsNe ofSignificand, Token.digitsNe ofExponent]
  refine Token.wordsNumber rfl ?_
  simp only [specialText, List.cons_append, List.append_assoc]
  rw [Token.number, (known _).1, scanned]
  simp only [Option.getD_some, List.length_cons, List.length_append] at length ⊢
  congr 1
  omega

end Special

theorem printedSpecial {value : FloatValue} (special : ∀ significand places exponent,
    value ≠ .finite significand places exponent) (significandSize exponentSize : Nat) :
    ∃ mark, (mark, value) ∈ marks ∧ (FloatLiteral.text ⟨value, significandSize, exponentSize⟩).toList =
      specialText mark (Nat.toDigits 10 significandSize) (Nat.toDigits 10 exponentSize) := by
  have printed (front : String) (mark : List Char) (same : front.toList = '0' :: mark) :
      (front ++ FloatLiteral.sizes ⟨value, significandSize, exponentSize⟩).toList =
        specialText mark (Nat.toDigits 10 significandSize) (Nat.toDigits 10 exponentSize) := by
    simp only [FloatLiteral.sizes, String.toList_append, Text.toStringDigits, same, List.append_assoc]
    rfl
  cases value with
  | finite significand places exponent => exact absurd rfl (special significand places exponent)
  | notANumber => exact ⟨['N', 'a', 'N'], by decide, printed "0NaN" _ rfl⟩
  | positiveInfinity => exact ⟨['+', 'o', 'o'], by decide, printed "0+oo" _ rfl⟩
  | negativeInfinity => exact ⟨['-', 'o', 'o'], by decide, printed "0-oo" _ rfl⟩

end FloatLiteral

end Boogie
