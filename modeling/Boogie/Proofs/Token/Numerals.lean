import Boogie.Proofs.Literal.Float
import Boogie.Proofs.Token.Local

/-! How the words of numbers are written. The scanner counts characters; here it is told what the characters are that
it counts, reader by reader, and with that what every token of a number is made of. -/
namespace Boogie.Token

inductive WritesNumeral : Kind → List Char → Prop
  | digits {digits} (all : Text.isDigits digits = true) : WritesNumeral .digits digits
  | bitVector {value width} (ofValue : Text.isDigits value = true) (ofWidth : Text.isDigits width = true) :
      WritesNumeral .bitVector (value ++ 'b' :: 'v' :: width)
  | fraction {whole fraction} (ofWhole : Text.isDigits whole = true) (ofFraction : Text.isDigits fraction = true) :
      WritesNumeral .fraction (whole ++ '.' :: fraction)
  | shifted {whole fraction exponent shift} (ofWhole : Text.isDigits whole = true)
      (ofFraction : Text.isDigits fraction = true) (ofExponent : Text.WritesInteger exponent shift) :
      WritesNumeral .fraction (whole ++ '.' :: fraction ++ 'e' :: exponent)
  | decimal {whole exponent shift} (ofWhole : Text.isDigits whole = true)
      (ofExponent : Text.WritesInteger exponent shift) : WritesNumeral .decimal (whole ++ 'e' :: exponent)
  | hexadecimal {whole tail} (ofWhole : Text.isHexDigits whole = true) (ofTail : isHexTail '.' tail = true) :
      WritesNumeral .float ('0' :: 'x' :: (whole ++ '.' :: tail))
  | special {mark value significandSize exponentSize} (mem : (mark, value) ∈ FloatLiteral.marks)
      (ofSignificand : Text.isDigits significandSize = true) (ofExponent : Text.isDigits exponentSize = true) :
      WritesNumeral .float (FloatLiteral.specialText mark significandSize exponentSize)

theorem WritesNumeral.starts {k : Kind} {text : List Char} (written : WritesNumeral k text) :
    text.head?.any Text.isDigit = true := by
  cases written with
  | digits all => simpa using @digitsStart text [] all
  | bitVector ofValue => exact digitsStart ofValue
  | fraction ofWhole | decimal ofWhole => exact digitsStart ofWhole
  | shifted ofWhole =>
    rw [List.append_assoc]
    exact digitsStart ofWhole
  | hexadecimal => rfl
  | special => rfl

section Readers

variable {text : List Char}

theorem takenDigits (some : run Text.isDigit text ≠ 0) :
    Text.isDigits (text.take (run Text.isDigit text)) = true := by
  have filled : (text.takeWhile Text.isDigit).isEmpty = false :=
    List.isEmpty_eq_false_iff.mpr fun none => some (congrArg List.length none)
  rw [takeRun, Text.isDigits, filled, List.all_takeWhile]
  rfl

theorem takenBehind {mark : List Char} {n : Nat} (found : digitsBehind mark text = some n) :
    ∃ digits, Text.isDigits digits = true ∧ text.take n = mark ++ digits := by
  simp only [digitsBehind] at found
  split at found
  · rename_i marked
    obtain ⟨rest, rfl⟩ := List.isPrefixOf_iff_prefix.mp marked
    rw [List.drop_left] at found
    split at found
    · contradiction
    · rename_i some
      cases found
      refine ⟨_, takenDigits some, ?_⟩
      rw [Nat.add_comm, List.take_length_add_append]
  · contradiction

theorem takenExponent {n : Nat} (found : exponentLength text = some n) :
    ∃ exponent shift, Text.WritesInteger exponent shift ∧ text.take n = 'e' :: exponent := by
  rw [exponentBehind, Option.or_eq_some_iff] at found
  rcases found with signed | ⟨_, unsigned⟩
  · obtain ⟨digits, all, same⟩ := takenBehind signed
    exact ⟨_, _, .negative all, same⟩
  · obtain ⟨digits, all, same⟩ := takenBehind unsigned
    exact ⟨_, _, .natural all, same⟩

theorem takenHexTail (last : Char) (count : Nat) (text : List Char) :
    isHexTail last (text.take (hexTailLength last count text - count)) = true := by
  induction text generalizing last count with
  | nil => rw [List.take_nil, isHexTail]
  | cons c text ih =>
    rw [hexTailLength]
    split
    · rename_i part
      have long := hexTailLe c (count + 1) text
      have length : hexTailLength c (count + 1) text - count = hexTailLength c (count + 1) text - (count + 1) + 1 := by
        omega
      rw [length, List.take_succ_cons, isHexTail, part, ih]
      rfl
    · rw [Nat.sub_self, List.take_zero, isHexTail]

end Readers

theorem plainNumeral {text : List Char} (some : run Text.isDigit text ≠ 0) :
    ∃ k, (plainNumber text).role = .token k ∧ WritesNumeral k (text.take (plainNumber text).length) := by
  have ofDigits := takenDigits some
  simp only [plainNumber]
  generalize same : text.drop (run Text.isDigit text) = rest
  cases width : widthLength rest with
  | some n =>
    obtain ⟨digits, all, taken⟩ := takenBehind (widthBehind ▸ width)
    refine ⟨_, rfl, ?_⟩
    rw [List.take_add, same, taken]
    exact .bitVector ofDigits all
  | none =>
    cases fraction : fractionLength rest with
    | some n =>
      obtain ⟨digits, all, taken⟩ := takenBehind (fractionBehind ▸ fraction)
      refine ⟨.fraction, rfl, ?_⟩
      show WritesNumeral .fraction
        (text.take (run Text.isDigit text + n + (exponentLength (rest.drop n)).getD 0))
      cases exponent : exponentLength (rest.drop n) with
      | some m =>
        obtain ⟨written, shift, ofShift, taken'⟩ := takenExponent exponent
        rw [Option.getD_some, List.take_add, ← List.drop_drop, List.take_add, same, taken, taken']
        exact .shifted ofDigits all ofShift
      | none =>
        rw [Option.getD_none, Nat.add_zero, List.take_add, same, taken]
        exact .fraction ofDigits all
    | none =>
      cases exponent : exponentLength rest with
      | some n =>
        obtain ⟨written, shift, ofShift, taken⟩ := takenExponent exponent
        refine ⟨_, rfl, ?_⟩
        rw [List.take_add, same, taken]
        exact .decimal ofDigits ofShift
      | none => exact ⟨_, rfl, .digits ofDigits⟩

def ReadsFloat (mark : List Char) (f : List Char → Option Lexeme) : Prop :=
  ∀ text l, f text = some l → l.role ≠ .token .invalid →
    l.role = .token .float ∧ WritesNumeral .float ((mark ++ text).take l.length)

theorem readsHexFloat : ReadsFloat ['0', 'x'] hexFloat := by
  intro text l found sound
  simp only [hexFloat] at found
  split at found
  · contradiction
  · rename_i some
    split at found
    · rename_i rest behind
      cases found
      have filled : (text.takeWhile Text.isHexDigit) ≠ [] := fun none => some (congrArg List.length none)
      have digits := Text.isHexDigitsIff.mpr ⟨filled, List.all_takeWhile⟩
      have tail := takenHexTail '.' 0 rest
      refine ⟨rfl, ?_⟩
      have length : run Text.isHexDigit text + 3 + hexTailLength '.' 0 rest =
          run Text.isHexDigit text + (hexTailLength '.' 0 rest + 1) + 1 + 1 := by omega
      simp only [List.cons_append, List.nil_append]
      rw [length, List.take_succ_cons, List.take_succ_cons, List.take_add, behind, takeRun, List.take_succ_cons]
      exact .hexadecimal digits tail
    · cases found
      contradiction

theorem readsSpecialFloat {mark : List Char} {value : FloatValue} (mem : (mark, value) ∈ FloatLiteral.marks) :
    ReadsFloat ('0' :: mark) specialFloat := by
  intro text l found sound
  have marked : mark.length = 3 := (FloatLiteral.marksKnown _ mem).1
  simp only [specialFloat] at found
  split at found
  · contradiction
  · rename_i some
    split at found
    · rename_i rest behind
      split at found
      · cases found
        contradiction
      · rename_i more
        cases found
        refine ⟨rfl, ?_⟩
        have length : run Text.isDigit text + run Text.isDigit rest + 5 =
            mark.length + (run Text.isDigit text + (run Text.isDigit rest + 1)) + 1 := by omega
        rw [List.cons_append]
        simp only [length]
        rw [List.take_succ_cons, List.take_length_add_append, List.take_add, behind, List.take_succ_cons]
        exact .special mem (takenDigits some) (takenDigits more)
    · cases found
      contradiction

theorem readsFloatMarks : ∀ m ∈ floatMarks, ReadsFloat m.1 m.2 := by
  have special : ∀ m ∈ FloatLiteral.marks, ReadsFloat ('0' :: m.1) specialFloat := fun _ => readsSpecialFloat
  simp only [FloatLiteral.marks, List.forall_mem_cons] at special
  obtain ⟨capital, small, plus, minus, _⟩ := special
  simp only [floatMarks, List.forall_mem_cons]
  exact ⟨readsHexFloat, capital, small, plus, minus, List.forall_mem_nil _⟩

theorem numeralOfNumber {text : List Char} (some : run Text.isDigit text ≠ 0) {k : Kind}
    (role : (number text).role = .token k) (sound : k ≠ .invalid) :
    WritesNumeral k (text.take (number text).length) := by
  obtain ⟨plain, ofPlain, written⟩ := plainNumeral some
  -- behind a mark there need not be a float: `0x` alone is a zero and a name
  have unmarked (none : floatNumber text = none) : WritesNumeral k (text.take (number text).length) := by
    rw [number, none, Option.getD_none] at role ⊢
    cases ofPlain.symm.trans role
    exact written
  by_cases marked : ∃ m ∈ floatMarks, m.1 <+: text
  · obtain ⟨m, mem, rest, rfl⟩ := marked
    have read := floatNumberMarked rest m mem
    cases found : m.2 rest with
    | none => exact unmarked (read.trans found)
    | some l =>
      rw [number, read, found, Option.getD_some] at role ⊢
      have other : l.role ≠ .token .invalid := by
        rw [role]
        exact fun same => sound (Role.token.inj same)
      obtain ⟨float, written⟩ := readsFloatMarks m mem rest l found other
      cases role.symm.trans float
      exact written
  · exact unmarked (floatNumberUnmarked fun m mem begins => marked ⟨m, mem, begins⟩)

def isSpelled (k : Kind) : Bool :=
  k == .identifier || k == .invalid || (wordTable ++ symbolTable).any fun p => p.2 == k

theorem wordSpelled (word : List Char) : isSpelled (wordKind word) = true := by
  unfold wordKind
  cases found : wordTable.lookup word with
  | none => rfl
  | some k =>
    have mem : (word, k) ∈ wordTable := by
      obtain ⟨front, back, same, _⟩ := List.lookup_eq_some_iff.mp found
      rw [same]
      simp
    have listed : (wordTable.any fun p => p.2 == k) = true := List.any_eq_true.mpr ⟨_, mem, beq_self_eq_true k⟩
    simp [isSpelled, List.any_append, listed]

theorem symbolSpelled (text : List Char) : ∃ k, (symbol text).role = .token k ∧ isSpelled k = true := by
  rcases symbolRole text with ⟨spelling, k, mem, _, same⟩ | same
  · have listed : (symbolTable.any fun p => p.2 == k) = true :=
      List.any_eq_true.mpr ⟨_, mem, beq_self_eq_true k⟩
    exact ⟨k, by rw [same], by simp [isSpelled, List.any_append, listed]⟩
  · exact ⟨.invalid, by rw [same], rfl⟩

theorem lexemeOfClass {c : Char} {rest : List Char} {k : Kind} (h : (lexeme c rest).role = .token k)
    (other : isSpelled k = false) :
    (Text.isDigit c = true ∧ (number (c :: rest)).role = .token k) ∨
      (c = '"' ∧ k = .string ∧ (stringLength 1 rest).2 = true) := by
  by_cases digit : Text.isDigit c = true
  · rw [lexemeNumber digit] at h
    exact .inl ⟨digit, h⟩
  have spelled {k' : Kind} (ok : isSpelled k' = true) (same : Role.token k' = .token k) : False := by
    cases same
    rw [other] at ok
    contradiction
  unfold lexeme at h
  split at h
  · contradiction
  · split at h
    · exact (spelled (wordSpelled _) h).elim
    · split at h
      · contradiction
      · split at h
        · contradiction
        · exact (spelled rfl h).elim
      · cases closed : (stringLength 1 rest).2 with
        | false =>
          simp only [closed] at h
          exact (spelled rfl h).elim
        | true =>
          simp only [closed] at h
          cases h
          exact .inr ⟨rfl, rfl, rfl⟩
      · split at h
        · exact (spelled rfl h).elim
        · exact (spelled rfl h).elim
      · obtain ⟨k', role, ok⟩ := symbolSpelled (c :: rest)
        exact (spelled ok (role.symm.trans h)).elim

theorem numeralSpelled {k : Kind} (numeral : isNumeral k = true) (sound : k ≠ .invalid) : isSpelled k = false := by
  revert numeral sound
  cases k <;> decide

theorem numeralOfCut {text : List Char} {w : Word} (cut : IsCut text w) (numeral : isNumeral w.kind = true)
    (sound : w.kind ≠ .invalid) : WritesNumeral w.kind w.text := by
  obtain ⟨c, rest, _, role, same⟩ := cut
  rcases lexemeOfClass role (numeralSpelled numeral sound) with ⟨digit, ofNumber⟩ | ⟨_, string, _⟩
  · have some : run Text.isDigit (c :: rest) ≠ 0 := by simp [run, digit]
    have written := numeralOfNumber some ofNumber sound
    rw [same, taken, lexemeNumber digit]
    cases length : (number (c :: rest)).length with
    | zero =>
      rw [length, List.take_zero] at written
      exact absurd written.starts Bool.false_ne_true
    | succ n => rwa [length, List.take_succ_cons] at written
  · rw [string] at numeral
    contradiction

theorem WritesNumeral.words {k : Kind} {text rest : List Char} (written : WritesNumeral k text)
    (ends : startsWith endsNumber rest) : words (text ++ rest) = ⟨k, text⟩ :: words rest := by
  cases written with
  | digits all => exact wordsDigits all ends
  | bitVector ofValue ofWidth => exact wordsBitVector ofValue ends ofWidth
  | fraction ofWhole ofFraction => exact wordsFraction ofWhole ends ofFraction
  | shifted ofWhole ofFraction ofExponent => exact wordsShifted ofWhole ends ofFraction ofExponent
  | decimal ofWhole ofExponent => exact wordsDecimal ofWhole ends ofExponent
  | hexadecimal ofWhole ofTail =>
    obtain ⟨filled, all⟩ := Text.isHexDigitsIff.mp ofWhole
    exact wordsFinite all filled ofTail ends
  | special mem ofSignificand ofExponent => exact FloatLiteral.wordsSpecial mem ofSignificand ofExponent ends

theorem WritesNumeral.ofParts {p : FloatParts} {exponent : Int} (writes : p.Writes exponent) :
    WritesNumeral .float p.text := .hexadecimal writes.ofWhole writes.hexTail

theorem WritesNumeral.alone {k : Kind} {text : List Char} (written : WritesNumeral k text) : ∃ t, ScansAs k text t := by
  have ends : startsWith endsNumber [] := trivial
  have words := written.words ends
  rw [List.append_nil, wordsNil] at words
  exact scansAsIff.mpr words

end Boogie.Token
