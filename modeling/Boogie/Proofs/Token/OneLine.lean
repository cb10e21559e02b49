import Boogie.Proofs.Token.Local

/-! A token stands on one line. The readers of the scanner stop at a newline, all but that of comments; a
comment is layout, and one that is never closed is faulty. -/
namespace Boogie.Token

section Readers

variable {text : List Char}

theorem plainAppend {a b : Nat} (first : '\n' ∉ text.take a) (second : '\n' ∉ (text.drop a).take b) :
    '\n' ∉ text.take (a + b) := by
  rw [List.take_add, List.mem_append, not_or]
  exact ⟨first, second⟩

theorem plainCons {c : Char} {n : Nat} (other : c ≠ '\n') (behind : '\n' ∉ text.take n) :
    '\n' ∉ (c :: text).take (n + 1) := by
  rw [List.take_succ_cons, List.mem_cons, not_or]
  exact ⟨other.symm, behind⟩

theorem plainRun {p : Char → Bool} (stops : p '\n' = false) (text : List Char) :
    '\n' ∉ text.take (run p text) := by
  rw [takeRun]
  intro mem
  have kept := List.all_eq_true.mp (List.all_takeWhile (p := p) (l := text)) _ mem
  exact absurd kept (by simp [stops])

theorem plainDigits (text : List Char) : '\n' ∉ text.take (run Text.isDigit text) := plainRun (by decide) text

theorem plainPrefix {mark : List Char} (plain : '\n' ∉ mark) (begins : mark <+: text) :
    '\n' ∉ text.take mark.length := by
  rwa [← List.prefix_iff_eq_take.mp begins]

theorem plainBehind {mark : List Char} (plain : '\n' ∉ mark) {n : Nat} (found : digitsBehind mark text = some n) :
    '\n' ∉ text.take n := by
  simp only [digitsBehind] at found
  split at found
  · rename_i marked
    split at found
    · contradiction
    · cases found
      rw [Nat.add_comm]
      exact plainAppend (plainPrefix plain (List.isPrefixOf_iff_prefix.mp marked)) (plainDigits _)
  · contradiction

theorem plainExponent {n : Nat} (found : exponentLength text = some n) : '\n' ∉ text.take n := by
  rw [exponentBehind, Option.or_eq_some_iff] at found
  rcases found with signed | ⟨_, unsigned⟩
  · exact plainBehind (by decide) signed
  · exact plainBehind (by decide) unsigned

theorem plainOptionalExponent (text : List Char) : '\n' ∉ text.take ((exponentLength text).getD 0) := by
  cases found : exponentLength text with
  | none => simp
  | some n => exact plainExponent found

end Readers

theorem plainPlainNumber (text : List Char) : '\n' ∉ text.take (plainNumber text).length := by
  have digits := plainDigits text
  simp only [plainNumber]
  generalize same : text.drop (run Text.isDigit text) = rest
  cases width : widthLength rest with
  | some n => exact plainAppend digits (same ▸ plainBehind (by decide) (widthBehind ▸ width))
  | none =>
    cases fraction : fractionLength rest with
    | some n =>
      have whole := plainAppend digits (same ▸ plainBehind (by decide) (fractionBehind ▸ fraction))
      refine plainAppend whole ?_
      rw [← List.drop_drop, same]
      exact plainOptionalExponent _
    | none =>
      cases exponent : exponentLength rest with
      | some n => exact plainAppend digits (same ▸ plainExponent exponent)
      | none => exact digits

theorem plainHexTail (last : Char) (count : Nat) (text : List Char) :
    '\n' ∉ text.take (hexTailLength last count text - count) := by
  induction text generalizing last count with
  | nil => simp
  | cons c text ih =>
    rw [hexTailLength]
    split
    · rename_i part
      have other : c ≠ '\n' := by
        rintro rfl
        exact absurd part (by simp [Text.isLetter, Text.isDigit])
      have long := hexTailLe c (count + 1) text
      have length : hexTailLength c (count + 1) text - count = hexTailLength c (count + 1) text - (count + 1) + 1 := by
        omega
      rw [length]
      exact plainCons other (ih c (count + 1))
    · simp

def PlainFloat (marked : Nat) (f : List Char → Option Lexeme) : Prop :=
  ∀ text l, f text = some l → l.role ≠ .token .invalid → ∃ n, l.length = marked + n ∧ '\n' ∉ text.take n

theorem plainHexFloat : PlainFloat 2 hexFloat := by
  intro text l found sound
  simp only [hexFloat] at found
  split at found
  · contradiction
  · split at found
    · rename_i rest behind
      cases found
      refine ⟨run Text.isHexDigit text + (hexTailLength '.' 0 rest + 1), by simp only; omega, ?_⟩
      refine plainAppend (plainRun (by decide) text) ?_
      rw [behind]
      exact plainCons (by decide) (plainHexTail '.' 0 rest)
    · cases found
      contradiction

theorem plainSpecialFloat : PlainFloat 4 specialFloat := by
  intro text l found sound
  simp only [specialFloat] at found
  split at found
  · contradiction
  · split at found
    · rename_i rest behind
      split at found
      · cases found
        contradiction
      · cases found
        refine ⟨run Text.isDigit text + (run Text.isDigit rest + 1), by simp only; omega, ?_⟩
        refine plainAppend (plainDigits text) ?_
        rw [behind]
        exact plainCons (by decide) (plainDigits rest)
    · cases found
      contradiction

theorem plainFloatMarks : ∀ m ∈ floatMarks, '\n' ∉ m.1 ∧ PlainFloat m.1.length m.2 := by
  simp only [floatMarks, List.forall_mem_cons, List.not_mem_nil]
  exact ⟨⟨by decide, plainHexFloat⟩, ⟨by decide, plainSpecialFloat⟩, ⟨by decide, plainSpecialFloat⟩,
    ⟨by decide, plainSpecialFloat⟩, ⟨by decide, plainSpecialFloat⟩, by simp⟩

theorem plainNumberToken (text : List Char) (sound : (number text).role ≠ .token .invalid) :
    '\n' ∉ text.take (number text).length := by
  rw [number] at sound ⊢
  by_cases marked : ∃ m ∈ floatMarks, m.1 <+: text
  · obtain ⟨m, mem, rest, rfl⟩ := marked
    obtain ⟨plain, float⟩ := plainFloatMarks m mem
    rw [floatNumberMarked rest m mem] at sound ⊢
    cases found : m.2 rest with
    | none => exact plainPlainNumber _
    | some l =>
      rw [found] at sound
      obtain ⟨n, length, behind⟩ := float rest l found sound
      rw [Option.getD_some, length]
      exact plainAppend (plainPrefix plain (List.prefix_append _ _)) (by rwa [List.drop_left])
  · rw [floatNumberUnmarked fun m mem begins => marked ⟨m, mem, begins⟩]
    exact plainPlainNumber text

theorem stringLonger (count : Nat) (text : List Char) : count ≤ (stringLength count text).1 := by
  fun_induction stringLength count text with
  | case1 => exact Nat.le_succ _
  | case3 count c rest plain ih => exact Nat.le_of_add_right_le ih
  | case6 count c rest _ _ _ plain ih => exact Nat.le_of_succ_le ih
  | case2 => exact Nat.le_refl _
  | case4 => exact Nat.le_refl _
  | case5 => exact Nat.le_refl _
  | case7 => exact Nat.le_refl _

theorem plainString (count : Nat) (text : List Char) : '\n' ∉ text.take ((stringLength count text).1 - count) := by
  fun_induction stringLength count text with
  | case1 count rest =>
    rw [Nat.add_sub_cancel_left]
    simp
  | case3 count c rest plain ih =>
    have long := stringLonger (count + 2) rest
    have length : (stringLength (count + 2) rest).1 - count = (stringLength (count + 2) rest).1 - (count + 2) + 1 + 1 := by
      omega
    rw [length]
    exact plainCons (by decide) (plainCons plain ih)
  | case6 count c rest _ _ _ plain ih =>
    have long := stringLonger (count + 1) rest
    have length : (stringLength (count + 1) rest).1 - count = (stringLength (count + 1) rest).1 - (count + 1) + 1 := by
      omega
    rw [length]
    exact plainCons plain ih
  | case2 => simp
  | case4 => simp
  | case5 => simp
  | case7 => simp

theorem plainSymbols : ∀ p ∈ symbolTable, '\n' ∉ p.1 :=
  fun p mem newline => absurd (solidSymbols p mem _ newline) (by decide)

theorem plainSymbol {text : List Char} (sound : (symbol text).role ≠ .token .invalid) :
    '\n' ∉ text.take (symbol text).length := by
  rcases symbolRole text with ⟨spelling, kind, mem, begins, same⟩ | same
  · rw [same]
    exact plainPrefix (plainSymbols _ mem) begins
  · rw [same] at sound
    contradiction

theorem plainLexeme {c : Char} {rest : List Char} {kind : Kind} (role : (lexeme c rest).role = .token kind)
    (sound : kind ≠ .invalid) : '\n' ∉ (c :: rest).take (lexeme c rest).length := by
  have sound : (lexeme c rest).role ≠ .token .invalid := by
    rw [role]
    exact fun same => sound (Role.token.inj same)
  generalize found : lexeme c rest = l at role sound ⊢
  unfold lexeme at found
  split at found
  · subst found
    contradiction
  rename_i solid
  have other : c ≠ '\n' := by
    rintro rfl
    exact solid rfl
  split at found
  · subst found
    exact plainNumberToken _ sound
  split at found
  · subst found
    exact plainCons other (plainRun (by decide) rest)
  split at found
  · subst found
    contradiction
  · split at found
    · subst found
      contradiction
    · subst found
      contradiction
  · subst found
    have long := stringLonger 1 rest
    obtain ⟨n, length⟩ : ∃ n, (stringLength 1 rest).1 = n + 1 := ⟨(stringLength 1 rest).1 - 1, by omega⟩
    have content := plainString 1 rest
    simp only [length, Nat.add_sub_cancel] at content ⊢
    exact plainCons (by decide) content
  · split at found
    · rename_i start
      subst found
      refine plainCons (by decide) (plainCons ?_ (plainRun (by decide) _))
      rintro rfl
      exact absurd start (by decide)
    · subst found
      contradiction
  · subst found
    exact plainSymbol sound

theorem plainTaken {c : Char} {rest : List Char} {kind : Kind} (role : (lexeme c rest).role = .token kind)
    (sound : kind ≠ .invalid) : '\n' ∉ taken c rest := by
  have plain := plainLexeme role sound
  unfold taken
  cases length : (lexeme c rest).length with
  | zero =>
    have other : c ≠ '\n' := by
      rintro rfl
      contradiction
    simpa using other.symm
  | succ n => rwa [length] at plain

end Boogie.Token
