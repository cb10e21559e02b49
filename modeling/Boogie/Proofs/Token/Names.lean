import Boogie.Proofs.Token.Words

/-! Names in a scanned text. -/
namespace Boogie.Token

def isName : List Char → Bool
  | c :: rest => isNameStart c && rest.all isNamePart
  | [] => false

theorem takeRun (p : Char → Bool) (text : List Char) : text.take (run p text) = text.takeWhile p := by
  induction text with
  | nil => rfl
  | cons c rest ih =>
    by_cases h : p c = true
    · simpa [run, h] using ih
    · simp [run, h]

def isNumeral : Kind → Bool
  | .bitVector | .digits | .decimal | .fraction | .float | .invalid => true
  | _ => false

theorem specialFloatRole {text : List Char} {l : Lexeme} (h : specialFloat text = some l) :
    l.role = .token .float ∨ l.role = .token .invalid := by
  simp only [specialFloat] at h
  split at h
  · exact absurd h nofun
  · split at h
    · split at h <;> cases h <;> simp
    · cases h; simp

theorem hexFloatRole {text : List Char} {l : Lexeme} (h : hexFloat text = some l) :
    l.role = .token .float ∨ l.role = .token .invalid := by
  simp only [hexFloat] at h
  split at h
  · exact absurd h nofun
  · split at h <;> cases h <;> simp

theorem floatNumberRole {text : List Char} {l : Lexeme} (h : floatNumber text = some l) :
    l.role = .token .float ∨ l.role = .token .invalid := by
  unfold floatNumber at h
  split at h
  · exact hexFloatRole h
  · exact specialFloatRole h
  · exact specialFloatRole h
  · exact specialFloatRole h
  · exact specialFloatRole h
  · exact absurd h nofun

theorem plainNumberRole (text : List Char) : ∃ kind, (plainNumber text).role = .token kind ∧
    (kind = .bitVector ∨ kind = .fraction ∨ kind = .decimal ∨ kind = .digits) := by
  simp only [plainNumber]
  split
  · exact ⟨_, rfl, .inl rfl⟩
  · exact ⟨_, rfl, .inr (.inl rfl)⟩
  · exact ⟨_, rfl, .inr (.inr (.inl rfl))⟩
  · exact ⟨_, rfl, .inr (.inr (.inr rfl))⟩

theorem numberRole (text : List Char) : ∃ kind, (number text).role = .token kind ∧ isNumeral kind = true := by
  rw [number]
  cases h : floatNumber text with
  | some l =>
    rcases floatNumberRole h with role | role
    · exact ⟨_, role, rfl⟩
    · exact ⟨_, role, rfl⟩
  | none =>
    obtain ⟨kind, role, rfl | rfl | rfl | rfl⟩ := plainNumberRole text
    · exact ⟨_, role, rfl⟩
    · exact ⟨_, role, rfl⟩
    · exact ⟨_, role, rfl⟩
    · exact ⟨_, role, rfl⟩

theorem symbolRole (text : List Char) :
    (∃ spelling kind, (spelling, kind) ∈ symbolTable ∧ spelling <+: text ∧
      symbol text = ⟨.token kind, spelling.length⟩) ∨ symbol text = ⟨.token .invalid, 1⟩ := by
  rw [symbol]
  split
  · rename_i spelling kind found
    refine .inl ⟨spelling, kind, List.mem_of_find?_eq_some found, ?_, rfl⟩
    simpa using List.find?_some found
  · exact .inr rfl

theorem symbolKinds : ∀ p ∈ symbolTable, p.2 ≠ .identifier := by decide

theorem symbolNotName (text : List Char) : (symbol text).role ≠ .token .identifier := by
  rcases symbolRole text with ⟨spelling, kind, mem, _, same⟩ | same
  · rw [same]
    exact fun h => symbolKinds _ mem (by simpa using h)
  · rw [same]
    exact nofun

theorem isNameStartNotSpace {c : Char} (h : isNameStart c = true) : isSpace c = false := by
  refine Bool.eq_false_iff.mpr fun space => ?_
  simp only [isSpace, Bool.or_eq_true, beq_iff_eq] at space
  rcases space with (((rfl | rfl) | rfl) | rfl) | rfl <;> revert h <;> decide

theorem isDigitNotSpace {c : Char} (h : Text.isDigit c = true) : isSpace c = false := by
  refine Bool.eq_false_iff.mpr fun space => ?_
  simp only [isSpace, Bool.or_eq_true, beq_iff_eq] at space
  rcases space with (((rfl | rfl) | rfl) | rfl) | rfl <;> revert h <;> decide

theorem isNameStartNotDigit {c : Char} (h : isNameStart c = true) : Text.isDigit c = false := by
  simp only [isNameStart, Bool.or_eq_true, Text.isLetter, nameMarks, List.contains_iff_mem,
    Bool.and_eq_true, decide_eq_true_eq] at h
  rcases h with (⟨low, _⟩ | ⟨low, _⟩) | mark
  · simp only [Text.isDigit, Bool.and_eq_false_iff, decide_eq_false_iff_not, Char.not_le]
    exact .inr (Nat.lt_of_lt_of_le (by decide : ('9' : Char).toNat < _) low)
  · simp only [Text.isDigit, Bool.and_eq_false_iff, decide_eq_false_iff_not, Char.not_le]
    exact .inr (Nat.lt_of_lt_of_le (by decide : ('9' : Char).toNat < _) low)
  · have plain : (nameMarks.all fun c => !Text.isDigit c) = true := by decide
    simpa using List.all_eq_true.mp plain c mark

theorem lexemeNumber {c : Char} (h : Text.isDigit c = true) (rest : List Char) :
    lexeme c rest = number (c :: rest) := by
  unfold lexeme
  rw [if_neg (by simp [isDigitNotSpace h]), if_pos h]

theorem lexemeWord {c : Char} (h : isNameStart c = true) (rest : List Char) :
    lexeme c rest = ⟨.token (wordKind (c :: rest.takeWhile isNamePart)), run isNamePart rest + 1⟩ := by
  unfold lexeme
  rw [if_neg (by simp [isNameStartNotSpace h]), if_neg (by simp [isNameStartNotDigit h]), if_pos h,
    ← takeRun]

theorem lexemeEscaped {d : Char} (h : isNameStart d = true) (more : List Char) :
    lexeme '\\' (d :: more) = ⟨.token .identifier, run isNamePart more + 2⟩ := by
  show (if isNameStart d then _ else _) = _
  rw [if_pos h]

theorem lexemeName {c : Char} {rest : List Char} (h : (lexeme c rest).role = .token .identifier) :
    isNameStart c = true ∨ (c = '\\' ∧ ∃ d more, rest = d :: more ∧ isNameStart d = true) := by
  by_cases start : isNameStart c = true
  · exact .inl start
  · by_cases digit : Text.isDigit c = true
    · obtain ⟨kind, role, numeral⟩ := numberRole (c :: rest)
      rw [lexemeNumber digit, role] at h
      cases h
      exact absurd numeral nofun
    · unfold lexeme at h
      rw [if_neg digit, if_neg start] at h
      split at h
      · exact absurd h nofun
      · split at h
        · exact absurd h nofun
        · split at h <;> exact absurd h nofun
        · cases closed : (stringLength 1 rest).2 <;> simp [closed] at h
        · rename_i d more _
          by_cases named : isNameStart d = true
          · exact .inr ⟨rfl, d, more, rfl, named⟩
          · rw [if_neg named] at h
            exact absurd h nofun
        · exact absurd h (symbolNotName _)

theorem nameOfCut {text : List Char} {t : Token} (cut : IsCut text (word t)) (kind : t.kind = .identifier) :
    isName (Name.unescape t.text).toList = true := by
  obtain ⟨c, rest, _, role, same⟩ := cut
  rw [word, kind] at role
  have spelled : t.text.toList = taken c rest := same
  rcases lexemeName role with start | ⟨rfl, d, more, rfl, start⟩
  · have plain : c ≠ '\\' := by
      rintro rfl
      revert start
      decide
    have name : t.text.toList = c :: rest.takeWhile isNamePart := by
      rw [spelled, taken, lexemeWord start, Nat.add_sub_cancel, takeRun]
    rw [Name.unescape, name]
    split
    · rename_i same
      exact absurd (List.cons.inj same).1 plain
    · rw [name]
      simp [isName, start, List.all_takeWhile]
  · have name : t.text.toList = '\\' :: d :: more.takeWhile isNamePart := by
      rw [spelled, taken, lexemeEscaped start, Nat.add_sub_assoc (by decide), ← takeRun]
      rfl
    rw [Name.unescape, name]
    simp [isName, start, List.all_takeWhile]

end Boogie.Token
