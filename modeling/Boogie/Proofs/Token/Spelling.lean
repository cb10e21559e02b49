import Boogie.Proofs.Token.Names

/-! Terminals that are written in a row. Each is read back where the character behind it cannot be taken for
a part of it. -/
namespace Boogie.Token

def startsWith (p : Char → Bool) : List Char → Prop
  | [] => True
  | c :: _ => p c = true

theorem startsWithMono {p q : Char → Bool} (h : ∀ c, p c = true → q c = true) {text : List Char}
    (start : startsWith p text) : startsWith q text := by
  cases text with
  | nil => trivial
  | cons c rest => exact h c start

theorem startsWithAny (text : List Char) : startsWith (fun _ => true) text := by
  cases text with
  | nil => trivial
  | cons c rest => rfl

theorem takeWhileEnds {p : Char → Bool} {word rest : List Char} (whole : word.all p = true)
    (ends : startsWith (fun c => !p c) rest) : (word ++ rest).takeWhile p = word := by
  induction word with
  | nil =>
    cases rest with
    | nil => rfl
    | cons c rest =>
      have stops : p c = false := by simpa [startsWith] using ends
      simp [stops]
  | cons c word ih =>
    obtain ⟨first, more⟩ : p c = true ∧ word.all p = true := by simpa using whole
    simp [first, ih more]

theorem runEnds {p : Char → Bool} {word rest : List Char} (whole : word.all p = true)
    (ends : startsWith (fun c => !p c) rest) : run p (word ++ rest) = word.length := by
  rw [run, takeWhileEnds whole ends]

theorem wordsToken {c : Char} {text rest : List Char} {kind : Kind}
    (h : lexeme c (text ++ rest) = ⟨.token kind, text.length + 1⟩) :
    words (c :: (text ++ rest)) = ⟨kind, c :: text⟩ :: words rest := by
  rw [wordsCons, h]
  simp [Role.words, taken, h]

theorem wordsSpace (rest : List Char) : words (' ' :: rest) = words rest := by
  rw [wordsCons]
  rfl

theorem wordsNewline (rest : List Char) : words ('\n' :: rest) = words rest := by
  rw [wordsCons]
  rfl

theorem wordsWord {word rest : List Char} (name : isName word = true)
    (ends : startsWith (fun c => !isNamePart c) rest) :
    words (word ++ rest) = ⟨wordKind word, word⟩ :: words rest := by
  cases word with
  | nil => exact absurd name nofun
  | cons c word =>
    have ⟨start, parts⟩ : isNameStart c = true ∧ word.all isNamePart = true := by simpa [isName] using name
    refine wordsToken ?_
    rw [lexemeWord start, takeWhileEnds parts ends, runEnds parts ends]

theorem wordsEscaped {name rest : List Char} (isName : isName name = true)
    (ends : startsWith (fun c => !isNamePart c) rest) :
    words ('\\' :: (name ++ rest)) = ⟨.identifier, '\\' :: name⟩ :: words rest := by
  cases name with
  | nil => exact absurd isName nofun
  | cons d name =>
    have ⟨start, parts⟩ : isNameStart d = true ∧ name.all isNamePart = true := by
      simpa [Token.isName] using isName
    refine wordsToken ?_
    rw [List.cons_append, lexemeEscaped start, runEnds parts ends]
    rfl

def Word.of (kind : Kind) : Word := ⟨kind, kind.spelling.toList⟩

def Kind.isWord (k : Kind) : Bool := !k.isClass && isName k.spelling.toList

def Kind.endsBefore (k : Kind) (c : Char) : Bool :=
  if k.isWord then !isNamePart c
  else !(k == .slash && (c == '/' || c == '*')) &&
    symbolTable.all fun (spelling, _) => !(k.spelling.toList ++ [c]).isPrefixOf spelling

theorem wordKindSpelling : ∀ k ∈ Kind.all, k.isWord = true → wordKind k.spelling.toList = k := by
  decide +kernel

def Kind.isSymbol (k : Kind) : Bool := !k.isClass && !isName k.spelling.toList

theorem symbolSpelling : ∀ k ∈ Kind.all, k.isSymbol = true →
    (symbolTable.find? fun p => p.1.isPrefixOf k.spelling.toList) = some (k.spelling.toList, k) := by
  decide +kernel

def Kind.isMark (k : Kind) (c : Char) : Bool :=
  !isSpace c && !Text.isDigit c && !isNameStart c && c != '"' && c != '\\' && (c != '/' || k == .slash)

def Kind.isMarked (k : Kind) : List Char → Bool
  | c :: tail => k.isMark c && (k != .slash || tail.isEmpty)
  | [] => false

theorem symbolMarks : ∀ k ∈ Kind.all, k.isSymbol = true →
    ∃ c tail, k.spelling.toList = c :: tail ∧ k.isMark c = true ∧ (k = .slash → tail = []) := by
  have all : ∀ k ∈ Kind.all, k.isSymbol = true → k.isMarked k.spelling.toList = true := by decide +kernel
  intro k mem symbol
  have here := all k mem symbol
  cases spelled : k.spelling.toList with
  | nil => simp [spelled, Kind.isMarked] at here
  | cons c tail =>
    rw [spelled, Kind.isMarked] at here
    obtain ⟨mark, slash⟩ := Bool.and_eq_true_iff.mp here
    exact ⟨c, tail, rfl, mark, by rintro rfl; simpa using slash⟩

theorem lexemeMark {k : Kind} {c : Char} {rest : List Char} (mark : k.isMark c = true)
    (ends : k = .slash → startsWith (fun d => !(d == '/' || d == '*')) rest) :
    lexeme c rest = symbol (c :: rest) := by
  simp only [Kind.isMark, Bool.and_eq_true, Bool.not_eq_true', bne_iff_ne, ne_eq, Bool.or_eq_true,
    beq_iff_eq] at mark
  obtain ⟨⟨⟨⟨⟨space, digit⟩, name⟩, quote⟩, backslash⟩, slash⟩ := mark
  unfold lexeme
  rw [if_neg (by simp [space]), if_neg (by simp [digit]), if_neg (by simp [name])]
  split
  · have := ends (slash.resolve_left (· rfl))
    simp [startsWith] at this
  · have := ends (slash.resolve_left (· rfl))
    simp [startsWith] at this
  · exact absurd rfl quote
  · exact absurd rfl backslash
  · rfl

theorem prefixOfAppend {pre text rest : List Char} (h : pre <+: text ++ rest)
    (ends : startsWith (fun c => !(text ++ [c]).isPrefixOf pre) rest) : pre <+: text := by
  cases rest with
  | nil => simpa using h
  | cons c rest =>
    rcases Nat.lt_or_ge text.length pre.length with longer | shorter
    · have whole : text ++ [c] <+: text ++ c :: rest := by simp
      have goes : text ++ [c] <+: pre := List.prefix_of_prefix_length_le whole h (by simpa using Nat.succ_le_of_lt longer)
      rw [startsWith, List.isPrefixOf_iff_prefix.mpr goes] at ends
      exact Bool.noConfusion ends
    · exact List.prefix_of_prefix_length_le h (List.prefix_append _ _) shorter

theorem findPrefix {table : List (List Char × Kind)} {text rest : List Char}
    (ends : ∀ p ∈ table, startsWith (fun c => !(text ++ [c]).isPrefixOf p.1) rest) :
    (table.find? fun p => p.1.isPrefixOf (text ++ rest)) = table.find? fun p => p.1.isPrefixOf text := by
  induction table with
  | nil => rfl
  | cons p table ih =>
    have same : p.1.isPrefixOf (text ++ rest) = p.1.isPrefixOf text := by
      refine Bool.eq_iff_iff.mpr ?_
      rw [List.isPrefixOf_iff_prefix, List.isPrefixOf_iff_prefix]
      exact ⟨fun h => prefixOfAppend h (ends p (by simp)), fun h => h.trans (List.prefix_append _ _)⟩
    rw [List.find?_cons, List.find?_cons, same, ih fun q mem => ends q (by simp [mem])]

theorem wordsOfKind {k : Kind} (spelled : k.isClass = false) {rest : List Char}
    (ends : startsWith k.endsBefore rest) : words (k.spelling.toList ++ rest) = .of k :: words rest := by
  by_cases word : k.isWord = true
  · have name : isName k.spelling.toList = true := by simpa [Kind.isWord, spelled] using word
    rw [wordsWord name (startsWithMono (fun c h => by simpa [Kind.endsBefore, word] using h) ends),
      wordKindSpelling k (Kind.memAll k) word, Word.of]
  · have isSymbol : k.isSymbol = true := by simpa [Kind.isSymbol, Kind.isWord, spelled] using word
    obtain ⟨c, tail, same, mark, slash⟩ := symbolMarks k (Kind.memAll k) isSymbol
    have found := symbolSpelling k (Kind.memAll k) isSymbol
    have plain : ∀ d, k.endsBefore d = true → (k = .slash → ¬ d = '/' ∧ ¬ d = '*') ∧
        ∀ p ∈ symbolTable, (k.spelling.toList ++ [d]).isPrefixOf p.1 = false := by
      intro d h
      simpa [Kind.endsBefore, word, Classical.or_iff_not_imp_left] using h
    have lex : lexeme c (tail ++ rest) = symbol (k.spelling.toList ++ rest) := by
      rw [same]
      refine lexemeMark mark fun isSlash => ?_
      rw [slash isSlash]
      exact startsWithMono (fun d h => by simpa using (plain d h).1 isSlash) ends
    rw [same, List.cons_append, Word.of, same]
    refine wordsToken ?_
    rw [lex, symbol, findPrefix fun p mem => startsWithMono (fun d h => by simp [(plain d h).2 p mem]) ends,
      found]
    simp [same]

abbrev Spelling := List (Option Kind)

namespace Spelling

def chars : Spelling → List Char
  | [] => []
  | none :: rest => ' ' :: chars rest
  | some k :: rest => k.spelling.toList ++ chars rest

def kinds (row : Spelling) : List Kind := row.filterMap id

def endsBefore : Spelling → Char → Bool
  | [], _ => true
  | [some k], c => k.endsBefore c
  | _ :: rest, c => endsBefore rest c

def isApart : Spelling → Bool
  | [] => true
  | none :: rest => isApart rest
  | some k :: rest =>
    !k.isClass && (rest.isEmpty || (chars rest).head?.any k.endsBefore) && isApart rest

theorem wordsOf (row : Spelling) (apart : isApart row = true) {rest : List Char}
    (ends : startsWith (endsBefore row) rest) :
    words (chars row ++ rest) = (kinds row).map Word.of ++ words rest := by
  induction row with
  | nil => rfl
  | cons k row ih =>
    have later : startsWith (endsBefore row) rest := by
      cases row with
      | nil => exact startsWithAny rest
      | cons next row => cases k <;> exact ends
    cases k with
    | none =>
      rw [chars, List.cons_append, wordsSpace, ih apart later]
      rfl
    | some k =>
      simp only [isApart, Bool.and_eq_true, Bool.not_eq_true', Bool.or_eq_true] at apart
      obtain ⟨⟨spelled, meets⟩, apart⟩ := apart
      have next : startsWith k.endsBefore (chars row ++ rest) := by
        rcases meets with last | meets
        · rw [List.isEmpty_iff.mp last] at ends ⊢
          exact ends
        · cases behind : chars row with
          | nil => simp [behind] at meets
          | cons c more => simpa [behind, startsWith] using meets
      rw [chars, List.append_assoc, wordsOfKind spelled next, ih apart later]
      rfl

theorem terminalOfApart {row : Spelling} (apart : isApart row = true) : ∀ k ∈ kinds row, k.isTerminal = true := by
  induction row with
  | nil => exact nofun
  | cons k row ih =>
    cases k with
    | none => exact ih apart
    | some k =>
      simp only [isApart, Bool.and_eq_true, Bool.not_eq_true'] at apart
      obtain ⟨⟨spelled, -⟩, apart⟩ := apart
      refine List.forall_mem_cons.mpr ⟨bne_iff_ne.mpr ?_, ih apart⟩
      rintro rfl
      contradiction

end Spelling

end Boogie.Token
