import Boogie.Layout.Ty
import Boogie.Proofs.Grammar.Reads
import Boogie.Proofs.Printed.Pieces

/-! Printed names. A name that is a reserved word, or that of a bitvector type, is read back from behind its
backslash, and any other as it stands. -/
namespace Boogie.Layout

open Token (Word startsWith)

def nameWord (n : String) : Word := ⟨.identifier, (Name.escape n).toList⟩

def isWritten (n : String) : Prop := Token.isName n.toList = true

theorem reservedWords : (∀ word ∈ Name.reserved, Token.wordKind word.toList ≠ .identifier) ∧
    ∀ p ∈ Token.reservedWords, p.1 ∈ Name.reserved := by decide +kernel

theorem wordKindOfName {n : String} (free : Name.isReserved n = false) : Token.wordKind n.toList = .identifier := by
  have none : Token.wordTable.lookup n.toList = none := by
    refine List.lookup_eq_none_iff.mpr fun p mem => ?_
    obtain ⟨⟨word, kind⟩, listed, rfl⟩ := List.mem_map.mp mem
    have other : word ≠ n := by
      rintro rfl
      have found : Name.isReserved word = true := List.contains_iff_mem.mpr (reservedWords.2 _ listed)
      exact absurd found (by simp [free])
    simpa [bne, String.toList_inj] using Ne.symm other
  rw [Token.wordKind, none]
  rfl

theorem wordKindIff {n : String} : Token.wordKind n.toList = .identifier ↔ Name.isReserved n = false := by
  refine ⟨fun word => Bool.eq_false_iff.mpr fun reserved => ?_, wordKindOfName⟩
  exact reservedWords.1 n (List.contains_iff_mem.mp reserved) word

theorem startOfName {n : String} (written : isWritten n) :
    ∃ c rest, n.toList = c :: rest ∧ Token.isNameStart c = true := by
  cases same : n.toList with
  | nil => simp [isWritten, same, Token.isName] at written
  | cons c rest =>
    have parts : Token.isNameStart c = true ∧ rest.all Token.isNamePart = true := by
      simpa [isWritten, same, Token.isName] using written
    exact ⟨c, rest, rfl, parts.1⟩

theorem unescapeEscape {n : String} (written : isWritten n) : Name.unescape (Name.escape n) = n := by
  rw [Name.escape]
  split
  · simp [Name.unescape]
  · obtain ⟨c, rest, same, start⟩ := startOfName written
    rw [Name.unescape, same]
    split
    · rename_i backslash
      rw [(List.cons.inj backslash).1] at start
      exact absurd start (by decide)
    · rfl

@[simp] theorem nameOfWord {n : String} (written : isWritten n) : Grammar.Reads.nameOf (nameWord n).text = n := by
  rw [Grammar.Reads.nameOf, nameWord, String.ofList_toList, unescapeEscape written]

theorem wordsEscape {n : String} (written : isWritten n) {rest : List Char}
    (ends : startsWith (fun c => !Token.isNamePart c) rest) :
    Token.words ((Name.escape n).toList ++ rest) = nameWord n :: Token.words rest := by
  rw [nameWord, Name.escape]
  split
  · simpa using Token.wordsEscaped written ends
  · rename_i plain
    have free : Name.isReserved n = false := (Bool.or_eq_false_iff.mp (Bool.eq_false_iff.mpr plain)).1
    rw [Token.wordsWord written ends, wordKindOfName free]

theorem startsName {n : String} (written : isWritten n) (rest : List Char) :
    startsWith Edge.mark.allows (n.toList ++ rest) := by
  obtain ⟨c, more, same, start⟩ := startOfName written
  rw [same]
  show Edge.mark.allows c = true
  refine Bool.and_eq_true_iff.mpr ⟨bne_iff_ne.mpr ?_, bne_iff_ne.mpr ?_⟩ <;> rintro rfl <;>
    exact absurd start (by decide)

theorem startsEscape {n : String} (written : isWritten n) (rest : List Char) :
    startsWith Edge.mark.allows ((Name.escape n).toList ++ rest) := by
  rw [Name.escape]
  split
  · rw [String.toList_append]
    exact (rfl : Edge.mark.allows '\\' = true)
  · exact startsName written rest

theorem nameWords {n : String} (written : isWritten n) : wordsOf (name n) = [nameWord n] := by
  have nothing : startsWith (fun c => !Token.isNamePart c) [] := trivial
  have whole := wordsEscape written nothing
  rw [List.append_nil, Token.wordsNil] at whole
  rw [name, wordsOfCons, wordsOfNil, List.append_nil]
  exact whole

theorem flowsName {n : String} (written : isWritten n) : Flows .mark (name n) .word := by
  have alone : (Piece.text (Name.escape n)).words = [nameWord n] := by simpa [name] using nameWords written
  refine .piece (fun rest _ => startsEscape written rest) (fun rest ends => ?_) ?_
  · rw [alone]
    exact wordsEscape written (endsNameOfWord ends)
  · simp [alone, nameWord, Token.Kind.isTerminal]

def isPlain (n : String) : Prop := Token.wordKind n.toList = .identifier

theorem wordKindOfFront {front : List Char} (other : (Token.wordTable.all fun p => !front.isPrefixOf p.1) = true)
    (more : List Char) : Token.wordKind (front ++ more) = .identifier := by
  have none : Token.wordTable.lookup (front ++ more) = none := by
    refine List.lookup_eq_none_iff.mpr fun p mem => bne_iff_ne.mpr fun same => ?_
    have here := List.all_eq_true.mp other p mem
    rw [← same, List.isPrefixOf_iff_prefix.mpr (List.prefix_append front more)] at here
    contradiction
  rw [Token.wordKind, none]
  rfl

theorem isNameWithDigits {front : List Char} (name : Token.isName front = true) (n : Nat) :
    Token.isName (front ++ Nat.toDigits 10 n) = true := by
  have digits := List.all_eq_true.mp (Text.allDigits n)
  have parts : ((Nat.toDigits 10 n).all Token.isNamePart) = true :=
    List.all_eq_true.mpr fun c mem => by simp [Token.isNamePart, digits c mem]
  cases front with
  | nil => exact absurd name (by decide)
  | cons c rest =>
    have both : Token.isNameStart c = true ∧ rest.all Token.isNamePart = true := by
      simpa [Token.isName] using name
    simp [Token.isName, both, parts]

theorem widthToList (width : Nat) : ("bv" ++ toString width).toList = ['b', 'v'] ++ Nat.toDigits 10 width := by
  rw [String.toList_append, Text.toStringDigits]
  rfl

theorem placeToList (i : Nat) : ("_" ++ toString i).toList = ['_'] ++ Nat.toDigits 10 i := by
  rw [String.toList_append, Text.toStringDigits]
  rfl

theorem writtenWidth (width : Nat) : isWritten ("bv" ++ toString width) := by
  rw [isWritten, widthToList]
  exact isNameWithDigits (by decide) width

theorem plainWidth (width : Nat) : isPlain ("bv" ++ toString width) := by
  rw [isPlain, widthToList]
  exact wordKindOfFront (by decide) _

theorem writtenPlace (i : Nat) : isWritten ("_" ++ toString i) := by
  rw [isWritten, placeToList]
  exact isNameWithDigits (by decide) i

theorem plainPlace (i : Nat) : isPlain ("_" ++ toString i) := by
  rw [isPlain, placeToList]
  exact wordKindOfFront (by decide) _

theorem wordsPlain {n : String} (written : isWritten n) (plain : isPlain n) {rest : List Char}
    (ends : startsWith (fun c => !Token.isNamePart c) rest) :
    Token.words (n.toList ++ rest) = ⟨.identifier, n.toList⟩ :: Token.words rest := by
  rw [Token.wordsWord written ends, plain]

theorem plainWords {n : String} (written : isWritten n) (plain : isPlain n) :
    (Piece.text n).words = [⟨.identifier, n.toList⟩] := by
  have nothing : startsWith (fun c => !Token.isNamePart c) [] := trivial
  have whole := wordsPlain written plain nothing
  rwa [List.append_nil, Token.wordsNil] at whole

theorem flowsPlain {n : String} (written : isWritten n) (plain : isPlain n) : Flows .mark [.text n] .word := by
  refine .piece (fun rest _ => startsName written rest) (fun rest ends => ?_) ?_
  · rw [plainWords written plain]
    exact wordsPlain written plain (endsNameOfWord ends)
  · simp [plainWords written plain, Token.Kind.isTerminal]

end Boogie.Layout
