import Boogie.Proofs.Reread.Ty

/-! Escaping against scanning. What a name is written as is scanned as one token, which stands for the name again,
also where a type is read; and a name is written with a backslash only where it could not be told apart without. -/
namespace Boogie

open Token (ScansAs words)

def LooksLikeWidth (n : String) : Prop := ∃ digits, n.toList = 'b' :: 'v' :: digits ∧ Text.isDigits digits = true

theorem looksLikeWidthIff {n : String} : LooksLikeWidth n ↔ (Name.bitVectorDigits n).isSome = true := by
  constructor
  · rintro ⟨digits, same, all⟩
    simp [Name.bitVectorDigits, same, all]
  · intro some
    unfold Name.bitVectorDigits at some
    split at some
    · rename_i digits same
      split at some
      · exact ⟨digits, same, ‹_›⟩
      · contradiction
    · contradiction

theorem escapeCases (n : String) :
    Name.escape n = n ∧ Name.isReserved n = false ∧ ¬LooksLikeWidth n ∨
      Name.escape n = "\\" ++ n ∧ (Name.isReserved n = true ∨ LooksLikeWidth n) := by
  rw [looksLikeWidthIff, Name.escape]
  cases Name.isReserved n <;> cases (Name.bitVectorDigits n).isSome <;> simp

theorem escapedNe (n : String) : "\\" ++ n ≠ n := by
  intro same
  have count := congrArg String.length same
  rw [String.length_append] at count
  exact absurd count (by simp)

section Name

variable {n : String} (written : Layout.isWritten n)
include written

theorem wordsOfName : words n.toList = [⟨Token.wordKind n.toList, n.toList⟩] := by
  have nothing : Token.startsWith (fun c => !Token.isNamePart c) [] := trivial
  have whole := Token.wordsWord written nothing
  rwa [List.append_nil, Token.wordsNil] at whole

theorem wordsOfEscape : words (Name.escape n).toList = [⟨.identifier, (Name.escape n).toList⟩] := by
  have nothing : Token.startsWith (fun c => !Token.isNamePart c) [] := trivial
  have whole := Layout.wordsEscape written nothing
  rwa [List.append_nil, Token.wordsNil] at whole

theorem escapedIff :
    Name.escape n ≠ n ↔ (¬∃ t, ScansAs .identifier n.toList t) ∨ LooksLikeWidth n := by
  have asName : (∃ t, ScansAs .identifier n.toList t) ↔ Name.isReserved n = false := by
    rw [Token.scansAsIff, wordsOfName written, ← Layout.wordKindIff]
    simp
  rw [asName, Bool.not_eq_false]
  rcases escapeCases n with ⟨same, free, other⟩ | ⟨longer, needed⟩
  · simp [same, free, other]
  · rw [longer]
    exact iff_of_true (escapedNe n) needed

end Name

namespace Grammar

theorem typeRun (s : State) : ∃ inner, type.run s = (typeLevel inner).run s := by
  simp only [type, ahead, Production.runBind, Production.runRead]
  cases s.cursor.ahead with
  | nil => exact ⟨_, rfl⟩
  | cons t rest => exact ⟨_, rfl⟩

theorem identWrittenRun {s : State} (name : s.kind = .identifier) :
    identWritten.run s = ((⟨Name.unescape s.cursor.current.text, s.cursor.current.span⟩,
      Name.unescape s.cursor.current.text != s.cursor.current.text), s.advance) := by
  simp [identWritten, check, name, advance]

theorem noTypeArgs {s : State} {inner : Production Ty} (other : typeStart.contains s.kind = false) :
    (typeArgs inner).run s = ([], s) := by
  rw [typeStart, Token.KindSet.containsUnion, Bool.or_eq_false_iff] at other
  simp only [typeArgs, Production.runBind, checkAny, manyNextNone other.1, runNextIs, other.2]
  rfl

variable {n : String} {s : State} (written : Layout.isWritten n) (name : s.kind = .identifier)
  (spelled : s.cursor.current.text = Name.escape n)
include written name spelled

theorem identOfEscape : identWritten.run s = ((⟨n, s.cursor.current.span⟩, n != Name.escape n), s.advance) := by
  rw [identWrittenRun name, spelled, Layout.unescapeEscape written]

theorem typeLevelOfEscape (inner : Production Ty) :
    ∃ span, (typeLevel inner).run s = (.named span n ((typeArgs inner).run s.advance).1,
      ((typeArgs inner).run s.advance).2) := by
  refine ⟨s.cursor.current.span.merge ((typeArgs inner).run s.advance).2.cursor.previous.span, ?_⟩
  simp [typeLevel, check, name, currentSpan, identOfEscape written name spelled, spanFrom, previousSpan, namedOfPrinted]

theorem typeArgumentOfEscape (inner : Production Ty) :
    (typeArgument inner).run s = (.named s.cursor.current.span n [], s.advance) := by
  simp [typeArgument, check, name, identOfEscape written name spelled, namedOfPrinted]

theorem typeOfEscape : (∃ span args, (type.run s).1 = .named span n args) ∧
    (typeStart.contains s.advance.kind = false → ∃ span, type.run s = (.named span n [], s.advance)) := by
  obtain ⟨inner, run⟩ := typeRun s
  obtain ⟨span, level⟩ := typeLevelOfEscape written name spelled inner
  rw [run, level]
  refine ⟨⟨span, _, rfl⟩, fun alone => ⟨span, ?_⟩⟩
  rw [noTypeArgs alone]

end Grammar

/-- What a name is written as is scanned as one token, a name that stands for itself again, and where a type or an
argument of one is read it is that name and no other type. A backslash is put in front just when without it there
would be another token, or `bv` with digits behind. -/
theorem escapeInvertsScanning {n : String} (written : Token.isName n.toList = true) :
    (∃ t, ScansAs .identifier (Name.escape n).toList t ∧ Name.unescape t.text = n) ∧
    (∀ s : Grammar.State, s.kind = .identifier → s.cursor.current.text = Name.escape n →
      (∃ span args, (Grammar.type.run s).1 = .named span n args) ∧
      (Grammar.typeStart.contains s.advance.kind = false →
        ∃ span, Grammar.type.run s = (.named span n [], s.advance)) ∧
      ∀ inner, ∃ span, (Grammar.typeArgument inner).run s = (.named span n [], s.advance)) ∧
    (Name.escape n = n ∨ Name.escape n = "\\" ++ n) ∧
    (Name.escape n ≠ n ↔ (¬∃ t, ScansAs .identifier n.toList t) ∨ LooksLikeWidth n) := by
  have isWritten : Layout.isWritten n := written
  refine ⟨?_, fun s name spelled => ?_, ?_, escapedIff isWritten⟩
  · obtain ⟨t, scans⟩ := Token.scansAsIff.mpr (wordsOfEscape isWritten)
    refine ⟨t, scans, ?_⟩
    rw [String.toList_inj.mp scans.text, Layout.unescapeEscape isWritten]
  · obtain ⟨named, alone⟩ := Grammar.typeOfEscape isWritten name spelled
    exact ⟨named, alone, fun inner => ⟨_, Grammar.typeArgumentOfEscape isWritten name spelled inner⟩⟩
  · rcases escapeCases n with ⟨same, _⟩ | ⟨longer, _⟩
    · exact .inl same
    · exact .inr longer

theorem escapeOfWideName :
    Token.isName "bv4294967296".toList = true ∧ LooksLikeWidth "bv4294967296" ∧
      Name.escape "bv4294967296" = "\\bv4294967296" ∧
      ∃ t, ScansAs .identifier "\\bv4294967296".toList t ∧ Name.unescape t.text = "bv4294967296" := by
  have written : Token.isName "bv4294967296".toList = true := by decide
  have width : LooksLikeWidth "bv4294967296" := ⟨_, rfl, by decide⟩
  have escaped : Name.escape "bv4294967296" = "\\bv4294967296" := by decide +kernel
  obtain ⟨scans, _⟩ := escapeInvertsScanning written
  rw [escaped] at scans
  exact ⟨written, width, escaped, scans⟩

end Boogie
