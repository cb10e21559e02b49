import Boogie.Conditional
import Boogie.Proofs.Printed.Inline
import Boogie.Proofs.Text.Lines
import Mathlib.Data.List.TakeWhile

/-! Lines that are directives. A name is one too where it reads like one and white space stands behind it. What
is printed piece by piece is looked at line by line, from wherever on a line the pieces begin. -/
namespace Boogie

open Conditional (directive)

def directiveNames : List String := ["#if", "#elsif", "#else", "#endif"]

theorem directiveBlank {c : Char} (blank : Text.isBlank c = true) (line : List Char) :
    directive (c :: line) = directive line := by simp [directive, Text.trimStart, blank]

def opensPlain (c : Char) : Bool := !Text.isBlank c && c != '#'

theorem directiveOther {c : Char} (plain : opensPlain c = true) (line : List Char) :
    directive (c :: line) = none := by
  obtain ⟨solid, other⟩ : Text.isBlank c = false ∧ c ≠ '#' := by simpa [opensPlain] using plain
  rw [directive, Text.trimStart, List.dropWhile_cons_of_neg (by simp [solid])]
  split
  · rename_i same
    exact absurd (List.cons.inj same).1 other
  · rfl

theorem blankNames : Token.nameMarks.all (!Text.isBlank ·) = true := by decide

theorem solidPart {c : Char} (part : Token.isNamePart c = true) : Text.isBlank c = false := by
  simp only [Token.isNamePart, Token.isNameStart, Text.isLetter, Text.isDigit, Bool.or_eq_true, Bool.and_eq_true,
    decide_eq_true_eq, List.contains_iff_mem] at part
  have ranged {low high : Char} (below : low ≤ c) (above : c ≤ high) (inside : 33 ≤ low.toNat ∧ high.toNat ≤ 126) :
      Text.isBlank c = false := by
    have less : low.toNat ≤ c.toNat := below
    have more : c.toNat ≤ high.toNat := above
    simp only [Text.isBlank, Bool.or_eq_false_iff, Bool.and_eq_false_iff, decide_eq_false_iff_not, beq_eq_false_iff_ne]
    omega
  rcases part with ((small | large) | mark) | digit
  · exact ranged small.1 small.2 (by decide)
  · exact ranged large.1 large.2 (by decide)
  · simpa using List.all_eq_true.mp blankNames c mark
  · exact ranged digit.1 digit.2 (by decide)

theorem directiveMark (line : List Char) : directive ('#' :: line) = none ↔
    ((line.dropWhile Text.isLetter).head?.all Text.isBlank = true →
      String.ofList ('#' :: line.takeWhile Text.isLetter) ∉ directiveNames) := by
  have word (w : String) (letters : List Char) : String.ofList ('#' :: letters) = "#" ++ w ↔ letters = w.toList := by
    rw [← String.toList_inj]
    simp
  have starts : Text.trimStart ('#' :: line) = '#' :: line := by simp [Text.trimStart, Text.isBlank]
  have first (text : List Char) : (text.take 1).all Text.isBlank = text.head?.all Text.isBlank := by
    cases text <;> simp
  simp only [directive, starts, first, directiveNames, List.mem_cons, List.not_mem_nil, or_false, not_or]
  rw [show "#if" = "#" ++ "if" from rfl, show "#elsif" = "#" ++ "elsif" from rfl,
    show "#else" = "#" ++ "else" from rfl, show "#endif" = "#" ++ "endif" from rfl]
  simp only [word]
  cases ends : (line.dropWhile Text.isLetter).head?.all Text.isBlank with
  | false => simp
  | true =>
    simp only [Bool.not_true, Bool.false_eq_true, if_false, forall_const]
    repeat' split
    all_goals simp_all

theorem directiveShape : ∀ n ∈ directiveNames, (Name.isReserved n || (Name.bitVectorDigits n).isSome) = false ∧
    ∃ letters, n.toList = '#' :: letters ∧ letters.all Text.isLetter = true := by
  intro n mem
  simp only [directiveNames, List.mem_cons, List.not_mem_nil, or_false] at mem
  rcases mem with rfl | rfl | rfl | rfl <;> exact ⟨by decide +kernel, _, rfl, by decide⟩

theorem directiveName {n : String} (written : Layout.isWritten n) {c : Char} (ends : Token.isNamePart c = false)
    (more : List Char) :
    directive ((Name.escape n).toList ++ c :: more) = none ↔ (Text.isBlank c = true → n ∉ directiveNames) := by
  rw [Name.escape]
  split
  · rename_i escaped
    have other : n ∉ directiveNames := fun mem => by simp [(directiveShape n mem).1] at escaped
    have none := directiveOther (c := '\\') (by decide) (n.toList ++ c :: more)
    simpa [other] using none
  · obtain ⟨d, parts, same, start⟩ := Layout.startOfName written
    have ofParts : ∀ e ∈ parts, Token.isNamePart e = true := by
      simpa [Layout.isWritten, same, Token.isName, start] using written
    rw [same, List.cons_append]
    by_cases mark : d = '#'
    · subst mark
      have letter : Text.isLetter c = false := Bool.eq_false_iff.mpr fun h => by
        simp [Token.letterIsPart h] at ends
      rw [directiveMark]
      cases rest : parts.dropWhile Text.isLetter with
      | nil =>
        have letters : ∀ e ∈ parts, Text.isLetter e = true := List.dropWhile_eq_nil_iff.mp rest
        have whole : String.ofList ('#' :: parts) = n := by rw [← same, String.ofList_toList]
        rw [List.dropWhile_append_of_pos letters, List.takeWhile_append_of_pos letters]
        simp [letter, whole]
      | cons e rest' =>
        have solid : Text.isBlank e = false :=
          solidPart (ofParts e ((List.dropWhile_suffix _).subset (rest ▸ List.mem_cons_self)))
        have other : n ∉ directiveNames := fun mem => by
          obtain ⟨letters, same', all⟩ := (directiveShape n mem).2
          obtain rfl : parts = letters := (List.cons.inj (same.symm.trans same')).2
          rw [List.dropWhile_eq_nil_iff.mpr (List.all_eq_true.mp all)] at rest
          contradiction
        rw [List.dropWhile_append, rest]
        simp [solid, other]
    · have plain : opensPlain d = true := by
        simp [opensPlain, mark, solidPart (by simp [Token.isNamePart, start] : Token.isNamePart d = true)]
      have other : n ∉ directiveNames := fun mem => by
        obtain ⟨letters, same', _⟩ := (directiveShape n mem).2
        exact mark (List.cons.inj (same.symm.trans same')).1
      simp [directiveOther plain, other]

theorem directiveSpaced {n : String} (written : Layout.isWritten n) (more : List Char) :
    directive ((Name.escape n).toList ++ ' ' :: more) = none ↔ n ∉ directiveNames :=
  (directiveName written (by decide) more).trans (forall_prop_of_true (by decide))

theorem directiveMarked {n : String} (written : Layout.isWritten n) {c : Char}
    (ends : Token.isNamePart c = false) (solid : Text.isBlank c = false) (more : List Char) :
    directive ((Name.escape n).toList ++ c :: more) = none :=
  (directiveName written ends more).mpr fun blank => absurd (solid ▸ blank) nofun

def Calm (fresh : Bool) (text : List Char) : Prop :=
  ∀ line ∈ if fresh then splitLines text else (splitLines text).tail, directive line = none

theorem calmNil (fresh : Bool) : Calm fresh [] := by
  cases fresh <;> simp [Calm, splitLines, directive, Text.trimStart]

theorem calmNewline (fresh : Bool) (rest : List Char) : Calm fresh ('\n' :: rest) ↔ Calm true rest := by
  have blank : directive [] = none := rfl
  cases fresh <;> simp [Calm, splitLines, Text.splitMark, blank]

theorem calmBehind {c : Char} (other : c ≠ '\n') (rest : List Char) : Calm false (c :: rest) ↔ Calm false rest := by
  rw [Calm, Calm, splitLines, Text.splitCons other, splitLines]
  cases same : Text.split '\n' rest with
  | nil => exact absurd same (Text.splitNe _ rest)
  | cons line more => rfl

def firstLine (text : List Char) : List Char := text.takeWhile (· != '\n')

theorem splitFirst (text : List Char) : ∃ more, splitLines text = firstLine text :: more := by
  induction text with
  | nil => exact ⟨[], rfl⟩
  | cons c rest ih =>
    by_cases mark : c = '\n'
    · exact ⟨_, by rw [splitLines, mark, Text.splitMark]; rfl⟩
    · obtain ⟨more, same⟩ := ih
      refine ⟨more, ?_⟩
      rw [splitLines] at same
      rw [splitLines, Text.splitCons mark, same, Text.consPart, firstLine, firstLine,
        List.takeWhile_cons_of_pos (by simpa using mark)]

theorem calmFresh (text : List Char) : Calm true text ↔ directive (firstLine text) = none ∧ Calm false text := by
  obtain ⟨more, same⟩ := splitFirst text
  simp [Calm, same]

theorem calmPart {part : List Char} (plain : '\n' ∉ part) (rest : List Char) :
    Calm false (part ++ rest) ↔ Calm false rest := by
  induction part with
  | nil => rfl
  | cons c part ih =>
    have ⟨other, plainPart⟩ : c ≠ '\n' ∧ '\n' ∉ part := by simpa [eq_comm] using plain
    rw [List.cons_append, calmBehind other, ih plainPart]

theorem firstLinePart {part : List Char} (plain : '\n' ∉ part) (rest : List Char) :
    firstLine (part ++ rest) = part ++ firstLine rest := by
  rw [firstLine, List.takeWhile_append_of_pos, firstLine]
  intro c mem
  have other : c ≠ '\n' := fun same => plain (same ▸ mem)
  simpa using other

theorem calmBlank {c : Char} (blank : Text.isBlank c = true) (other : c ≠ '\n') (rest : List Char) :
    Calm true (c :: rest) ↔ Calm true rest := by
  have first : firstLine (c :: rest) = c :: firstLine rest := by simp [firstLine, other]
  rw [calmFresh, first, directiveBlank blank, calmBehind other, ← calmFresh]

theorem calmSpaces (n : Nat) (rest : List Char) : Calm true (List.replicate n ' ' ++ rest) ↔ Calm true rest := by
  induction n with
  | zero => rfl
  | succ n ih => rw [List.replicate_succ, List.cons_append, calmBlank (by decide) (by decide), ih]

theorem firstLineClosed (text : List Char) : firstLine (text ++ ['\n']) = firstLine text := by
  induction text with
  | nil => rfl
  | cons c rest ih =>
    by_cases mark : c = '\n'
    · simp [firstLine, mark]
    · simpa [firstLine, mark] using ih

theorem calmClosed (fresh : Bool) (text : List Char) : Calm fresh (text ++ ['\n']) ↔ Calm fresh text := by
  induction text generalizing fresh with
  | nil =>
    rw [List.nil_append, calmNewline]
    exact iff_of_true (calmNil true) (calmNil fresh)
  | cons c rest ih =>
    rw [List.cons_append]
    by_cases mark : c = '\n'
    · rw [mark, calmNewline, calmNewline, ih]
    · have first : firstLine (c :: (rest ++ ['\n'])) = firstLine (c :: rest) := firstLineClosed (c :: rest)
      cases fresh with
      | false => rw [calmBehind mark, calmBehind mark, ih]
      | true => rw [calmFresh, calmFresh, first, calmBehind mark, calmBehind mark, ih]

theorem calmManyClosed (fresh : Bool) (text : List Char) (n : Nat) :
    Calm fresh (text ++ List.replicate n '\n') ↔ Calm fresh text := by
  induction n with
  | zero => simp
  | succ n ih => rw [List.replicate_succ', ← List.append_assoc, calmClosed, ih]

namespace Layout

theorem calmEndLine (text : String) : Calm true (endLine text).toList ↔ Calm true text.toList := by
  rw [endLine]
  split
  · rfl
  · obtain ⟨n, whole⟩ : ∃ n, text.toList =
        (text.toList.reverse.dropWhile (· == '\n')).reverse ++ List.replicate n '\n' := by
      refine ⟨(text.toList.reverse.takeWhile (· == '\n')).length, ?_⟩
      have marks : text.toList.reverse.takeWhile (· == '\n') =
          List.replicate (text.toList.reverse.takeWhile (· == '\n')).length '\n' :=
        List.eq_replicate_of_mem fun c mem => by simpa using List.mem_takeWhile_imp mem
      rw [← List.reverse_replicate, ← marks, ← List.reverse_append, List.takeWhile_append_dropWhile,
        List.reverse_reverse]
    rw [String.toList_ofList, calmClosed]
    conv => rhs; rw [whole]
    rw [calmManyClosed]

def Lays (P : Prop) (fresh : Bool) (ps : List Piece) (fresh' : Bool) : Prop :=
  ∀ rest, Calm fresh (chars ps ++ rest) ↔ P ∧ Calm fresh' rest

namespace Lays

variable {P Q : Prop} {fresh fresh' fresh'' : Bool} {ps qs : List Piece}

theorem nil : Lays True fresh [] fresh := fun rest => by simp [chars]

theorem both (first : Lays P fresh ps fresh') (more : Lays Q fresh' qs fresh'') :
    Lays (P ∧ Q) fresh (ps ++ qs) fresh'' := fun rest => by
  rw [charsAppend, List.append_assoc, first, more, and_assoc]

theorem iff (same : P ↔ Q) (h : Lays P fresh ps fresh') : Lays Q fresh ps fresh' := fun rest => by rw [← same, h]

theorem append (first : Lays True fresh ps fresh') (more : Lays P fresh' qs fresh'') :
    Lays P fresh (ps ++ qs) fresh'' := (first.both more).iff (by rw [true_and])

theorem before (first : Lays P fresh ps fresh') (more : Lays True fresh' qs fresh'') :
    Lays P fresh (ps ++ qs) fresh'' := (first.both more).iff (by rw [and_true])

theorem inline (h : IsInline ps) : Lays True false ps false := fun rest => by
  rw [calmPart h, true_and]

theorem newline : Lays True fresh [.newline] true := fun rest => by
  rw [true_and]
  exact calmNewline fresh rest

theorem indent {n : Nat} : Lays True true [.indent n] true := fun rest => by
  have one : chars [.indent n] = List.replicate n ' ' := (List.append_nil _).trans (indentChars n)
  rw [one, true_and, calmSpaces]

theorem headed (h : IsInline ps) (front : ∀ more, directive (chars ps ++ more) = none ↔ P) : Lays P true ps false :=
  fun rest => by rw [calmFresh, firstLinePart h, front, calmPart h]

theorem opened {c : Char} {text : List Char} (h : IsInline ps) (front : chars ps = c :: text)
    (plain : opensPlain c = true) : Lays True true ps false :=
  headed h fun more => by simp [front, directiveOther plain]

theorem cons {p : Piece} (first : Lays True fresh [p] fresh') (more : Lays P fresh' qs fresh'') :
    Lays P fresh (p :: qs) fresh'' := first.append more

theorem word {s : String} (h : IsInline (.text s :: ps)) (plain : s.toList.head?.any opensPlain = true) :
    Lays True true (.text s :: ps) false := by
  cases same : s.toList with
  | nil => simp [same] at plain
  | cons c text =>
    have front : chars (.text s :: ps) = c :: (text ++ chars ps) := by simp [same]
    exact opened h front (by simpa [same] using plain)

theorem each {α : Type} {P : α → Prop} {as : List α} {print : α → List Piece}
    (each : ∀ a ∈ as, Lays (P a) fresh (print a) fresh) : Lays (∀ a ∈ as, P a) fresh (as.flatMap print) fresh := by
  induction as with
  | nil => exact nil.iff (by simp)
  | cons a rest ih =>
    obtain ⟨first, others⟩ := List.forall_mem_cons.mp each
    exact (first.both (ih others)).iff List.forall_mem_cons.symm

theorem line {depth : Nat} (h : Lays P true ps false) : Lays P true (line depth ps) true :=
  (cons indent h).before newline

theorem openedLine {depth : Nat} (h : Lays P true ps false) : Lays P fresh (openedLine depth ps) false :=
  cons newline (cons indent h)

end Lays

end Layout

end Boogie
