import Boogie.Layout.Piece
import Boogie.Proofs.Token.Numbers

/-! The words of printed pieces. What is printed piece by piece is read piece by piece where no word runs
on into the piece behind it. -/
namespace Boogie.Layout

open Token (Kind Spelling Word startsWith)

def Piece.chars (p : Piece) : List Char := p.string.toList

def chars (ps : List Piece) : List Char := ps.flatMap Piece.chars

def Piece.words (p : Piece) : List Word := Token.words p.chars

def wordsOf (ps : List Piece) : List Word := ps.flatMap Piece.words

@[simp] theorem charsNil : chars [] = [] := rfl

@[simp] theorem charsAppend (ps qs : List Piece) : chars (ps ++ qs) = chars ps ++ chars qs :=
  List.flatMap_append

@[simp] theorem charsCons (p : Piece) (ps : List Piece) : chars (p :: ps) = p.chars ++ chars ps := rfl

@[simp] theorem wordsOfNil : wordsOf [] = [] := rfl

@[simp] theorem wordsOfAppend (ps qs : List Piece) : wordsOf (ps ++ qs) = wordsOf ps ++ wordsOf qs :=
  List.flatMap_append

@[simp] theorem wordsOfCons (p : Piece) (ps : List Piece) : wordsOf (p :: ps) = p.words ++ wordsOf ps := rfl

theorem appendToList (text : String) (ps : List Piece) : (append text ps).toList = text.toList ++ chars ps := by
  induction ps generalizing text with
  | nil => simp [append]
  | cons p ps ih =>
    have step : append text (p :: ps) = append (text ++ p.string) ps := rfl
    rw [step, ih, charsCons, String.toList_append, List.append_assoc]
    rfl

theorem fragmentToList (ps : List Piece) : (fragment ps).toList = chars ps := by
  rw [fragment, appendToList]
  rfl

def closers : List Char := [' ', '\n', '(', ')', '[', ']', '}', '<', '>', ',', ';', ':']

inductive Edge where
  | free
  | mark
  | word
  | blank
  deriving DecidableEq

def Edge.allows : Edge → Char → Bool
  | .free, _ => true
  | .mark, c => c != '=' && c != ':'
  | .word, c => closers.contains c
  | .blank, c => c == ' '

theorem allowedByFree {text : List Char} : startsWith Edge.free.allows text := Token.startsWithAny text

theorem closersEndNumbers : closers.all Token.endsNumber = true := by decide

theorem endsNumberOfWord {text : List Char} (h : startsWith Edge.word.allows text) :
    startsWith Token.endsNumber text :=
  Token.startsWithMono (fun c closer => List.all_eq_true.mp closersEndNumbers c (by simpa [Edge.allows] using closer)) h

theorem endsNameOfWord {text : List Char} (h : startsWith Edge.word.allows text) :
    startsWith (fun c => !Token.isNamePart c) text :=
  Token.startsWithMono (fun c ends => by simpa using Token.endsNumberPart ends) (endsNumberOfWord h)

structure Flows (e : Edge) (ps : List Piece) (e' : Edge) : Prop where
  meets : ∀ rest, startsWith e'.allows rest → startsWith e.allows (chars ps ++ rest)
  reads : ∀ rest, startsWith e'.allows rest → Token.words (chars ps ++ rest) = wordsOf ps ++ Token.words rest
  sound : ∀ w ∈ wordsOf ps, w.kind.isTerminal = true

namespace Flows

variable {e e' e'' : Edge} {ps qs : List Piece} {p : Piece}

theorem nil : Flows e [] e := ⟨fun _ ends => ends, fun _ _ => rfl, nofun⟩

theorem append (first : Flows e ps e') (more : Flows e' qs e'') : Flows e (ps ++ qs) e'' := by
  refine ⟨fun rest ends => ?_, fun rest ends => ?_, fun w mem => ?_⟩
  · rw [charsAppend, List.append_assoc]
    exact first.meets _ (more.meets rest ends)
  · rw [charsAppend, List.append_assoc, wordsOfAppend, first.reads _ (more.meets rest ends), more.reads rest ends,
      List.append_assoc]
  · rw [wordsOfAppend] at mem
    exact (List.mem_append.mp mem).elim (first.sound w) (more.sound w)

theorem cons (first : Flows e [p] e') (more : Flows e' qs e'') : Flows e (p :: qs) e'' := append first more

theorem enter (h : Flows e ps e') : Flows .free ps e' := ⟨fun _ _ => allowedByFree, h.reads, h.sound⟩

theorem loosen (h : Flows e ps .free) : Flows e ps e' :=
  ⟨fun rest _ => h.meets rest allowedByFree, fun rest _ => h.reads rest allowedByFree, h.sound⟩

theorem piece (starts : ∀ rest, startsWith e'.allows rest → startsWith e.allows (p.chars ++ rest))
    (ends : ∀ rest, startsWith e'.allows rest → Token.words (p.chars ++ rest) = p.words ++ Token.words rest)
    (sound : ∀ w ∈ p.words, w.kind.isTerminal = true) : Flows e [p] e' := by
  have one : chars [p] = p.chars := List.append_nil _
  have words : wordsOf [p] = p.words := List.append_nil _
  refine ⟨fun rest here => ?_, fun rest here => ?_, ?_⟩
  · rw [one]
    exact starts rest here
  · rw [one, words]
    exact ends rest here
  · rwa [words]

theorem wordsAlone (h : Flows e ps e') : Token.words (chars ps) = wordsOf ps := by
  have nothing : startsWith e'.allows [] := trivial
  have whole := h.reads [] nothing
  rwa [List.append_nil, Token.wordsNil, List.append_nil] at whole

theorem wordsJoined (same : p.chars = chars qs) (h : Flows e qs e') : p.words = wordsOf qs := by
  rw [Piece.words, same]
  exact h.wordsAlone

theorem joined (same : p.chars = chars qs) (h : Flows e qs e') : Flows e [p] e' := by
  refine piece (fun rest ends => ?_) (fun rest ends => ?_) ?_
  · rw [same]
    exact h.meets rest ends
  · rw [wordsJoined same h, same]
    exact h.reads rest ends
  · rw [wordsJoined same h]
    exact h.sound

end Flows

theorem spaceAllowed (e : Edge) : e.allows ' ' = true := by cases e <;> rfl

@[simp] theorem spaceWords : Piece.space.words = [] := (Token.wordsSpace []).trans Token.wordsNil

@[simp] theorem newlineWords : Piece.newline.words = [] := (Token.wordsNewline []).trans Token.wordsNil

theorem flowsSpace {e : Edge} : Flows e [.space] .free :=
  .piece (fun _ _ => spaceAllowed e)
    (fun rest _ => by
      rw [spaceWords]
      exact Token.wordsSpace rest)
    (by simp)

theorem flowsNewline {e : Edge} (allowed : e.allows '\n' = true) : Flows e [.newline] .free :=
  .piece (fun _ _ => allowed)
    (fun rest _ => by
      rw [newlineWords]
      exact Token.wordsNewline rest)
    (by simp)

theorem wordsSpaces (n : Nat) (rest : List Char) :
    Token.words (List.replicate n ' ' ++ rest) = Token.words rest := by
  induction n with
  | zero => rfl
  | succ n ih => rw [List.replicate_succ, List.cons_append, Token.wordsSpace, ih]

theorem indentChars (n : Nat) : (Piece.indent n).chars = List.replicate n ' ' := by
  show (Nat.repeat (fun s => s.push ' ') n "").toList = _
  induction n with
  | zero => rfl
  | succ n ih => rw [Nat.repeat, String.toList_push, ih, List.replicate_succ']

@[simp] theorem indentWords (n : Nat) : (Piece.indent n).words = [] := by
  have none := wordsSpaces n []
  rwa [List.append_nil, Token.wordsNil, ← indentChars] at none

theorem flowsIndent {n : Nat} : Flows .free [.indent n] .free :=
  .piece (fun _ _ => allowedByFree) (fun rest _ => by rw [indentWords, indentChars, wordsSpaces, List.nil_append])
    (by simp)

def continued (k : Kind) : List Char :=
  Token.symbolTable.filterMap fun p =>
    if k.spelling.toList.isPrefixOf p.1 then p.1[k.spelling.toList.length]? else none

theorem endsBeforeOther {k : Kind} (symbol : k.isWord = false) (noSlash : k ≠ .slash) {c : Char}
    (other : c ∉ continued k) : k.endsBefore c = true := by
  have apart : ∀ p ∈ Token.symbolTable, (k.spelling.toList ++ [c]).isPrefixOf p.1 = false := by
    intro p mem
    refine Bool.eq_false_iff.mpr fun longer => other ?_
    obtain ⟨tail, same⟩ := List.isPrefixOf_iff_prefix.mp longer
    refine List.mem_filterMap.mpr ⟨p, mem, ?_⟩
    simp [← same, List.append_assoc]
  have slash : (k == .slash) = false := by simpa using noSlash
  simpa [Kind.endsBefore, symbol, slash] using apart

def ends (k : Kind) : Edge → Bool
  | .free => !k.isWord && k != .slash && (continued k).isEmpty
  | .mark => !k.isWord && k != .slash && (continued k).all fun c => !Edge.mark.allows c
  | .word => closers.all k.endsBefore
  | .blank => k.endsBefore ' '

theorem endsBeforeOfEnds {k : Kind} {e : Edge} (h : ends k e = true) {c : Char} (allowed : e.allows c = true) :
    k.endsBefore c = true := by
  cases e with
  | free =>
    simp only [ends, Bool.and_eq_true, Bool.not_eq_true', bne_iff_ne, List.isEmpty_iff] at h
    exact endsBeforeOther h.1.1 h.1.2 (by simp [h.2])
  | mark =>
    simp only [ends, Bool.and_eq_true, Bool.not_eq_true', bne_iff_ne, List.all_eq_true] at h
    exact endsBeforeOther h.1.1 h.1.2 fun mem => by simp [h.2 c mem] at allowed
  | word => exact List.all_eq_true.mp h c (by simpa [Edge.allows] using allowed)
  | blank =>
    obtain rfl : c = ' ' := by simpa [Edge.allows] using allowed
    exact h

def lastKind : Spelling → Option Kind
  | [] => none
  | [k] => k
  | _ :: rest => lastKind rest

theorem endsBeforeLast (row : Spelling) (c : Char) :
    row.endsBefore c = (lastKind row).all fun k => k.endsBefore c := by
  induction row with
  | nil => rfl
  | cons k rest ih =>
    cases rest with
    | nil => cases k <;> rfl
    | cons next rest => cases k <;> exact ih

theorem startsOfHead {p : Char → Bool} {text : List Char} (h : text.head?.any p = true) (rest : List Char) :
    startsWith p (text ++ rest) := by
  cases text with
  | nil => exact absurd h nofun
  | cons c more => simpa [startsWith] using h

class Terminals (s : String) where
  row : Spelling
  same : s.toList = row.chars
  apart : row.isApart = true

class Fixed (s : String) (first : outParam Char) (last : outParam (Option Kind)) extends Terminals s where
  begins : row.chars.head? = some first
  final : lastKind row = last

abbrev Fixed.of {s : String} {first : Char} {last : Option Kind} (row : Spelling) (same : s.toList = row.chars)
    (apart : row.isApart = true) (begins : row.chars.head? = some first) (final : lastKind row = last) :
    Fixed s first last := { row, same, apart, begins, final }

theorem textWords (s : String) [l : Terminals s] : (Piece.text s).words = (Spelling.kinds l.row).map Word.of := by
  have nothing : startsWith (Spelling.endsBefore l.row) [] := trivial
  have whole := Spelling.wordsOf l.row l.apart nothing
  rwa [List.append_nil, ← l.same, Token.wordsNil, List.append_nil] at whole

theorem Flows.row (s : String) [l : Terminals s] {e e' : Edge} (starts : l.row.chars.head?.any e.allows = true)
    (stops : (lastKind l.row).all (ends · e') = true) : Flows e [.text s] e' := by
  refine .piece (fun rest _ => ?_) (fun rest here => ?_) ?_
  · show startsWith e.allows (s.toList ++ rest)
    rw [l.same]
    exact startsOfHead starts rest
  · rw [textWords]
    show Token.words (s.toList ++ rest) = _
    rw [l.same]
    refine Spelling.wordsOf l.row l.apart (Token.startsWithMono (fun c allowed => ?_) here)
    rw [endsBeforeLast]
    cases last : lastKind l.row with
    | none => rfl
    | some k => exact endsBeforeOfEnds (by simpa [last] using stops) allowed
  · rw [textWords]
    exact List.forall_mem_map.mpr (Spelling.terminalOfApart l.apart)

class Meets (e : Edge) (first : Char) : Prop where
  allowed : e.allows first = true

class Leaves (last : Option Kind) (e : Edge) : Prop where
  stops : last.all (ends · e) = true

theorem endsFreely {k : Kind} (h : ends k .free = true) (e : Edge) : ends k e = true := by
  cases e with
  | free => exact h
  | mark =>
    simp only [ends, Bool.and_eq_true, List.isEmpty_iff] at h ⊢
    exact ⟨h.1, by rw [h.2]; rfl⟩
  | word => exact List.all_eq_true.mpr fun c _ => endsBeforeOfEnds h rfl
  | blank => exact endsBeforeOfEnds h rfl

theorem Leaves.freely {k : Kind} {e : Edge} (h : ends k .free = true) : Leaves (some k) e := ⟨endsFreely h e⟩

instance {c : Char} : Meets .free c := ⟨rfl⟩
instance : Meets .mark ' ' := ⟨rfl⟩
instance : Meets .mark '\n' := ⟨rfl⟩
instance : Meets .mark '(' := ⟨rfl⟩
instance : Meets .mark '[' := ⟨rfl⟩
instance : Meets .mark '<' := ⟨rfl⟩
instance : Meets .mark '|' := ⟨rfl⟩
instance : Meets .mark 'o' := ⟨rfl⟩
instance : Meets .word ' ' := ⟨rfl⟩
instance : Meets .word '\n' := ⟨rfl⟩
instance : Meets .word '(' := ⟨rfl⟩
instance : Meets .word ')' := ⟨rfl⟩
instance : Meets .word '[' := ⟨rfl⟩
instance : Meets .word ']' := ⟨rfl⟩
instance : Meets .word '}' := ⟨rfl⟩
instance : Meets .word '<' := ⟨rfl⟩
instance : Meets .word '>' := ⟨rfl⟩
instance : Meets .word ',' := ⟨rfl⟩
instance : Meets .word ';' := ⟨rfl⟩
instance : Meets .word ':' := ⟨rfl⟩

instance {e : Edge} : Leaves none e := ⟨rfl⟩
instance {e : Edge} : Leaves (some .leftParen) e := .freely (by decide)
instance {e : Edge} : Leaves (some .rightParen) e := .freely (by decide)
instance {e : Edge} : Leaves (some .leftBracket) e := .freely (by decide)
instance {e : Edge} : Leaves (some .rightBracket) e := .freely (by decide)
instance {e : Edge} : Leaves (some .leftBrace) e := .freely (by decide)
instance {e : Edge} : Leaves (some .rightCode) e := .freely (by decide)
instance {e : Edge} : Leaves (some .semicolon) e := .freely (by decide)
instance : Leaves (some .rightBrace) .word := ⟨by decide⟩
instance : Leaves (some .greater) .mark := ⟨by decide⟩
instance : Leaves (some .greater) .word := ⟨by decide⟩
instance : Leaves (some .less) .mark := ⟨by decide⟩
instance : Leaves (some .colon) .mark := ⟨by decide⟩
instance : Leaves (some .kwOld) .word := ⟨by decide⟩
instance : Leaves (some .kwBreak) .word := ⟨by decide⟩
instance : Leaves (some .kwExtends) .word := ⟨by decide⟩
instance : Leaves (some .kwComplete) .word := ⟨by decide⟩

theorem Flows.text (s : String) {first : Char} {last : Option Kind} [l : Fixed s first last] {e e' : Edge}
    [meets : Meets e first] [leaves : Leaves last e'] : Flows e [.text s] e' :=
  .row s (by simpa [l.begins] using meets.allowed) (by rw [l.final]; exact leaves.stops)

end Boogie.Layout
