import Mathlib.Data.List.Forall2
import Boogie.Proofs.Token.Local

/-! A text laid out anew: other layout stands between its words, and terminals with two spellings are written
the other way. The words stay what they were. -/
namespace Boogie.Token

structure Row where
  layout : List Char
  word : Word
  deriving DecidableEq, Repr

/-- The words of a text with the layout in front of each, and the layout behind the last one. -/
structure Cut where
  rows : List Row
  last : List Char
  deriving DecidableEq, Repr

namespace Cut

def behind (layout : List Char) : Cut → Cut
  | ⟨[], last⟩ => ⟨[], layout ++ last⟩
  | ⟨row :: rows, last⟩ => ⟨⟨layout ++ row.layout, row.word⟩ :: rows, last⟩

def cons (word : Word) (cut : Cut) : Cut := ⟨⟨[], word⟩ :: cut.rows, cut.last⟩

end Cut

def cut : List Char → Cut
  | [] => ⟨[], []⟩
  | c :: rest =>
    match (lexeme c rest).role with
    | .layout => (cut (rest.drop ((lexeme c rest).length - 1))).behind (taken c rest)
    | .token kind => (cut (rest.drop ((lexeme c rest).length - 1))).cons ⟨kind, taken c rest⟩
termination_by text => text.length
decreasing_by all_goals simp only [List.length_cons, List.length_drop]; omega

inductive Cuts : List Char → List Row → List Char → Prop where
  | last {text} (none : words text = []) : Cuts text [] text
  | row {layout c text rest kind rows last} (h : IsLayout layout)
      (token : (lexeme c (text ++ rest)).role = .token kind)
      (whole : (lexeme c (text ++ rest)).length - 1 = text.length) (more : Cuts rest rows last) :
      Cuts (layout ++ c :: (text ++ rest)) (⟨layout, ⟨kind, c :: text⟩⟩ :: rows) last

theorem takenAppend (c : Char) (rest : List Char) :
    c :: rest = taken c rest ++ rest.drop ((lexeme c rest).length - 1) := by
  simp [taken]

theorem layoutBehind {piece layout rest : List Char} {c : Char} (h : LayoutPiece (layout ++ c :: rest) piece)
    (more : IsLayout layout) (word : c ≠ '\n') : IsLayout (piece ++ layout) := by
  cases h with
  | space h => exact .space h more
  | line plain ends =>
    cases more with
    | nil => exact absurd (by simpa [startsWith] using ends) word
    | space h more =>
      simp only [List.cons_append, startsWith, beq_iff_eq] at ends
      subst ends
      exact .line plain more
    | line => simp [startsWith] at ends
    | block => simp [startsWith] at ends
  | block closed => exact .block closed more

theorem cutsBehind {c : Char} {rest : List Char} {rows : List Row} {last : List Char}
    (layout : (lexeme c rest).role = .layout)
    (h : Cuts (rest.drop ((lexeme c rest).length - 1)) rows last) :
    Cuts (c :: rest) (Cut.behind (taken c rest) ⟨rows, last⟩).rows
      (Cut.behind (taken c rest) ⟨rows, last⟩).last := by
  have piece := layoutOfLexeme layout
  have whole := takenAppend c rest
  generalize same : rest.drop ((lexeme c rest).length - 1) = behind at h piece whole
  cases h with
  | last none =>
    have none : words (c :: rest) = [] := by
      rw [wordsCons, layout, same, none]
      rfl
    rw [whole] at none ⊢
    exact .last none
  | @row layout d text rest kind rows last h token length more =>
    have word : d ≠ '\n' := by
      rintro rfl
      exact absurd token nofun
    rw [whole, ← List.append_assoc]
    exact .row (layoutBehind piece h word) token length more

theorem cutsCut (text : List Char) : Cuts text (cut text).rows (cut text).last := by
  fun_induction cut text with
  | case1 => exact .last wordsNil
  | case2 c rest layout ih => exact cutsBehind layout ih
  | case3 c rest kind token ih =>
    have short := lexemeLe c rest
    have split : rest.take ((lexeme c rest).length - 1) ++ rest.drop ((lexeme c rest).length - 1) = rest :=
      List.take_append_drop _ _
    have row := Cuts.row .nil (show (lexeme c (rest.take ((lexeme c rest).length - 1) ++
      rest.drop ((lexeme c rest).length - 1))).role = .token kind by rwa [split])
      (by rw [split, List.length_take]; omega) ih
    rwa [split] at row

theorem wordsCuts {text : List Char} {rows : List Row} {last : List Char} (cuts : Cuts text rows last) :
    words text = rows.map Row.word := by
  induction cuts with
  | last none => exact none
  | row h token whole more ih =>
    rw [wordsBehind h, wordsCons, taken, token, whole]
    simp [Role.words, ih]

inductive Relays (layout : List Char) : List Char → Prop where
  | same : Relays layout layout
  | other {c more} (space : isSpace c = true) (h : IsLayout (c :: more)) : Relays layout (c :: more)

def Kind.isSpelling (kind : Kind) (spelling : List Char) : Prop :=
  (spelling, kind) ∈ symbolTable ++ wordTable

def endsInSpace (text : List Char) : Prop := ∃ front c, text = front ++ [c] ∧ isSpace c = true

/-- The same words laid out anew. A word stays as it is, or is set off by white space in another spelling. -/
inductive Relaid : List Row → List Char → List Char → Prop where
  | done {last last'} (h : Relays last last') : Relaid [] last last'
  | keep {layout layout' word rows last text} (h : Relays layout layout') (more : Relaid rows last text) :
      Relaid (⟨layout, word⟩ :: rows) last (layout' ++ (word.text ++ text))
  | respell {layout layout' word rows last text before spelling after} (h : Relays layout layout')
      (other : word.kind.isSpelling spelling) (blank : ∀ c ∈ before ++ after, isSpace c = true)
      (front : endsInSpace (layout' ++ before)) (back : isSetOff (after ++ text))
      (more : Relaid rows last text) :
      Relaid (⟨layout, word⟩ :: rows) last (layout' ++ (before ++ (spelling ++ (after ++ text))))

def AgreeToSpace (text text' : List Char) : Prop :=
  text' = text ∨ ∃ front rest rest', text = front ++ rest ∧ text' = front ++ rest' ∧ isSetOff rest'

namespace AgreeToSpace

variable {text text' : List Char}

theorem behind (front : List Char) (h : AgreeToSpace text text') :
    AgreeToSpace (front ++ text) (front ++ text') := by
  rcases h with rfl | ⟨more, rest, rest', rfl, rfl, off⟩
  · exact .inl rfl
  · exact .inr ⟨front ++ more, rest, rest', by simp, by simp, off⟩

theorem ofSetOff (off : isSetOff text') : AgreeToSpace text text' := .inr ⟨[], text, text', rfl, rfl, off⟩

theorem lexeme {c : Char} {piece : List Char} {kind : Kind} (h : AgreeToSpace text text')
    (role : (lexeme c (piece ++ text)).role = .token kind) (sound : kind ≠ .invalid)
    (whole : (Token.lexeme c (piece ++ text)).length - 1 = piece.length) :
    Token.lexeme c (piece ++ text') = Token.lexeme c (piece ++ text) := by
  rcases h with rfl | ⟨front, rest, rest', rfl, rfl, off⟩
  · rfl
  · rw [← List.append_assoc] at role whole ⊢
    rw [← List.append_assoc]
    exact lexemeWithin off role sound (by rw [List.length_append]; omega)

end AgreeToSpace

theorem relaysAgree {layout layout' text text' : List Char} (h : Relays layout layout')
    (more : AgreeToSpace text text') : AgreeToSpace (layout ++ text) (layout' ++ text') := by
  cases h with
  | same => exact more.behind layout
  | other space h => exact .ofSetOff space

theorem setOffAgree {layout layout' before text text' : List Char} (h : Relays layout layout')
    (blank : ∀ c ∈ before, isSpace c = true) (front : endsInSpace (layout' ++ before)) :
    AgreeToSpace (layout ++ text) (layout' ++ (before ++ text')) := by
  cases h with
  | other space h => exact .ofSetOff space
  | same =>
    cases before with
    | cons c before => exact .behind layout (.ofSetOff (blank c (by simp)))
    | nil =>
      obtain ⟨front, c, same, space⟩ := front
      rw [List.append_nil] at same
      subst same
      rw [List.append_assoc, List.append_assoc]
      exact .behind front (.ofSetOff space)

theorem relaidAgrees {text text' : List Char} {rows : List Row} {last : List Char} (cuts : Cuts text rows last)
    (relaid : Relaid rows last text') : AgreeToSpace text text' := by
  induction cuts generalizing text' with
  | last none =>
    obtain ⟨h⟩ := relaid
    simpa using relaysAgree h (.inl rfl : AgreeToSpace [] [])
  | row h token whole more ih =>
    cases relaid with
    | keep relays relaid => exact relaysAgree relays ((ih relaid).behind (_ :: _))
    | respell relays other blank front back relaid =>
      exact setOffAgree relays (fun c mem => blank c (by simp [mem])) front

structure SameWord (w w' : Word) : Prop where
  kind : w'.kind = w.kind
  text : w.kind.isClass = true → w'.text = w.text

theorem wordsRelays {layout layout' : List Char} (closed : IsLayout layout) (h : Relays layout layout')
    (rest : List Char) : words (layout' ++ rest) = words rest := by
  cases h with
  | same => exact wordsBehind closed rest
  | other space h => exact wordsBehind h rest

theorem isLayoutOfSpaces {text : List Char} (blank : ∀ c ∈ text, isSpace c = true) : IsLayout text := by
  induction text with
  | nil => exact .nil
  | cons c text ih => exact .space (blank c (by simp)) (ih fun d mem => blank d (by simp [mem]))

def standsAlone (kind : Kind) : List Char → Bool
  | c :: tail => lexeme c tail = ⟨.token kind, tail.length + 1⟩
  | [] => false

theorem spellingAlone : ∀ p ∈ symbolTable ++ wordTable, p.2.isClass = false ∧ standsAlone p.2 p.1 = true := by
  decide +kernel

theorem wordsSpelling {kind : Kind} {spelling rest : List Char} (h : kind.isSpelling spelling)
    (off : isSetOff rest) : words (spelling ++ rest) = ⟨kind, spelling⟩ :: words rest := by
  obtain ⟨open_, alone⟩ := spellingAlone _ h
  cases spelling with
  | nil => contradiction
  | cons c tail =>
    have alone : lexeme c (tail ++ []) = ⟨.token kind, tail.length + 1⟩ := by simpa [standsAlone] using alone
    have sound : kind ≠ .invalid := by
      rintro rfl
      contradiction
    have length : (lexeme c (tail ++ [])).length ≤ tail.length + 1 := Nat.le_of_eq (congrArg Lexeme.length alone)
    refine wordsToken ?_
    rw [lexemeWithin off (congrArg Lexeme.role alone) sound length, alone]

theorem wordsKept {c : Char} {text rest rest' : List Char} {kind : Kind} (agree : AgreeToSpace rest rest')
    (token : (lexeme c (text ++ rest)).role = .token kind) (sound : kind ≠ .invalid)
    (whole : (lexeme c (text ++ rest)).length - 1 = text.length) :
    words (c :: (text ++ rest')) = ⟨kind, c :: text⟩ :: words rest' := by
  have same := agree.lexeme token sound whole
  rw [wordsCons, taken, same, token, whole]
  simp [Role.words]

theorem wordsRelaid {text text' : List Char} {rows : List Row} {last : List Char} (cuts : Cuts text rows last)
    (clean : ∀ row ∈ rows, row.word.kind ≠ .invalid) (relaid : Relaid rows last text') :
    List.Forall₂ SameWord (rows.map Row.word) (words text') := by
  induction cuts generalizing text' with
  | last none =>
    cases relaid with
    | done h =>
      cases h with
      | same =>
        rw [none]
        exact .nil
      | @other c more space h =>
        have layout := wordsBehind h []
        rw [List.append_nil, wordsNil] at layout
        rw [layout]
        exact .nil
  | row h token whole more ih =>
    have later := fun row mem => clean row (List.mem_cons_of_mem _ mem)
    cases relaid with
    | keep relays relaid =>
      have sound := clean _ List.mem_cons_self
      rw [wordsRelays h relays, List.cons_append, wordsKept (relaidAgrees more relaid) token sound whole]
      exact .cons ⟨rfl, fun _ => rfl⟩ (ih later relaid)
    | respell relays other blank front back relaid =>
      have before := fun c mem => blank c (List.mem_append_left _ mem)
      have after := fun c mem => blank c (List.mem_append_right _ mem)
      rw [wordsRelays h relays, wordsBehind (isLayoutOfSpaces before), wordsSpelling other back,
        wordsBehind (isLayoutOfSpaces after)]
      refine .cons ⟨rfl, fun isClass => ?_⟩ (ih later relaid)
      rw [(spellingAlone _ other).1] at isClass
      contradiction

end Boogie.Token
