import Boogie.Proofs.Alike.Decl
import Boogie.Proofs.Escapes

/-! A name in the place of a keyword that is a type, behind a colon. Where nothing that a type goes on with stands
behind the two, the readings go side by side, and find the same but for that type. -/
namespace Boogie.Grammar

open Token (Kind Word)

def typeOfName (text : List Char) : Ty :=
  let name := Name.unescape (String.ofList text)
  namedType .nowhere name (name != String.ofList text) []

structure Renaming where
  colon : Token
  key : Token
  behind : List Token
  name : Word
  log : Log
  isColon : colon.kind = .colon
  isType : isTypeWord key.kind
  isName : name.kind = .identifier
  ends : typeStart.contains (headKind (behind.map Token.word)) = false
  apart : ∀ t ∈ behind, t.span ≠ key.span

namespace Renaming

def change (r : Renaming) : Change := ⟨r.key.span, typeOfName r.name.text⟩

end Renaming

inductive Sides (r : Renaming) (tokens : List Token) (ws : List Word) : Prop where
  | front (before : List Token) (split : tokens = before ++ r.colon :: r.key :: r.behind)
    (words : ws = before.map Token.word ++ Token.word r.colon :: r.name :: r.behind.map Token.word)
    (apart : ∀ t ∈ before, t.span ≠ r.key.span)
  | behind (words : ws = tokens.map Token.word) (apart : ∀ t ∈ tokens, t.span ≠ r.key.span)

namespace Sides

variable {r : Renaming} {tokens : List Token} {ws : List Word}

theorem lengthEq (h : Sides r tokens ws) : ws.length = tokens.length := by
  cases h with
  | front before split words apart => simp [split, words]
  | behind words apart => rw [words, List.length_map]

theorem next {t : Token} {rest : List Token} (h : Sides r (t :: rest) ws) :
    ∃ more, ws = Token.word t :: more ∧ (t.span ≠ r.key.span ∨ t.kind = .colon) := by
  cases h with
  | front before split words apart =>
    cases before with
    | nil =>
      obtain ⟨rfl, -⟩ := List.cons.inj split
      exact ⟨_, words, .inr r.isColon⟩
    | cons b before =>
      obtain ⟨rfl, -⟩ := List.cons.inj split
      exact ⟨_, words, .inl (apart t List.mem_cons_self)⟩
  | behind words apart => exact ⟨_, words, .inl (apart t List.mem_cons_self)⟩

theorem tail {t : Token} {rest : List Token} (h : Sides r (t :: rest) ws) :
    Sides r rest ws.tail ∨ (t.kind = .colon ∧ rest = r.key :: r.behind ∧
      ws.tail = r.name :: r.behind.map Token.word) := by
  cases h with
  | front before split words apart =>
    cases before with
    | nil =>
      obtain ⟨rfl, rfl⟩ := List.cons.inj split
      exact .inr ⟨r.isColon, rfl, by rw [words]; rfl⟩
    | cons b before =>
      obtain ⟨rfl, rfl⟩ := List.cons.inj split
      exact .inl (.front before rfl (by rw [words]; rfl) fun u mem => apart u (List.mem_cons_of_mem _ mem))
  | behind words apart =>
    exact .inl (.behind (by rw [words]; rfl) fun u mem => apart u (List.mem_cons_of_mem _ mem))

end Sides

structure Renamed (r : Renaming) (s s' : State) : Prop where
  closed : s.isClosed
  closed' : s'.isClosed
  silent : s.mistakes = 0 → s'.log = r.log
  sides : Sides r s.cursor.ahead s'.words

structure NameNext (r : Renaming) (s s' : State) : Prop where
  closed : s.isClosed
  closed' : s'.isClosed
  silent : s.mistakes = 0 → s'.log = r.log
  ahead : s.cursor.ahead = r.key :: r.behind
  words : s'.words = r.name :: r.behind.map Token.word

namespace Renamed

variable {r : Renaming} {s s' : State}

theorem leftEq (h : Renamed r s s') : s'.left = s.left := by
  have same := h.sides.lengthEq
  rwa [State.words, List.length_map] at same

theorem kindEq (h : Renamed r s s') : s'.kind = s.kind := by
  cases tokens : s.cursor.ahead with
  | nil =>
    have none : s'.words = [] := List.length_eq_zero_iff.mp (by rw [h.sides.lengthEq, tokens]; rfl)
    rw [State.kindOfWords h.closed' none, State.kindOfNil h.closed tokens]
    rfl
  | cons t rest =>
    obtain ⟨more, words, -⟩ := (tokens ▸ h.sides : Sides r (t :: rest) s'.words).next
    rw [State.kindOfWords h.closed' words, State.kind, Cursor.currentOfCons tokens]
    rfl

end Renamed

namespace NameNext

variable {r : Renaming} {s s' : State}

theorem typeOfKey (h : NameNext r s s') {b : BasicType} (is : basicType r.key.kind = some b) :
    type.run s = (.basic r.key.span b, s.advance) := by
  obtain ⟨inner, run⟩ := typeRun s
  have current := Cursor.currentOfCons h.ahead
  have here : basicType s.kind = some b := by rw [State.kind, current, is]
  have word (k : Kind) : isTypeWord k → k ≠ .identifier ∧ mapStart.contains k = false ∧
      argumentStart.contains k = true := by
    cases k <;> decide
  obtain ⟨notName, notMap, starts⟩ := word s.kind (Option.isSome_of_eq_some here)
  rw [run]
  simp [typeLevel, check, notName, checkAny, notMap, starts, typeAtom, advance, current, is]

theorem typeOfName (h : NameNext r s s') :
    ∃ span, type.run s' = (namedType span (Name.unescape (String.ofList r.name.text))
      (Name.unescape (String.ofList r.name.text) != String.ofList r.name.text) [], s'.advance) := by
  obtain ⟨inner, run⟩ := typeRun s'
  obtain ⟨word, words⟩ := State.wordsCons h.words
  have named : s'.kind = .identifier := (State.kindOfWords h.closed' h.words).trans r.isName
  have text : s'.cursor.current.text = String.ofList r.name.text := by
    rw [← word]
    exact (String.ofList_toList).symm
  have ends : typeStart.contains s'.advance.kind = false := by
    rw [State.kindOfWords (s := s'.advance) h.closed' words]
    exact r.ends
  refine ⟨s'.cursor.current.span.merge s'.advance.cursor.previous.span, ?_⟩
  rw [run]
  simp [typeLevel, check, named, currentSpan, identWrittenRun named, noTypeArgs ends, spanFrom, previousSpan, text]

end NameNext

def renamed (r : Renaming) : Simulation where
  rel := Renamed r
  within s := s.mistakes = 0
  withinBefore last clean := Nat.eq_zero_of_le_zero (clean ▸ (State.Reaches.one last).mistakesLe)
  change := some r.change
  marked := NameNext r
  closed h := h.closed
  fewer h := Nat.le_of_eq h.leftEq.symm
  kind h := .inl h.kindEq
  text {s s'} h more _ := by
    obtain ⟨t, rest, tokens⟩ := State.aheadCons h.closed more
    obtain ⟨_, words, -⟩ := (tokens ▸ h.sides : Sides r (t :: rest) s'.words).next
    rw [Cursor.currentOfCons tokens]
    exact (String.toList_inj.mp (congrArg Word.text (State.wordsCons words).1)).symm
  keyword {s s'} h b is := by
    have more : s.kind ≠ .endOfText := by
      intro ended
      rw [ended] at is
      exact absurd is nofun
    obtain ⟨t, rest, tokens⟩ := State.aheadCons h.closed more
    obtain ⟨_, -, apart⟩ := (tokens ▸ h.sides : Sides r (t :: rest) s'.words).next
    have here : s.kind = t.kind := by rw [State.kind, Cursor.currentOfCons tokens]
    have apart : t.span ≠ r.key.span := apart.resolve_right fun colon => by
      rw [here, colon] at is
      exact absurd is nofun
    have kept : retyped (some r.change) (Ty.basic t.span b) = .basic t.span b := if_neg apart
    rw [Like, Cursor.currentOfCons tokens, kept]
    rfl
  advance {s s'} h more _ := by
    obtain ⟨t, rest, tokens⟩ := State.aheadCons h.closed more
    have ahead : s.advance.cursor.ahead = rest := congrArg List.tail tokens
    have words : s'.advance.words = s'.words.tail := List.map_tail ..
    have here : s.kind = t.kind := by rw [State.kind, Cursor.currentOfCons tokens]
    rcases (tokens ▸ h.sides : Sides r (t :: rest) s'.words).tail with sides | ⟨colon, atKey, atName⟩
    · exact .inl ⟨h.closed, h.closed', h.silent, by rwa [ahead, words]⟩
    · exact .inr ⟨here.trans colon, h.closed, h.closed', h.silent, ahead.trans atKey, words.trans atName⟩
  clean _ _ clean := clean
  ofMarked {s s'} h := by
    have here : s.kind = r.key.kind := by rw [State.kind, Cursor.currentOfCons h.ahead]
    exact ⟨rfl, h.closed, here ▸ r.isType, (State.kindOfWords h.closed' h.words).trans r.isName⟩
  typeMarked {s s'} h inside := by
    obtain ⟨b, is⟩ := Option.isSome_iff_exists.mp r.isType
    obtain ⟨span, named⟩ := h.typeOfName
    rw [h.typeOfKey is] at inside ⊢
    rw [named]
    refine ⟨?_, h.closed, h.closed', h.silent, .behind ?_ ?_⟩
    · have changed : retyped (some r.change) (Ty.basic r.key.span b) = typeOfName r.name.text := if_pos rfl
      rw [Like, changed]
      exact alikeNamedType (c := none) rfl .nil
    · have ahead : s.advance.cursor.ahead = r.behind := congrArg List.tail h.ahead
      rw [(State.wordsCons h.words).2, ahead]
    · have ahead : s.advance.cursor.ahead = r.behind := congrArg List.tail h.ahead
      rw [ahead]
      exact r.apart
  syntaxError h _ := ⟨h.closed, h.closed', nofun, h.sides⟩
  broken h _ := ⟨h.closed, h.closed', nofun, h.sides⟩
  brokenAt h _ _ _ := ⟨h.closed, h.closed', nofun, h.sides⟩

end Boogie.Grammar
