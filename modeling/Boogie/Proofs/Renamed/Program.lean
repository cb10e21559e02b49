import Boogie.Proofs.Renamed.Decl
import Boogie.Proofs.Renamed.Sides
import Boogie.Proofs.Stray.Program
import Boogie.Proofs.Termination

/-! A type name in the place of a keyword that is a type, behind a colon. The source stays without errors, and its
tree the same but for that type, unless a type goes on with what stands behind. -/
namespace Boogie

open Token (Kind Word scan words)
open Grammar

namespace WordsApart

variable {tokens : TokenList} {ws : List Word}

theorem spansApart (h : WordsApart tokens ws) {front behind : List Token} {t : Token}
    (split : tokens.terminals = front ++ t :: behind) :
    (∀ u ∈ front, u.span ≠ t.span) ∧ ∀ u ∈ behind, u.span ≠ t.span := by
  have ordered := (List.pairwise_append.mp h.apart).1
  rw [split, List.map_append, List.map_cons, List.pairwise_append, List.pairwise_cons] at ordered
  obtain ⟨-, ⟨later, -⟩, earlier⟩ := ordered
  constructor
  · intro u mem same
    have less := earlier _ (List.mem_map_of_mem mem) _ List.mem_cons_self
    exact absurd (congrArg Span.start same) (Nat.ne_of_lt less)
  · intro u mem same
    have less := later _ (List.mem_map_of_mem mem)
    exact absurd (congrArg Span.start same) (Nat.ne_of_gt less)

end WordsApart

namespace Reading

theorem accepted {file source : String} {defines : List String}
    (silent : (parsed file source defines).2.log = lexicalLog file source defines)
    (clean : (tokens source defines).faulty = []) :
    (parsed file source defines).1 ∈ (ofSource file source defines).program := by
  obtain ⟨_, count⟩ := parsedCounted file source defines
  have errorFree : (parsed file source defines).2.log.errorCount = 0 := by rw [silent, count, clean, List.length_nil]
  exact programOfErrorFree errorFree

theorem noArgumentBehind {file source : String} {defines : List String} {p : Program} {before after : List Word}
    {colon key : Word} (found : p ∈ (ofSource file source defines).program)
    (written : words (selected source defines).text = before ++ colon :: key :: after)
    (isColon : colon.kind = .colon) (isType : isTypeWord key.kind) : argumentStart.contains (headKind after) = false := by
  obtain ⟨-, errorFree, clean⟩ := ofAccepted found
  have unmarked := unmarkedOfErrorFree (parsedCounted file source defines).1 errorFree
  have alone : TypesAlone (parsed file source defines).2.cursor.taken :=
    (keepsProgram (.start (tokens source defines) (selected source defines).text (lexicalLog file source defines))
      trivial trivial ⟨id, id⟩ unmarked).1
  have once : (parsed file source defines).2.cursor.taken.reverse = (tokens source defines).terminals :=
    (readsEachOnce rfl (fun _ => scanInner) _ _).2
  have read : (tokens source defines).terminals.map Token.word = before ++ colon :: key :: after := by
    rw [terminalsOfClean clean, ← written]
    exact Token.scanWords _
  obtain ⟨front, tail, split, -, ofTail⟩ := List.map_eq_append_iff.mp read
  obtain ⟨c, others, rfl, rfl, ofOthers⟩ := List.map_eq_cons_iff.mp ofTail
  obtain ⟨k, behind, rfl, rfl, rfl⟩ := List.map_eq_cons_iff.mp ofOthers
  cases behind with
  | nil => decide
  | cons t rest =>
    have taken : (parsed file source defines).2.cursor.taken = rest.reverse ++ t :: k :: c :: front.reverse := by
      rw [← List.reverse_reverse (parsed file source defines).2.cursor.taken, once, split]
      simp
    rw [taken] at alone
    exact alone.behind.2 ⟨isType, isColon⟩

theorem runRenamed {tokens tokens' : TokenList} {ws : List Word} {text text' : List Char} {log : Log}
    {front : List Token} (r : Renaming) (apart : WordsApart tokens ws)
    (unmarked : (run tokens text log).2.mistakes = 0)
    (split : tokens.terminals = front ++ r.colon :: r.key :: r.behind) (ends : tokens'.finish.kind = .endOfText)
    (put : tokens'.terminals.map Token.word =
      front.map Token.word ++ Token.word r.colon :: r.name :: r.behind.map Token.word) :
    Like (some r.change) (run tokens text log).1 (run tokens' text' r.log).1 ∧
      (run tokens' text' r.log).2.log = r.log := by
  have before : ∀ t ∈ front, t.span ≠ r.key.span := by
    have split : tokens.terminals = (front ++ [r.colon]) ++ r.key :: r.behind := by simp [split]
    exact fun t mem => (apart.spansApart split).1 t (List.mem_append_left _ mem)
  have row : Renamed r (.start tokens text log) (.start tokens' text' r.log) :=
    ⟨apart.ends, ends, fun _ => rfl, .front front split put before⟩
  obtain ⟨found, after⟩ := declsTogether (S := renamed r) Renamed.leftEq tokens.terminals tokens'.terminals row
    (Nat.le_refl _) (Nat.le_of_eq row.leftEq.symm) (Like.nil (α := List Decl)) unmarked unmarked
  refine ⟨?_, after.silent unmarked⟩
  have decls : Like (some r.change) _ _ := Like.flatten found.reverse
  rw [Like, Alike] at decls ⊢
  exact congrArg Program.mk decls

end Reading

/-- In a source without errors, a type name in the place of `int`, `real` or `bool` behind a colon changes that type
and nothing else. What stands behind must not be `<` nor `[`, with which a type goes on behind a name. -/
theorem nameForKeyword {file source source' : String} {defines defines' : List String} {p : Program}
    {tokens : TokenList} {before after : List Word} {colon key name : Word}
    (found : p ∈ (Reading.ofSource file source defines).program)
    (apart : WordsApart tokens (words (Reading.selected source defines).text))
    (written : words (Reading.selected source defines).text = before ++ colon :: key :: after)
    (isColon : colon.kind = .colon) (isType : isTypeWord key.kind) (isName : name.kind = .identifier)
    (notLess : headKind after ≠ .less) (notBracket : headKind after ≠ .leftBracket)
    (put : words (Reading.selected source' defines').text = before ++ colon :: name :: after) :
    bare (Reading.placed file source defines tokens).1 = bare p ∧
    ∃ t ∈ tokens.terminals[before.length + 1]?, ∃ p' ∈ (Reading.ofSource file source' defines').program,
      bare p' = bare (retype (Ty.replaced t.span (typeOfName name.text)) (Reading.placed file source defines tokens).1) := by
  have ends : typeStart.contains (headKind after) = false := by
    rw [typeStart, Token.KindSet.containsUnion, Reading.noArgumentBehind found written isColon isType, Bool.false_or]
    simp [mapStart, Token.KindSet.containsOfList, notLess, notBracket]
  obtain ⟨same, unmarked⟩ := Reading.placedSame found apart
  obtain ⟨-, -, clean⟩ := Reading.ofAccepted found
  have sound : ∀ w ∈ words (Reading.selected source' defines').text, w.kind ≠ .invalid := by
    have sound := soundWords clean
    rw [written] at sound
    rw [put]
    simp only [List.mem_append, List.mem_cons] at sound ⊢
    rintro w (first | rfl | rfl | behind)
    · exact sound w (.inl first)
    · exact sound w (.inr (.inl rfl))
    · rw [isName]
      decide
    · exact sound w (.inr (.inr (.inr behind)))
  have clean' : (Reading.tokens source' defines').faulty = [] := cleanOfSound sound
  have body : (Reading.tokens source' defines').terminals.map Token.word =
      words (Reading.selected source' defines').text := by
    rw [terminalsOfClean clean']
    exact Token.scanWords _
  obtain ⟨front, tail, split, ofFront, ofTail⟩ := List.map_eq_append_iff.mp (apart.words.trans written)
  obtain ⟨c, others, rfl, rfl, ofOthers⟩ := List.map_eq_cons_iff.mp ofTail
  obtain ⟨k, behind, rfl, rfl, rfl⟩ := List.map_eq_cons_iff.mp ofOthers
  have splitKey : tokens.terminals = (front ++ [c]) ++ k :: behind := by simp [split]
  let r : Renaming :=
    { colon := c, key := k, behind, name, log := Reading.lexicalLog file source' defines', isColon, isType, isName, ends,
      apart := (apart.spansApart splitKey).2 }
  obtain ⟨decls, silent⟩ : Like (some r.change) (Reading.placed file source defines tokens).1
      (Reading.parsed file source' defines').1 ∧
      (Reading.parsed file source' defines').2.log = Reading.lexicalLog file source' defines' :=
    Reading.runRenamed r apart unmarked split rfl (by rw [body, put, ← ofFront])
  refine ⟨same, k, ?_, _, Reading.accepted silent clean', ?_⟩
  · rw [splitKey, ← ofFront]
    simp
  · exact Eq.symm decls

/-- A coercion in front of a relation that does not begin a type. -/
def coerced : String := "axiom x : int > 3;"

def coercedToBits : String := "axiom x : bv8 > 3;"

theorem coercedAlone : ∃ p ∈ (Reading.ofSource "" coerced []).program,
    WordsApart (Reading.tokens coerced []) (words (Reading.selected coerced []).text) ∧
    bare (Reading.placed "" coerced [] (Reading.tokens coerced [])).1 = bare p ∧
    ∃ t ∈ (Reading.tokens coerced []).terminals[3]?, ∃ p' ∈ (Reading.ofSource "" coercedToBits []).program,
      bare p' = bare (retype (Ty.replaced t.span (.bitVector .nowhere 8))
        (Reading.placed "" coerced [] (Reading.tokens coerced [])).1) := by
  have accepted : (Reading.ofSource "" coerced []).program.isSome = true := by decide +kernel
  obtain ⟨p, found⟩ := Option.isSome_iff_exists.mp accepted
  have apart : WordsApart (Reading.tokens coerced []) (words (Reading.selected coerced []).text) :=
    apartOfShort (by decide +kernel) (by decide +kernel)
  have plain : Name.unescape "bv8" = "bv8" := by decide +kernel
  have width : Name.bitVectorWidth "bv8" = some 8 := by decide +kernel
  have bits : typeOfName "bv8".toList = .bitVector .nowhere 8 := by
    simp only [typeOfName, String.ofList_toList, plain, bne_self_eq_false, namedType, width]
  refine ⟨p, found, apart, ?_⟩
  rw [← bits]
  exact @nameForKeyword "" coerced coercedToBits [] [] p _ [⟨.kwAxiom, "axiom".toList⟩, ⟨.identifier, ['x']⟩]
    [⟨.greater, ['>']⟩, ⟨.digits, ['3']⟩, ⟨.semicolon, [';']⟩] ⟨.colon, [':']⟩ ⟨.kwInt, "int".toList⟩
    ⟨.identifier, "bv8".toList⟩ found apart (by decide +kernel) rfl (by decide) rfl (by decide) (by decide)
    (by decide +kernel)

/-- A type goes on behind a name, with the domain of a map or with the parameters in front of it. So a name in the
place of `int` takes an index behind a conditional, and a relation. -/
theorem nameTakesWhatFollows :
    let read (source : String) := (Reading.ofSource "" source []).program.isSome
    let typed (source : String) := words (Reading.selected source []).text
    (read "axiom x : int < 3;" = true ∧ read "axiom x : T < 3;" = false ∧
      ∃ before after, typed "axiom x : int < 3;" = before ++ ⟨.colon, [':']⟩ :: ⟨.kwInt, "int".toList⟩ :: after ∧
        typed "axiom x : T < 3;" = before ++ ⟨.colon, [':']⟩ :: ⟨.identifier, ['T']⟩ :: after) ∧
    (read "axiom if a then b else c : int [0];" = true ∧ read "axiom if a then b else c : T [0];" = false ∧
      ∃ before after, typed "axiom if a then b else c : int [0];" =
          before ++ ⟨.colon, [':']⟩ :: ⟨.kwInt, "int".toList⟩ :: after ∧
        typed "axiom if a then b else c : T [0];" =
          before ++ ⟨.colon, [':']⟩ :: ⟨.identifier, ['T']⟩ :: after) := by
  refine ⟨⟨by decide +kernel, by decide +kernel, (words "axiom x".toList), (words "< 3;".toList), ?_, ?_⟩,
    by decide +kernel, by decide +kernel, (words "axiom if a then b else c".toList), (words "[0];".toList), ?_, ?_⟩ <;>
  decide +kernel

end Boogie
