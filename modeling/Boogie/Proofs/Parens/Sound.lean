import Boogie.Proofs.Parens.Covers

/-! Sketches whose text is read word by word, as what they say it is. The text without a pair of parentheses around an
operand is read word by word as well, and no other pair stands in the place of the one that is missing. -/
namespace Boogie.Layout

open Token (Kind Spelling Word)

def wordsIn (marks : List Mark) : List Word := wordsOf (marks.map Mark.piece)

@[simp] theorem wordsInNil : wordsIn [] = [] := rfl

@[simp] theorem wordsInAppend (marks marks' : List Mark) : wordsIn (marks ++ marks') = wordsIn marks ++ wordsIn marks' := by
  rw [wordsIn, List.map_append, wordsOfAppend, wordsIn, wordsIn]

theorem wordsInCons (m : Mark) (marks : List Mark) : wordsIn (m :: marks) = m.piece.words ++ wordsIn marks := rfl

def Sketch.words (S : Sketch) : List Word := wordsIn S.marks

@[simp] theorem Sketch.wordsAppend (S T : Sketch) : (S ++ T).words = S.words ++ T.words := wordsInAppend ..

def literalWorded : Expr → Prop
  | .literal _ v => ∃ w, IsWorded v w
  | _ => True

def spelled : Checks where
  name := isWritten
  ty _ := True
  expr e := e.isShaped ∧ literalWorded e
  attr a := ∀ content, .string content ∈ a.params → isQuotable content
  trigger _ := True
  cmd _ := True
  block _ := True
  tail _ := True
  stmtList _ := True
  decl _ := True

def BeginsSolid (ws : List Word) : Prop := ∃ w back, ws = w :: back ∧ isSolid w.kind = true

def EndsSolid (ws : List Word) : Prop := ∃ front w, ws = front ++ [w] ∧ isSolid w.kind = true

def Joins (ws : List Word) : Prop := ∃ front w back, ws = front ++ w :: back ∧ isSolid w.kind = true ∧ depth front = 0

theorem BeginsSolid.append {ws : List Word} (h : BeginsSolid ws) (ws' : List Word) : BeginsSolid (ws ++ ws') := by
  obtain ⟨w, back, rfl, solid⟩ := h
  exact ⟨w, back ++ ws', rfl, solid⟩

theorem EndsSolid.behind {ws : List Word} (h : EndsSolid ws) (ws' : List Word) : EndsSolid (ws' ++ ws) := by
  obtain ⟨front, w, rfl, solid⟩ := h
  exact ⟨ws' ++ front, w, by rw [List.append_assoc], solid⟩

theorem Balanced.solid {ws : List Word} (all : ∀ w ∈ ws, isSolid w.kind = true) : Balanced ws := by
  induction ws with
  | nil => exact .nil
  | cons w ws ih =>
    obtain ⟨first, others⟩ := List.forall_mem_cons.mp all
    exact .word (riseOfSolid first) (ih others)

structure Cut.IsTold (e : Edge) (c : Cut) (e' : Edge) : Prop where
  flows : Flows e (c.loosened.map Mark.piece) e'
  tight : EndsSolid (wordsIn c.before) ∨ BeginsSolid (wordsIn c.behind)
  balanced : Balanced (wordsIn c.inside)
  joins : Joins (wordsIn c.inside)

theorem Cut.IsTold.within {e e' front' back' : Edge} {c : Cut} (h : c.IsTold front' back') {front back : List Mark}
    (before : Flows e (front.map Mark.piece) front') (behind : Flows back' (back.map Mark.piece) e') :
    (c.within front back).IsTold e e' := by
  refine ⟨?_, ?_, h.balanced, h.joins⟩
  · rw [Cut.loosenedWithin, List.map_append, List.map_append]
    exact before.append (h.flows.append behind)
  · refine h.tight.imp (fun ends => ?_) fun begins => ?_
    · rw [Cut.within, wordsInAppend]
      exact ends.behind _
    · rw [Cut.within, wordsInAppend]
      exact begins.append _

namespace Sketch

structure Sound (e : Edge) (S : Sketch) (e' : Edge) : Prop where
  flows : Flows e S.pieces e'
  honest : ∀ m ∈ S.marks, gistsOf m.piece.words = m.gists
  balanced : Balanced S.words
  cuts : ∀ c ∈ S.cuts, c.IsTold e e'

namespace Sound

variable {e e' e'' : Edge} {S T : Sketch}

theorem nil : Sound e nothing e := ⟨.nil, nofun, .nil, nofun⟩

theorem append (h : Sound e S e') (h' : Sound e' T e'') : Sound e (S ++ T) e'' := by
  refine ⟨?_, List.forall_mem_append.mpr ⟨h.honest, h'.honest⟩, ?_, ?_⟩
  · rw [piecesAppend]
    exact h.flows.append h'.flows
  · rw [wordsAppend]
    exact h.balanced.append h'.balanced
  · refine List.forall_mem_append.mpr ⟨List.forall_mem_map.mpr fun c mem => ?_, List.forall_mem_map.mpr fun c mem => ?_⟩
    · exact (h.cuts c mem).within .nil h'.flows
    · exact (h'.cuts c mem).within h.flows .nil

theorem enter (h : Sound e S e') : Sound .free S e' :=
  ⟨h.flows.enter, h.honest, h.balanced, fun c mem => ⟨(h.cuts c mem).flows.enter, (h.cuts c mem).tight,
    (h.cuts c mem).balanced, (h.cuts c mem).joins⟩⟩

theorem piece {p : Piece} {gists : List Gist} (flows : Flows e [p] e') (honest : gistsOf p.words = gists)
    (balanced : Balanced p.words) : Sound e (plain [⟨p, gists⟩]) e' := by
  refine ⟨flows, List.forall_mem_singleton.mpr honest, ?_, nofun⟩
  show Balanced (p.words ++ [])
  rwa [List.append_nil]

theorem word {p : Piece} {g : Gist} {w : Word} (flows : Flows e [p] e') (words : p.words = [w])
    (solid : isSolid w.kind = true) (same : gist w = g) : Sound e (plain [⟨p, [g]⟩]) e' := by
  refine piece flows ?_ ?_
  · rw [words, gistsOfSolid solid, same, gistsOfNil]
  · rw [words]
    exact .one (riseOfSolid solid)

theorem row (s : String) [l : Terminals s] (starts : l.row.chars.head?.any e.allows = true)
    (stops : (lastKind l.row).all (ends · e') = true) (solid : (Spelling.kinds l.row).all isSolid = true) :
    Sound e (fixed s) e' := by
  refine piece (.row s starts stops) (congrArg gistsOf (textWords s)) ?_
  rw [textWords]
  exact .solid (List.forall_mem_map.mpr fun k mem => List.all_eq_true.mp solid k mem)

theorem text (s : String) {first : Char} {last : Option Kind} [l : Fixed s first last] [meets : Meets e first]
    [leaves : Leaves last e'] (solid : (Spelling.kinds l.row).all isSolid = true) : Sound e (fixed s) e' :=
  row s (by simpa [l.begins] using meets.allowed) (by rw [l.final]; exact leaves.stops) solid

theorem spaced : Sound e space .free := piece flowsSpace (by rw [spaceWords]; rfl) (by rw [spaceWords]; exact .nil)

theorem name {n : String} (written : isWritten n) : Sound .mark (Sketch.name n) .word := by
  have alone : (Piece.text (Name.escape n)).words = [nameWord n] := by simpa [Layout.name] using nameWords written
  refine word (flowsName written) alone rfl ?_
  show nameGist (Grammar.Reads.nameOf (nameWord n).text) = nameGist n
  rw [nameOfWord written]

theorem parens {s : String} [l : Terminals s] {rest : List Kind} (opens : Spelling.kinds l.row = .leftParen :: rest)
    (solid : rest.all isSolid = true) (front : Flows e [.text s] .free) (h : Sound .free S .word) :
    Sound e (fixed s ++ (S ++ fixed ")")) e' := by
  have closing : Flows .word [.text ")"] e' := .text ")"
  have closed : (Piece.text ")").words = [Word.of .rightParen] := textWords ")"
  have opened : (Piece.text s).words = Word.of .leftParen :: rest.map Word.of := by rw [textWords, opens, List.map_cons]
  refine ⟨?_, ?_, ?_, fun c mem => ?_⟩
  · rw [piecesAppend, piecesAppend]
    exact front.append (h.flows.append closing)
  · refine List.forall_mem_append.mpr ⟨List.forall_mem_singleton.mpr (congrArg gistsOf (textWords s)), ?_⟩
    exact List.forall_mem_append.mpr ⟨h.honest, List.forall_mem_singleton.mpr (congrArg gistsOf closed)⟩
  · have inner : Balanced (rest.map Word.of ++ S.words) :=
      (Balanced.solid (List.forall_mem_map.mpr fun k mem => List.all_eq_true.mp solid k mem)).append h.balanced
    have whole : (fixed s ++ (S ++ fixed ")")).words = (Piece.text s).words ++ (S.words ++ (Piece.text ")").words) := by
      rw [wordsAppend, wordsAppend]
      exact congrArg₂ (· ++ ·) (List.append_nil _) (congrArg _ (List.append_nil _))
    rw [whole, opened, closed, List.cons_append, ← List.append_assoc]
    exact inner.between
  · have cuts : (fixed s ++ (S ++ fixed ")")).cuts = S.cuts.map (.within (fixed s).marks (fixed ")").marks) := by
      have inner : (S ++ fixed ")").cuts = S.cuts.map (.within [] (fixed ")").marks) := List.append_nil _
      have whole : (fixed s ++ (S ++ fixed ")")).cuts = (S ++ fixed ")").cuts.map (.within (fixed s).marks []) := rfl
      rw [whole, inner, List.map_map, Cut.withinWithin]
      rfl
    rw [cuts] at mem
    obtain ⟨c, inside, rfl⟩ := List.mem_map.mp mem
    exact (h.cuts c inside).within front closing

theorem wrapped [Meets e '('] (h : Sound .free S .word) : Sound e (Sketch.wrapped S) e' :=
  parens (s := "(") rfl rfl (.text "(") h

theorem balancedWrappedIf (h : Sound .mark S .word) (b : Bool) : Balanced (Sketch.wrappedIf b S).words := by
  cases b with
  | true => exact (wrapped h.enter : Sound .mark (Sketch.wrapped S) .word).balanced
  | false => exact h.balanced

section Operands

variable {b : Bool} (joins : b = true → Joins S.words)
include joins

theorem operandBefore [Meets e '('] (h : Sound e S .word) (t : Sound .word T e') (begins : BeginsSolid T.words) :
    Sound e (Sketch.wrappedIf b S ++ T) e' := by
  cases b with
  | false => exact h.append t
  | true =>
    have inner : Sound e (Sketch.wrapped S) .word := wrapped h.enter
    obtain ⟨flows, honest, balanced, cuts⟩ := inner.append t
    refine ⟨flows, honest, balanced, List.forall_mem_cons.mpr ⟨⟨?_, .inr ?_, h.balanced, joins rfl⟩, cuts⟩⟩
    · simpa [Cut.loosened, Cut.within, pieces] using (h.append t).flows
    · exact begins

theorem operandBehind [Meets e' '('] (t : Sound e T e') (ends : EndsSolid T.words) (h : Sound e' S .word) :
    Sound e (T ++ Sketch.wrappedIf b S) .word := by
  cases b with
  | false => exact t.append h
  | true =>
    have inner : Sound e' (Sketch.wrapped S) .word := wrapped h.enter
    obtain ⟨flows, honest, balanced, cuts⟩ := t.append inner
    obtain ⟨inFront, within⟩ := List.forall_mem_append.mp cuts
    refine ⟨flows, honest, balanced, List.forall_mem_append.mpr ⟨inFront, List.forall_mem_cons.mpr ⟨?_, within⟩⟩⟩
    refine ⟨?_, .inl ?_, h.balanced, joins rfl⟩
    · simpa [Cut.loosened, Cut.within, pieces] using (t.append h).flows
    · simpa [Cut.within] using (show EndsSolid (wordsIn T.marks) from ends)

end Operands

section Lists

variable {α : Type} {mark : Sketch} {parts : List Sketch} {print : α → Sketch} {as : List α}

theorem each (h : ∀ S ∈ parts, Sound e S e) : Sound e (Sketch.row parts) e := by
  induction parts with
  | nil => exact nil
  | cons S rest ih =>
    obtain ⟨first, others⟩ := List.forall_mem_cons.mp h
    exact first.append (ih others)

theorem separated (between : Sound .word mark e) (filled : parts ≠ []) (h : ∀ S ∈ parts, Sound e S .word) :
    Sound e (joined mark parts) .word := by
  obtain ⟨S, rest, rfl⟩ := List.exists_cons_of_ne_nil filled
  obtain ⟨first, others⟩ := List.forall_mem_cons.mp h
  exact first.append (each (List.forall_mem_map.mpr fun T mem => between.append (others T mem)))

theorem joined (between : Sound .word mark .free) (h : ∀ S ∈ parts, Sound .free S .word) :
    Sound .free (Sketch.joined mark parts) .word := by
  by_cases none : parts = []
  · subst none
    exact (nil : Sound .word nothing .word).enter
  · exact separated between none h

theorem commas (h : ∀ a ∈ as, Sound .free (print a) .word) : Sound .free (Sketch.commas (as.map print)) .word :=
  joined (.text ", " rfl) (List.forall_mem_map.mpr h)

theorem spacedEach (h : ∀ a ∈ as, Sound .free (print a) e) : Sound .free (Sketch.spaced print as) .free :=
  each (List.forall_mem_map.mpr fun a mem => (h a mem).append spaced)

end Lists

end Sound

theorem soundNames {ns : List Ident} (written : every spelled ns) : Sound .free (names ns) .word :=
  .commas fun id mem => (Sound.name (written id mem)).enter

theorem soundTypeParams {ps : List Ident} [Meets e '<'] [Leaves (some .greater) e] (written : every spelled ps) :
    Sound e (typeParams ps) e := by
  rw [typeParams]
  split
  · exact .nil
  · rename_i filled
    have within : Sound .mark (names ps) .word :=
      .separated (.text ", " rfl) (by simpa using filled) (List.forall_mem_map.mpr fun id mem => .name (written id mem))
    exact (Sound.text "<" rfl).append (within.append (.text ">" rfl))

theorem widthGist (width : Nat) : gist ⟨.identifier, ("bv" ++ toString width).toList⟩ = .other := by
  have same : Grammar.Reads.nameOf ("bv" ++ toString width).toList = "bv" ++ toString width := by
    rw [Grammar.Reads.nameOf, String.ofList_toList, Name.unescape, widthToList]
    rfl
  have other : "bv" ++ toString width ≠ "nopats" := fun is => by
    have chars := congrArg String.toList is
    rw [widthToList] at chars
    exact absurd (List.cons.inj chars).1 (by decide)
  show nameGist _ = _
  rw [same, nameGist, if_neg other]

mutual

theorem soundTy : ∀ t, Ty.passes spelled t → Sound .mark (ty t) .word
  | .basic _ b, _ => .row b.keyword (by cases b <;> decide) (by cases b <;> decide) (by cases b <;> rfl)
  | .bitVector _ width, _ =>
    .word (flowsPlain (writtenWidth width) (plainWidth width)) (plainWords (writtenWidth width) (plainWidth width)) rfl
      (widthGist width)
  | .param _ _, ⟨_, named⟩ => .name named
  | .named _ _ args, ⟨_, named, pass⟩ => (Sound.name named).append (soundTyArgs args pass)
  | .map _ ps args result, ⟨_, params, ofArgs, ofResult⟩ =>
    have domain : Sound .free (commas (tys args)) .word :=
      .joined (.text ", " rfl) fun S mem => (soundTys args ofArgs S mem).enter
    (soundTypeParams params).append ((Sound.text "[" rfl).append (domain.append ((Sound.text "]" rfl).append
      (soundTy result ofResult))))

theorem soundTys : ∀ ts, Ty.allPass spelled ts → ∀ S ∈ tys ts, Sound .mark S .word
  | [], _ => nofun
  | t :: rest, ⟨first, more⟩ => List.forall_mem_cons.mpr ⟨soundTy t first, soundTys rest more⟩

theorem soundTyArgs : ∀ ts, Ty.allPass spelled ts → Sound .word (tyArgs ts) .word
  | [], _ => .nil
  | t :: rest, ⟨first, more⟩ => by
    have argument : Sound .free (if isCompound t then wrapped (ty t) else ty t) .word := by
      split
      · exact .wrapped (soundTy t first).enter
      · exact (soundTy t first).enter
    exact Sound.spaced.append (argument.append (soundTyArgs rest more))

end

end Sketch

end Boogie.Layout
