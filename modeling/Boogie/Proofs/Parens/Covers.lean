import Boogie.Proofs.Grammar.Finds
import Boogie.Proofs.Parens.Nodes

/-! Words that cover a sketch. They have no more solid words than the sketch; and where they have the same ones, every
pair of parentheses around an operand has a counterpart around the same words. -/
namespace Boogie.Layout

open Token (Kind Word)

def rise : Kind → Int
  | .leftParen => 1
  | .rightParen => -1
  | _ => 0

def depth (ws : List Word) : Int := (ws.map fun w => rise w.kind).sum

@[simp] theorem depthNil : depth [] = 0 := rfl

@[simp] theorem depthCons (w : Word) (ws : List Word) : depth (w :: ws) = rise w.kind + depth ws := by simp [depth]

@[simp] theorem depthAppend (ws ws' : List Word) : depth (ws ++ ws') = depth ws + depth ws' := by simp [depth]

theorem riseOfSolid {k : Kind} (solid : isSolid k = true) : rise k = 0 := by
  cases k <;> first | rfl | exact absurd solid Bool.false_ne_true

theorem solidLiteral {k : Kind} (first : Grammar.literalStart.contains k = true) :
    k ≠ .endOfText ∧ isSolid k = true ∧ ∀ text, gist ⟨k, text⟩ = .other := by
  cases k <;> first | exact ⟨by decide, rfl, fun _ => rfl⟩ | exact absurd first (by decide)

structure Balanced (ws : List Word) : Prop where
  settled : depth ws = 0
  sane : ∀ front back, ws = front ++ back → 0 ≤ depth front

namespace Balanced

variable {ws ws' : List Word} {w : Word}

theorem nil : Balanced [] := by
  refine ⟨rfl, fun front back same => ?_⟩
  rw [(List.append_eq_nil_iff.mp same.symm).1]
  exact Int.le_refl 0

theorem append (h : Balanced ws) (h' : Balanced ws') : Balanced (ws ++ ws') := by
  refine ⟨by simp [h.settled, h'.settled], fun front back same => ?_⟩
  obtain ⟨more, rfl, inside⟩ | ⟨more, rfl, inside⟩ := List.append_eq_append_iff.mp same
  · simpa [h.settled] using h'.sane _ _ inside
  · exact h.sane _ _ rfl

theorem between {opened closed : List Char} (h : Balanced ws) :
    Balanced (⟨.leftParen, opened⟩ :: (ws ++ [⟨.rightParen, closed⟩])) := by
  refine ⟨by simp [h.settled, rise], fun front back same => ?_⟩
  cases front with
  | nil => exact Int.le_refl 0
  | cons w front =>
    obtain ⟨rfl, rest⟩ := List.cons.inj same
    have inside : 0 ≤ 1 + depth front := by
      obtain ⟨more, rfl, last⟩ | ⟨more, rfl, last⟩ := List.append_eq_append_iff.mp rest
      · obtain ⟨rfl, _⟩ | ⟨rfl, _⟩ := List.singleton_eq_append_iff.mp last <;> simp [h.settled, rise]
      · have := h.sane _ _ rfl
        omega
    simpa [rise] using inside

theorem one (flat : rise w.kind = 0) : Balanced [w] := by
  refine ⟨by simp [flat], fun front back same => ?_⟩
  obtain ⟨rfl, _⟩ | ⟨rfl, _⟩ := List.singleton_eq_append_iff.mp same <;> simp [flat]

theorem word (flat : rise w.kind = 0) (h : Balanced ws) : Balanced (w :: ws) := append (one flat) h

theorem back {front back : List Word} (h : Balanced (front ++ back)) : depth back ≤ 0 := by
  have := h.sane front back rfl
  have := h.settled
  rw [depthAppend] at this
  omega

end Balanced

def Paired (ws : List Word) (skip size : Nat) : Prop :=
  ∃ before opened inside closed behind, ws = before ++ ⟨.leftParen, opened⟩ :: (inside ++ ⟨.rightParen, closed⟩ :: behind) ∧
    Balanced inside ∧ (gistsOf before).length = skip ∧ (gistsOf inside).length = size

theorem Paired.within {ws : List Word} {skip size : Nat} (h : Paired ws skip size) (front back : List Word) :
    Paired (front ++ (ws ++ back)) ((gistsOf front).length + skip) size := by
  obtain ⟨before, opened, inside, closed, behind, rfl, balanced, rfl, rfl⟩ := h
  exact ⟨front ++ before, opened, inside, closed, behind ++ back, by simp, balanced, by simp, rfl⟩

namespace Cut

def skip (c : Cut) : Nat := (c.before.flatMap Mark.gists).length

def size (c : Cut) : Nat := (c.inside.flatMap Mark.gists).length

theorem skipWithin (front back : List Mark) (c : Cut) :
    (c.within front back).skip = (front.flatMap Mark.gists).length + c.skip := by simp [skip, within]

end Cut

namespace Sketch

structure Covers (ws : List Word) (S : Sketch) : Prop where
  balanced : Balanced ws
  fewer : (gistsOf ws).length ≤ S.gists.length
  pairs : gistsOf ws = S.gists → ∀ c ∈ S.cuts, Paired ws c.skip c.size

namespace Covers

variable {ws ws' : List Word} {w : Word} {S T : Sketch} {marks : List Mark}

theorem ofPlain (balanced : Balanced ws) (fewer : (gistsOf ws).length ≤ (plain marks).gists.length) :
    Covers ws (plain marks) := ⟨balanced, fewer, fun _ _ mem => absurd mem List.not_mem_nil⟩

theorem short (balanced : Balanced ws) (less : (gistsOf ws).length < S.gists.length) : Covers ws S :=
  ⟨balanced, Nat.le_of_lt less, fun same => absurd (congrArg List.length same) (Nat.ne_of_lt less)⟩

theorem nil : Covers [] (plain marks) := ofPlain .nil (Nat.zero_le _)

theorem append (h : Covers ws S) (h' : Covers ws' T) : Covers (ws ++ ws') (S ++ T) := by
  have fewer := h.fewer
  have fewer' := h'.fewer
  refine ⟨h.balanced.append h'.balanced, by simp; omega, fun same c mem => ?_⟩
  rw [gistsOfAppend, Sketch.gistsAppend] at same
  have total := congrArg List.length same
  rw [List.length_append, List.length_append] at total
  obtain ⟨here, there⟩ := List.append_inj same (by omega)
  rcases List.mem_append.mp mem with mem | mem
  · obtain ⟨c, inside, rfl⟩ := List.mem_map.mp mem
    have whole := (h.pairs here c inside).within [] ws'
    rw [List.nil_append, gistsOfNil] at whole
    rwa [Cut.skipWithin]
  · obtain ⟨c, inside, rfl⟩ := List.mem_map.mp mem
    have whole := (h'.pairs there c inside).within ws []
    rw [List.append_nil, here] at whole
    rwa [Cut.skipWithin]

theorem quiet (h : Covers ws S) : Covers ws (plain marks ++ S) := append nil h

theorem silent (h : Covers ws S) : Covers ws (S ++ plain marks) := by simpa using append h nil

theorem spaceUnless {none : Bool} (h : Covers ws S) : Covers ws (Sketch.spaceUnless none ++ S) := by
  cases none <;> exact h.quiet

theorem word {g : Gist} {more : List Gist} (solid : isSolid w.kind = true) (some : (plain marks).gists = g :: more) :
    Covers [w] (plain marks) := by
  refine ofPlain (.one (riseOfSolid solid)) ?_
  rw [gistsOfSolid solid, some]
  exact Nat.succ_le_succ (Nat.zero_le _)

theorem last (s : String) [Terminals s] {g : Gist} {more : List Gist} (solid : isSolid w.kind = true)
    (some : (fixed s).gists = g :: more) : Covers [w] (fixed s) := word solid some

theorem mark {s : String} [Terminals s] {g : Gist} {more : List Gist} (solid : isSolid w.kind = true)
    (some : (fixed s).gists = g :: more) (h : Covers ws S) : Covers (w :: ws) (fixed s ++ S) := append (word solid some) h

section Parentheses

variable {opened closed : List Char}

theorem gistsOfBetween : gistsOf (⟨.leftParen, opened⟩ :: (ws ++ [⟨.rightParen, closed⟩])) = gistsOf ws := by
  rw [gistsOfLight rfl, gistsOfAppend, gistsOfLight rfl, gistsOfNil, List.append_nil]

theorem paren (h : Covers ws S) : Covers (⟨.leftParen, opened⟩ :: (ws ++ [⟨.rightParen, closed⟩])) S := by
  refine ⟨h.balanced.between, by rw [gistsOfBetween]; exact h.fewer, fun same c mem => ?_⟩
  rw [gistsOfBetween] at same
  have whole := (h.pairs same c mem).within [⟨.leftParen, opened⟩] [⟨.rightParen, closed⟩]
  rwa [gistsOfLight rfl, gistsOfNil, List.length_nil, Nat.zero_add] at whole

theorem between (h : Covers ws S) : Covers (⟨.leftParen, opened⟩ :: (ws ++ [⟨.rightParen, closed⟩])) (wrapped S) :=
  h.silent.quiet.paren

theorem enclosed (h : Covers ws S) (b : Bool) :
    Covers (⟨.leftParen, opened⟩ :: (ws ++ [⟨.rightParen, closed⟩])) (wrappedIf b S) := by
  cases b with
  | false => exact h.paren
  | true =>
    have whole : Covers (⟨.leftParen, opened⟩ :: (ws ++ [⟨.rightParen, closed⟩])) (wrapped S) := h.between
    obtain ⟨balanced, fewer, pairs⟩ := whole
    refine ⟨balanced, fewer, fun same => List.forall_mem_cons.mpr ⟨?_, pairs same⟩⟩
    have inner := gistsWrappedIf true S
    rw [gistsOfBetween, inner] at same
    exact ⟨[], opened, ws, closed, [], rfl, h.balanced, rfl, congrArg List.length same⟩

theorem loosen {b b' : Bool} (h : Covers ws (wrappedIf b S)) (imp : b' = true → b = true) : Covers ws (wrappedIf b' S) := by
  cases b with
  | false =>
    cases b' with
    | false => exact h
    | true => exact absurd (imp rfl) Bool.false_ne_true
  | true =>
    cases b' with
    | true => exact h
    | false =>
      have inner := gistsWrappedIf true S
      refine ⟨h.balanced, inner ▸ h.fewer, fun same c mem => ?_⟩
      have there : c.within [.opening] [.closing] ∈ (wrapped S).cuts := cutsWrapped S ▸ List.mem_map_of_mem mem
      have whole := h.pairs (same.trans inner.symm) _ (.tail _ there)
      rwa [Cut.skipWithin, show ([Mark.opening].flatMap Mark.gists).length = 0 from rfl, Nat.zero_add] at whole

theorem bare {b : Bool} (h : Covers ws (wrappedIf b S)) : Covers ws S := by
  have none : Covers ws (wrappedIf false S) := h.loosen nofun
  exact none

end Parentheses

section Rows

open Grammar.Finds (Items Row)

variable {α : Type} {print : α → Sketch} {as : List α} {k : Kind} {s : String} [Terminals s] {g : Gist}
  {rest : List Gist}

theorem items (solid : isSolid k = true) (some : (fixed s).gists = g :: rest)
    (h : Items k (fun ws a => Covers ws (print a)) ws as) : Covers ws (row ((as.map print).map (fixed s ++ ·))) := by
  induction h with
  | nil => exact nil
  | cons first _ ih =>
    rw [← List.cons_append]
    exact (mark solid some first).append ih

theorem joinedItems {a : α} (solid : isSolid k = true) (some : (fixed s).gists = g :: rest)
    (first : Covers ws (print a)) (more : Items k (fun ws a => Covers ws (print a)) ws' as) :
    Covers (ws ++ ws') (joined (fixed s) ((a :: as).map print)) := first.append (items solid some more)

theorem rows (h : Row (fun ws a => Covers ws (print a)) ws as) : Covers ws (spaced print as) := by
  induction h with
  | nil => exact nil
  | cons first _ ih => exact first.silent.append ih

end Rows

end Covers

end Sketch

end Boogie.Layout
