import Boogie.Proofs.Nesting.Outermost
import Boogie.Token.Basic
import Mathlib.Data.List.Basic

/-! Spans that nest. An expression is written on a stretch of tokens, from the start of one to the end of another, and
what it holds is written within. -/
namespace Boogie

namespace Span

def Covers (a b : Span) : Prop := a.start ≤ b.start ∧ b.stop ≤ a.stop

def Apart (a b : Span) : Prop := a.stop ≤ b.start ∨ b.stop ≤ a.start

end Span

def Expr.OperandsApart : Expr → Prop
  | .apply _ (.binary _) [left, right] => left.span.Apart right.span
  | .apply _ .concat [left, right] => left.span.Apart right.span
  | _ => True

structure Marked (tokens : List Token) (size : Nat) (span : Span) : Prop where
  begins : ∃ t ∈ tokens, t.span.start = span.start
  ends : ∃ t ∈ tokens, t.span.stop = span.stop
  inside : span.start < size ∧ span.stop ≤ size
  filled : span.start < Span.maxOffset → span.start < span.stop

/-- An expression covers its direct sub-expressions, and so does each of these. -/
inductive Nests (tokens : List Token) (size : Nat) : Expr → Prop
  | node {e} (marked : Marked tokens size e.span) (covers : ∀ child ∈ e.children, e.span.Covers child.span)
      (apart : e.OperandsApart) (inner : ∀ child ∈ e.children, Nests tokens size child) : Nests tokens size e

structure TokenRow where
  tokens : List Token
  size : Nat
  forwards : ∀ t ∈ tokens, t.span.start ≤ t.span.stop
  ordered : tokens.Pairwise fun t u => t.span.stop ≤ u.span.start
  inside : ∀ t ∈ tokens, t.span.start < size ∧ t.span.stop ≤ size
  filled : ∀ t ∈ tokens, t.span.start < Span.maxOffset → t.span.start < t.span.stop

namespace TokenRow

variable {row : TokenRow} {i j : Nat} {t u : Token}

theorem before (less : i < j) (first : row.tokens[i]? = some t) (last : row.tokens[j]? = some u) :
    t.span.stop ≤ u.span.start := by
  obtain ⟨hi, rfl⟩ := List.getElem?_eq_some_iff.mp first
  obtain ⟨hj, rfl⟩ := List.getElem?_eq_some_iff.mp last
  exact List.pairwise_iff_getElem.mp row.ordered i j hi hj less

theorem upTo (le : i ≤ j) (first : row.tokens[i]? = some t) (last : row.tokens[j]? = some u) :
    t.span.start ≤ u.span.start ∧ t.span.stop ≤ u.span.stop := by
  rcases Nat.eq_or_lt_of_le le with rfl | less
  · obtain rfl : t = u := Option.some.inj (first.symm.trans last)
    exact ⟨Nat.le_refl _, Nat.le_refl _⟩
  · have := before less first last
    have := row.forwards t (List.mem_of_getElem? first)
    have := row.forwards u (List.mem_of_getElem? last)
    omega

end TokenRow

structure Stretch (row : TokenRow) (i j : Nat) (span : Span) : Prop where
  less : i < j
  begins : ∃ t, row.tokens[i]? = some t ∧ span.start = t.span.start
  ends : ∃ t, row.tokens[j - 1]? = some t ∧ span.stop = t.span.stop

namespace Stretch

variable {row : TokenRow} {i j k l : Nat} {a b : Span}

theorem one {t : Token} (here : row.tokens[i]? = some t) : Stretch row i (i + 1) t.span :=
  ⟨Nat.lt_succ_self i, ⟨t, here, rfl⟩, ⟨t, here, rfl⟩⟩

theorem merge (first : Stretch row i j a) (last : Stretch row k l b) (le : i ≤ k) (le' : j ≤ l) :
    Stretch row i l (a.merge b) := by
  obtain ⟨less, ⟨t, ht, start⟩, ⟨u, hu, stop⟩⟩ := first
  obtain ⟨less', ⟨t', ht', start'⟩, ⟨u', hu', stop'⟩⟩ := last
  have starts := (TokenRow.upTo le ht ht').1
  have stops := (TokenRow.upTo (show j - 1 ≤ l - 1 by omega) hu hu').2
  refine ⟨by omega, ⟨t, ht, ?_⟩, ⟨u', hu', ?_⟩⟩
  · rw [Span.merge, start, start']
    exact Nat.min_eq_left starts
  · rw [Span.merge, stop, stop']
    exact Nat.max_eq_right stops

theorem covers (outer : Stretch row i l a) (inner : Stretch row j k b) (le : i ≤ j) (le' : k ≤ l) : a.Covers b := by
  obtain ⟨less, ⟨t, ht, start⟩, ⟨u, hu, stop⟩⟩ := outer
  obtain ⟨less', ⟨t', ht', start'⟩, ⟨u', hu', stop'⟩⟩ := inner
  rw [Span.Covers, start, start', stop, stop']
  exact ⟨(TokenRow.upTo le ht ht').1, (TokenRow.upTo (by omega) hu' hu).2⟩

theorem apart (first : Stretch row i j a) (last : Stretch row k l b) (le : j ≤ k) : a.stop ≤ b.start := by
  obtain ⟨less, -, ⟨u, hu, stop⟩⟩ := first
  obtain ⟨-, ⟨t, ht, start⟩, -⟩ := last
  rw [stop, start]
  exact TokenRow.before (by omega) hu ht

theorem marked (h : Stretch row i j a) : Marked row.tokens row.size a := by
  obtain ⟨less, ⟨t, ht, start⟩, ⟨u, hu, stop⟩⟩ := h
  have first := List.mem_of_getElem? ht
  have last := List.mem_of_getElem? hu
  have stops := (TokenRow.upTo (show i ≤ j - 1 by omega) ht hu).2
  refine ⟨⟨t, first, start.symm⟩, ⟨u, last, stop.symm⟩, ⟨?_, ?_⟩, fun short => ?_⟩
  · rw [start]
    exact (row.inside t first).1
  · rw [stop]
    exact (row.inside u last).2
  · have := row.filled t first (by omega)
    omega

end Stretch

def Amid (row : TokenRow) (i j : Nat) (span : Span) : Prop := ∃ k l, i ≤ k ∧ l ≤ j ∧ Stretch row k l span

structure Laid (row : TokenRow) (i j : Nat) (e : Expr) : Prop where
  within : Amid row i j e.span
  nests : Nests row.tokens row.size e

section Laid

variable {row : TokenRow} {i j k l m : Nat} {a b e : Expr} {span : Span}

theorem Stretch.within (h : Stretch row i j span) : Amid row i j span := ⟨i, j, Nat.le_refl i, Nat.le_refl j, h⟩

theorem Amid.wider (h : Amid row i j span) (le : k ≤ i) (le' : j ≤ l) : Amid row k l span := by
  obtain ⟨i', j', above, below, stretch⟩ := h
  exact ⟨i', j', Nat.le_trans le above, Nat.le_trans below le', stretch⟩

theorem Laid.wider (h : Laid row i j e) (le : k ≤ i) (le' : j ≤ l) : Laid row k l e :=
  ⟨h.within.wider le le', h.nests⟩

theorem laidNode (stretch : Stretch row i j e.span) (inner : ∀ child ∈ e.children, Laid row i j child)
    (apart : e.OperandsApart) : Laid row i j e := by
  refine ⟨stretch.within, .node stretch.marked (fun child mem => ?_) apart fun child mem => (inner child mem).nests⟩
  obtain ⟨i', j', above, below, stretch'⟩ := (inner child mem).within
  exact stretch.covers stretch' above below

theorem laidPair (left : Laid row i j a) (right : Laid row j k b) (op : Operator) :
    Laid row i k (.apply (a.span.merge b.span) op [a, b]) ∧ Laid row i k (.apply (a.span.merge b.span) op [b, a]) := by
  obtain ⟨i', j', above, below, stretch⟩ := left.within
  obtain ⟨i'', j'', above', below', stretch'⟩ := right.within
  have := stretch.less
  have := stretch'.less
  have whole := stretch.merge stretch' (by omega) (by omega)
  have first : Laid row i' j'' a := ⟨⟨i', j', Nat.le_refl _, by omega, stretch⟩, left.nests⟩
  have last : Laid row i' j'' b := ⟨⟨i'', j'', by omega, Nat.le_refl _, stretch'⟩, right.nests⟩
  have less := stretch.apart stretch' (by omega)
  constructor
  · refine (laidNode whole ?_ ?_).wider above below'
    · simpa [Expr.children] using ⟨first, last⟩
    · cases op <;> first | exact .inl less | trivial
  · refine (laidNode whole ?_ ?_).wider above below'
    · simpa [Expr.children] using ⟨last, first⟩
    · cases op <;> first | exact .inr less | trivial

theorem laidUpTo (start : Stretch row i k span) (last : Laid row m j a) (le : k ≤ m)
    (spans : e.span = span.merge a.span) (inner : ∀ child ∈ e.children, child = a ∨ Laid row i m child)
    (apart : e.OperandsApart) : Laid row i j e := by
  -- the last expression may be in parentheses, and the node ends within them as it does
  obtain ⟨k', l', above, below, stretch⟩ := last.within
  have := start.less
  have := stretch.less
  have whole : Stretch row i l' e.span := spans ▸ start.merge stretch (by omega) (by omega)
  refine (laidNode whole (fun child mem => ?_) apart).wider (Nat.le_refl i) below
  rcases inner child mem with rfl | old
  · exact ⟨⟨k', l', by omega, Nat.le_refl l', stretch⟩, last.nests⟩
  · exact old.wider (Nat.le_refl i) (by omega)

theorem laidFrom (first : Laid row i j a) (last : Amid row m k span) (le : j ≤ m)
    (spans : e.span = a.span.merge span) (inner : ∀ child ∈ e.children, child = a ∨ Laid row j m child)
    (apart : e.OperandsApart) : Laid row i k e := by
  obtain ⟨i', j', above, below, stretch⟩ := first.within
  obtain ⟨k', l', above', below', stretch'⟩ := last
  have := stretch.less
  have := stretch'.less
  have whole : Stretch row i' l' e.span := spans ▸ stretch.merge stretch' (by omega) (by omega)
  refine (laidNode whole (fun child mem => ?_) apart).wider above below'
  rcases inner child mem with rfl | old
  · exact ⟨⟨i', j', Nat.le_refl i', by omega, stretch⟩, first.nests⟩
  · exact old.wider (by omega) (by omega)

end Laid

end Boogie
