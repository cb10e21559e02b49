import Boogie.Token.Kind

/-! Sets of kinds, one bit for each. They serve as first sets of the grammar and as the places where
reading goes on after a mistake. -/
namespace Boogie.Token

structure KindSet where
  bits : BitVec Kind.count
  deriving DecidableEq, Repr

namespace KindSet

def empty : KindSet := ⟨0⟩

def insert (s : KindSet) (k : Kind) : KindSet := ⟨s.bits ||| BitVec.twoPow Kind.count k.index⟩

def union (s t : KindSet) : KindSet := ⟨s.bits ||| t.bits⟩

def contains (s : KindSet) (k : Kind) : Bool := s.bits.getLsbD k.index

def ofList (kinds : List Kind) : KindSet := kinds.foldl insert empty

@[simp] theorem containsEmpty (k : Kind) : empty.contains k = false := by
  simp [empty, contains]

@[simp] theorem containsInsert (s : KindSet) (a k : Kind) :
    (s.insert a).contains k = (s.contains k || k == a) := by
  simp only [contains, insert, BitVec.getLsbD_or, BitVec.getLsbD_twoPow, a.indexLt, decide_true,
    Bool.true_and]
  congr 1
  by_cases h : k = a
  · simp [h]
  · have : a.index ≠ k.index := fun e => h (Kind.indexInj e.symm)
    simp [h, this]

@[simp] theorem containsUnion (s t : KindSet) (k : Kind) :
    (s.union t).contains k = (s.contains k || t.contains k) := by
  simp [contains, union]

theorem containsOfList (kinds : List Kind) (k : Kind) :
    (ofList kinds).contains k = kinds.contains k := by
  have general : ∀ s : KindSet, (kinds.foldl insert s).contains k = (s.contains k || kinds.contains k) := by
    induction kinds with
    | nil => simp
    | cons a rest ih =>
      intro s
      rw [List.foldl_cons, ih, containsInsert, List.contains_cons, Bool.or_assoc]
  simpa [ofList] using general empty

end KindSet

end Boogie.Token
