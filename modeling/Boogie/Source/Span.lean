/-! Places in a source text. A span is a half-open range of byte offsets, a position a line and a
column, both counted from one; columns count characters. -/
namespace Boogie

structure Span where
  start : Nat
  stop : Nat
  deriving DecidableEq, Repr, Inhabited

namespace Span

def nowhere : Span := ⟨0, 0⟩

def point (offset : Nat) : Span := ⟨offset, offset⟩

/-- The largest offset that a span holds; larger ones are clamped to it. -/
def maxOffset : Nat := 4294967295

def ofRange (start stop : Nat) : Span := ⟨min start maxOffset, min stop maxOffset⟩

def merge (a b : Span) : Span := ⟨min a.start b.start, max a.stop b.stop⟩

def length (s : Span) : Nat := s.stop - s.start

def isEmpty (s : Span) : Bool := s.stop ≤ s.start

def text (s : Span) : String := toString s.start ++ ".." ++ toString s.stop

theorem mergeComm (a b : Span) : a.merge b = b.merge a := by
  simp [merge, Nat.min_comm, Nat.max_comm]

@[simp] theorem mergeSelf (a : Span) : a.merge a = a := by simp [merge]

end Span

structure Position where
  line : Nat
  column : Nat
  deriving DecidableEq, Repr, Inhabited

namespace Position

def maxNumber : Nat := 4294967295

/-- The number of a line or character that has `before` others in front of it, in 32 bits: of too many the
largest one. For a count of exactly the largest number the addition wraps around to zero. -/
def number (before : Nat) : Nat := ((if before ≤ maxNumber then before else maxNumber - 1) + 1) % (maxNumber + 1)

instance : LT Position where
  lt a b := a.line < b.line ∨ (a.line = b.line ∧ a.column < b.column)

instance (a b : Position) : Decidable (a < b) :=
  inferInstanceAs (Decidable (a.line < b.line ∨ (a.line = b.line ∧ a.column < b.column)))

def text (p : Position) : String :=
  "(" ++ toString p.line ++ "," ++ toString p.column ++ ")"

end Position

end Boogie
