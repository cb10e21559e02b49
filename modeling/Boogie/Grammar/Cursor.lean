import Boogie.Token.Basic
import Boogie.Token.KindSet

/-! Where the grammar stands in a token list: the token read last, the terminals ahead, and how many
tokens were read since the last mistake. A mistake is only reported when the one before lies far enough
back, so that one slip does not set off a row of reports. -/
namespace Boogie.Grammar

/-- How many tokens are read between two reports, at the least. -/
def reportDistance : Nat := 2

structure Cursor where
  previous : Token
  ahead : List Token
  finish : Token
  /-- Tokens read since the last mistake. -/
  distance : Nat
  taken : List Token
  deriving DecidableEq, Repr

namespace Cursor

def current (c : Cursor) : Token := c.ahead.headD c.finish

def ofTokens (ts : TokenList) : Cursor :=
  ⟨ts.terminals.headD ts.finish, ts.terminals, ts.finish, reportDistance, []⟩

def isAtEnd (c : Cursor) : Bool := c.ahead.isEmpty

def advance (c : Cursor) : Cursor :=
  { c with
    previous := c.current
    ahead := c.ahead.tail
    distance := c.distance + 1
    taken := c.current :: c.taken }

def isReportDue (c : Cursor) : Bool := reportDistance ≤ c.distance

def noteMistake (c : Cursor) : Cursor := { c with distance := 0 }

def skipTo (set : Token.KindSet) : List Token → Cursor → Cursor
  | [], c => c
  | t :: rest, c => if set.contains t.kind then c else skipTo set rest c.advance

def synchronize (set : Token.KindSet) (c : Cursor) : Cursor := c.skipTo set c.ahead

@[simp] theorem advanceFinish (c : Cursor) : c.advance.finish = c.finish := rfl

@[simp] theorem advanceAhead (c : Cursor) : c.advance.ahead = c.ahead.tail := rfl

@[simp] theorem advancePrevious (c : Cursor) : c.advance.previous = c.current := rfl

theorem currentOfCons {c : Cursor} {t : Token} {rest : List Token} (h : c.ahead = t :: rest) :
    c.current = t := by
  simp [current, h]

theorem currentOfNil {c : Cursor} (h : c.ahead = []) : c.current = c.finish := by
  simp [current, h]

end Cursor

end Boogie.Grammar
