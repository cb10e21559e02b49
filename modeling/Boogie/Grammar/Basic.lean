import Boogie.Grammar.State
import Boogie.Name
import Boogie.Tree.Ty

/-! Productions. A production reads tokens off a cursor and puts what does not fit into a log; it always
has a result, so that one reading finds every independent mistake. -/
namespace Boogie.Grammar

open Token (Kind KindSet)

/-- Reading moves the state by steps only, so what every step keeps holds of every production. -/
structure Production (α : Type) where
  run : State → α × State
  reaches (s : State) : s.Reaches (run s).2

namespace Production

@[always_inline, inline] def pure {α : Type} (a : α) : Production α := ⟨fun s => (a, s), fun _ => .refl⟩

@[always_inline, inline] def bind {α β : Type} (m : Production α) (next : α → Production β) :
    Production β where
  run s :=
    let r := m.run s
    (next r.1).run r.2
  reaches s := (m.reaches s).trans ((next (m.run s).1).reaches (m.run s).2)

@[always_inline] instance : Monad Production where
  pure := pure
  bind := bind

@[simp] theorem runPure {α : Type} (a : α) (s : State) : (Pure.pure a : Production α).run s = (a, s) := rfl

@[simp] theorem runBind {α β : Type} (m : Production α) (next : α → Production β) (s : State) :
    (m >>= next).run s = (next (m.run s).1).run (m.run s).2 := rfl

@[ext] theorem ext {α : Type} {m n : Production α} (h : ∀ s, m.run s = n.run s) : m = n := by
  cases m
  cases n
  congr
  exact funext h

instance : LawfulMonad Production :=
  LawfulMonad.mk' Production (fun _ => rfl) (fun _ _ => rfl) (fun _ _ _ => rfl)

@[simp] theorem runMap {α β : Type} (f : α → β) (m : Production α) (s : State) :
    (f <$> m).run s = (f (m.run s).1, (m.run s).2) := rfl

@[always_inline, inline] def read {α : Type} (view : State → α) : Production α :=
  ⟨fun s => (view s, s), fun _ => .refl⟩

@[simp] theorem runRead {α : Type} (view : State → α) (s : State) : (read view).run s = (view s, s) := rfl

end Production

def currentKind : Production Kind := .read State.kind

def currentSpan : Production Span := .read fun s => s.cursor.current.span

def previousSpan : Production Span := .read fun s => s.cursor.previous.span

def ahead : Production (List Token) := .read fun s => s.cursor.ahead

def spanFrom (start : Span) : Production Span := do return start.merge (← previousSpan)

def nextIs (sort : Kind → Bool) : Production Bool := .read fun s => sort s.kind

def check (kind : Kind) : Production Bool := nextIs (· == kind)

def checkAny (set : KindSet) : Production Bool := nextIs set.contains

def advance : Production Token :=
  ⟨fun s => (s.cursor.current, s.advance), fun s => .one (.advance s)⟩

def eat (kind : Kind) : Production Bool := do
  if ← check kind then
    let _ ← advance
    return true
  else return false

def syntaxError (e : SyntaxError) : Production Unit :=
  ⟨fun s => ((), s.syntaxError e), fun s => .one (.syntaxError e s)⟩

def broken (rule : Rule) : Production Unit :=
  ⟨fun s => ((), s.broken rule), fun s => .one (.broken rule s)⟩

def brokenAt (span : Span) (rule : Rule) : Production Unit :=
  ⟨fun s => ((), s.brokenAt span rule), fun s => .one (.brokenAt span rule s)⟩

def ifNext {α : Type} (condition : Production Bool) (yes no : Production α) : Production α := do
  if ← condition then yes else no

def given (found : Bool) (report : Production Unit) : Production Unit := if found then report else pure ()

def expect (kind : Kind) : Production Unit := ifNext (eat kind) (pure ()) (syntaxError (.expected kind))

def synchronize (set : KindSet) : Production Unit :=
  ⟨fun s => ((), s.synchronize set), fun s => s.reachesSynchronize set⟩

def identWritten : Production (Ident × Bool) := do
  if ← check .identifier then
    let token ← advance
    let name := Name.unescape token.text
    return (⟨name, token.span⟩, name != token.text)
  else
    syntaxError (.expected .identifier)
    return (⟨"", ← currentSpan⟩, false)

def ident : Production Ident := do return (← identWritten).1

/-- Runs `body` as long as `condition` holds. A round uses up a token, so there are no more rounds than
tokens. -/
def rounds {σ : Type} (condition : Production Bool) (body : σ → Production σ) :
    List Token → σ → Production σ
  | [], acc => pure acc
  | _ :: tokens, acc => do
    if ← condition then rounds condition body tokens (← body acc)
    else return acc

def whileHolds {σ : Type} (condition : Production Bool) (body : σ → Production σ) (start : σ) :
    Production σ := do
  rounds condition body (← ahead) start

def many {α : Type} (condition : Production Bool) (item : Production α) : Production (List α) := do
  let found ← whileHolds condition (fun found => do return (← item) :: found) []
  return found.reverse

def separated {α : Type} (mark : Kind) (item : Production α) : Production (List α) := do
  let first ← item
  let rest ← many (eat mark) item
  return first :: rest

def commaSeparated {α : Type} (item : Production α) : Production (List α) := separated .comma item

def idents : Production (List Ident) := commaSeparated ident

/-- Ties a production to those nested in it. Every level of nesting uses up a token, so there are no more
levels than tokens. -/
def nest {ι α : Type} (placeholder : ι → Production α)
    (level : (ι → Production α) → ι → Production α) : List Token → ι → Production α
  | [], i => level placeholder i
  | _ :: tokens, i => level (nest placeholder level tokens) i

end Boogie.Grammar
