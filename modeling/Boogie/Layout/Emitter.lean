import Boogie.Layout.Piece

/-! Printed text written to a device that may fail, one call after the other. -/
namespace Boogie.Layout

/-- A place to write to. A call writes all of a text, and what was taken of it before a failure stays taken. -/
structure Device (σ ε : Type) where
  write : σ → String → σ × Option ε
  flush : σ → σ × Option ε

structure Emitter (σ ε : Type) where
  writer : σ
  error : Option ε

namespace Emitter

variable {σ ε : Type} (device : Device σ ε)

def start (writer : σ) : Emitter σ ε := ⟨writer, none⟩

def write (e : Emitter σ ε) (text : String) : Emitter σ ε :=
  if e.error.isSome || text.isEmpty then e
  else
    let (writer, error) := device.write e.writer text
    ⟨writer, error⟩

def put (e : Emitter σ ε) (p : Piece) : Emitter σ ε := p.writes.foldl (write device) e

def putAll (e : Emitter σ ε) (pieces : List Piece) : Emitter σ ε := pieces.foldl (put device) e

/-- Hands back the device, or the first failure. Only a device that has not failed is flushed. -/
def finish (e : Emitter σ ε) : Except ε σ :=
  match e.error with
  | some error => .error error
  | none =>
    match device.flush e.writer with
    | (_, some error) => .error error
    | (writer, none) => .ok writer

end Emitter

/-- A device that may have room for only so many bytes. It takes a text as a whole or not at all. -/
structure Limited where
  accepted : String
  room : Option Nat
  /-- Every text it was called with, the last one first, whether it was taken or not. -/
  made : List String
  deriving DecidableEq, Repr

namespace Limited

def empty (room : Option Nat) : Limited := ⟨"", room, []⟩

def asked (l : Limited) : List String := l.made.reverse

/-- What it fails with may depend on the calls before, so that no two failures need be the same. -/
def device {ε : Type} (fault : List String → String → ε) : Device Limited ε where
  write l text :=
    if l.room.all (text.utf8ByteSize ≤ ·) then
      (⟨l.accepted ++ text, l.room.map (· - text.utf8ByteSize), text :: l.made⟩, none)
    else ({ l with made := text :: l.made }, some (fault l.asked text))
  flush l := (l, none)

end Limited

abbrev Sink := Emitter Limited Unit

namespace Sink

def device : Device Limited Unit := Limited.device fun _ _ => ()

def unlimited : Sink := .start (.empty none)

def limited (bytes : Nat) : Sink := .start (.empty (some bytes))

def put (s : Sink) (p : Piece) : Sink := Emitter.put device s p

def putAll (s : Sink) (pieces : List Piece) : Sink := Emitter.putAll device s pieces

def finish (s : Sink) : Option String := (Emitter.finish device s).toOption.map Limited.accepted

end Sink

end Boogie.Layout
