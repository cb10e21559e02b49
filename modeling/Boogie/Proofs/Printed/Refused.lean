import Boogie.Proofs.Printed.Streamed
import Mathlib.Data.List.Induction

/-! A program printed into a device that runs full. What it has taken is the beginning of the text up to a call, the
call behind it is the last one that was made, and its failure is the one that is told at the end. -/
namespace Boogie.Layout

def calls (ps : List Piece) : List String := (ps.flatMap Piece.writes).filter (!·.isEmpty)

theorem joinSnoc (texts : List String) (text : String) : String.join (texts ++ [text]) = String.join texts ++ text := by
  rw [String.join_append, String.join_cons, String.join_nil, String.append_empty]

theorem foldFilled {β : Type} {f : β → String → β} (skips : ∀ b, f b "" = b) (texts : List String) (b : β) :
    (texts.filter (!·.isEmpty)).foldl f b = texts.foldl f b := by
  induction texts generalizing b with
  | nil => rfl
  | cons text rest ih =>
    by_cases none : text.isEmpty = true
    · have nothing : text = "" := by simpa using none
      rw [List.filter_cons_of_neg (by simp [none]), List.foldl_cons, nothing, skips, ih]
    · rw [List.filter_cons_of_pos (by simp [none]), List.foldl_cons, List.foldl_cons, ih]

theorem joinCalls (ps : List Piece) : String.join (calls ps) = fragment ps := by
  have filled : String.join (calls ps) = String.join (ps.flatMap Piece.writes) :=
    foldFilled (fun _ => String.append_empty) _ ""
  rw [filled, ← String.toList_inj, String.toList_join, fragmentToList]
  clear filled
  induction ps with
  | nil => rfl
  | cons p rest ih => rw [List.flatMap_cons, List.flatMap_append, writesChars, charsCons, ih]

namespace Emitter

variable {σ ε : Type} {device : Device σ ε}

theorem writeFailed {e : Emitter σ ε} (failed : e.error.isSome = true) (text : String) : e.write device text = e := by
  rw [write, failed, Bool.true_or, if_pos rfl]

theorem putAllCalls (e : Emitter σ ε) (ps : List Piece) :
    e.putAll device ps = (calls ps).foldl (write device) e := by
  have skips (e : Emitter σ ε) : e.write device "" = e := by
    have none : "".isEmpty = true := rfl
    rw [write, none, Bool.or_true, if_pos rfl]
  rw [calls, foldFilled skips, List.foldl_flatMap]
  rfl

end Emitter

section Limited

variable {ε : Type} (limit : Nat) (fault : List String → String → ε)

/-- What has become of the calls: all of them were taken, or all in front of the first that does not fit. -/
inductive Written : List String → Emitter Limited ε → Prop
  | whole {texts} (fits : (String.join texts).utf8ByteSize ≤ limit) :
      Written texts ⟨⟨String.join texts, some (limit - (String.join texts).utf8ByteSize), texts.reverse⟩, none⟩
  | failed {before text after} (fits : (String.join before).utf8ByteSize ≤ limit)
      (beyond : limit < (String.join before).utf8ByteSize + text.utf8ByteSize) :
      Written (before ++ text :: after)
        ⟨⟨String.join before, some (limit - (String.join before).utf8ByteSize), text :: before.reverse⟩,
          some (fault before text)⟩

variable {limit fault}

theorem Written.write {texts : List String} {e : Emitter Limited ε} (written : Written limit fault texts e)
    {text : String} (filled : text.isEmpty = false) :
    Written limit fault (texts ++ [text]) (e.write (Limited.device fault) text) := by
  cases written with
  | whole fits =>
    have size : (String.join (texts ++ [text])).utf8ByteSize = (String.join texts).utf8ByteSize + text.utf8ByteSize := by
      rw [joinSnoc, String.utf8ByteSize_append]
    by_cases room : text.utf8ByteSize ≤ limit - (String.join texts).utf8ByteSize
    · have less : limit - (String.join texts).utf8ByteSize - text.utf8ByteSize =
          limit - (String.join (texts ++ [text])).utf8ByteSize := by omega
      have taken : Written limit fault (texts ++ [text]) _ := .whole (by omega)
      simpa [Emitter.write, filled, Limited.device, room, less, joinSnoc] using taken
    · have refused : Written limit fault (texts ++ [text]) _ := .failed fits (by omega)
      simpa [Emitter.write, filled, Limited.device, Limited.asked, room] using refused
  | failed fits beyond =>
    rw [Emitter.writeFailed rfl, List.append_assoc, List.cons_append]
    exact .failed fits beyond

theorem writtenAll {texts : List String} (filled : ∀ text ∈ texts, text.isEmpty = false) :
    Written limit fault texts (texts.foldl (Emitter.write (Limited.device fault)) (.start (.empty (some limit)))) := by
  -- calls come last, so what has become of those in front is known
  induction texts using List.reverseRecOn with
  | nil => exact .whole (Nat.zero_le limit)
  | append_singleton texts text ih =>
    rw [List.foldl_append]
    exact (ih fun text mem => filled text (List.mem_append_left _ mem)).write (filled text (by simp))

variable (limit fault)

/-- What is left of pieces that were written to an empty device. -/
def emitted (ps : List Piece) : Emitter Limited ε :=
  (Emitter.start (.empty (some limit))).putAll (Limited.device fault) ps

theorem writtenEmitted (ps : List Piece) : Written limit fault (calls ps) (emitted limit fault ps) := by
  rw [emitted, Emitter.putAllCalls]
  exact writtenAll fun text mem => by simpa using (List.mem_filter.mp mem).2

def Emitter.sink (e : Emitter Limited ε) : Sink := ⟨e.writer, e.error.map fun _ => ()⟩

variable {limit}

theorem sinkWrite (e : Emitter Limited ε) (text : String) :
    Emitter.write Sink.device e.sink text = (e.write (Limited.device fault) text).sink := by
  obtain ⟨⟨accepted, left, made⟩, error⟩ := e
  cases error with
  | some error => rfl
  | none =>
    by_cases nothing : text.isEmpty = true
    · simp [Emitter.write, Emitter.sink, nothing]
    · by_cases room : left.all (text.utf8ByteSize ≤ ·) = true
      · simp [Emitter.write, Emitter.sink, Sink.device, Limited.device, nothing, room]
      · simp [Emitter.write, Emitter.sink, Sink.device, Limited.device, nothing, room]

theorem sinkPutAll (e : Emitter Limited ε) (ps : List Piece) :
    e.sink.putAll ps = (e.putAll (Limited.device fault) ps).sink :=
  List.foldl_hom Emitter.sink fun _ _ => List.foldl_hom Emitter.sink (sinkWrite fault)

variable (limit)

theorem sinkEmitted (ps : List Piece) : (Sink.limited limit).putAll ps = (emitted limit fault ps).sink :=
  sinkPutAll fault (.start (.empty (some limit))) ps

/-- What was taken is the beginning of the text, whatever the failure is. All of it is handed back just when the
limit is enough for it. If the limit is not, some call is the first that does not fit: the device has taken what the
calls in front of it write, has not been called again, and the failure of that call is the one that is told. -/
theorem refusedCleanly (ps : List Piece) :
    (∃ rest, (emitted limit fault ps).writer.accepted ++ rest = fragment ps) ∧
    (Sink.limited limit).putAll ps = (emitted limit fault ps).sink ∧
    ((∃ l, (emitted limit fault ps).finish (Limited.device fault) = .ok l ∧ l.accepted = fragment ps) ↔
      (fragment ps).utf8ByteSize ≤ limit) ∧
    (limit < (fragment ps).utf8ByteSize → ∃ before text after, calls ps = before ++ text :: after ∧
      (String.join before).utf8ByteSize ≤ limit ∧ limit < (String.join before).utf8ByteSize + text.utf8ByteSize ∧
      (emitted limit fault ps).writer.accepted = String.join before ∧
      (emitted limit fault ps).writer.asked = before ++ [text] ∧
      (emitted limit fault ps).finish (Limited.device fault) = .error (fault before text)) := by
  have written := writtenEmitted limit fault ps
  have text := joinCalls ps
  refine ⟨?_, sinkEmitted limit fault ps, ?_⟩
  · rw [← text]
    generalize emitted limit fault ps = e, calls ps = texts at written
    cases written with
    | whole fits => exact ⟨"", String.append_empty⟩
    | failed fits beyond => exact ⟨_, String.join_append.symm⟩
  · rw [← text]
    generalize emitted limit fault ps = e, calls ps = texts at written
    cases written with
    | whole fits =>
      refine ⟨⟨fun _ => fits, fun _ => ⟨_, rfl, rfl⟩⟩, fun beyond => ?_⟩
      omega
    | @failed before text after fits beyond =>
      have size : (String.join (before ++ text :: after)).utf8ByteSize =
          (String.join before).utf8ByteSize + text.utf8ByteSize + (String.join after).utf8ByteSize := by
        rw [List.append_cons, String.join_append, joinSnoc, String.utf8ByteSize_append, String.utf8ByteSize_append]
      refine ⟨⟨fun whole => ?_, fun fits => ?_⟩, fun _ => ?_⟩
      · obtain ⟨l, done, _⟩ := whole
        contradiction
      · omega
      · exact ⟨before, text, after, rfl, fits, beyond, rfl, by simp [Limited.asked], rfl⟩

theorem newlineDropped :
    let ps : List Piece := [.text "abc", .text "de", .newline]
    (emitted 4 Prod.mk ps).writer = ⟨"abc", some 1, ["de", "abc"]⟩ ∧
      ∃ before text, (emitted 4 Prod.mk ps).writer.asked = before ++ [text] ∧
        (emitted 4 Prod.mk ps).finish (Limited.device Prod.mk) = .error (before, text) := by
  refine ⟨by decide +kernel, ?_⟩
  obtain ⟨before, text, _, _, _, _, _, asked, failed⟩ :=
    (refusedCleanly 4 Prod.mk [.text "abc", .text "de", .newline]).2.2.2 (by decide +kernel)
  exact ⟨before, text, asked, failed⟩

end Limited

end Boogie.Layout
