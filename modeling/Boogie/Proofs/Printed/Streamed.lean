import Boogie.Layout.Decl
import Boogie.Proofs.Printed.Pieces

/-! A program printed piece by piece into a sink that takes everything. Nothing is left for the end of the
text to be put in order: every declaration is a line, the last character of which is a mark. -/
namespace Boogie.Layout

theorem writesChars (p : Piece) : p.writes.flatMap String.toList = p.chars := by
  cases p with
  | text s => exact List.append_nil _
  | newline => rfl
  | space => rfl
  | indent columns =>
    rw [indentChars, Piece.writes]
    induction columns with
    | zero => rfl
    | succ n ih =>
      rw [List.replicate_succ, List.flatMap_cons, ih]
      rfl

namespace Sink

structure IsOpen (s : Sink) : Prop where
  room : s.writer.room = none
  error : s.error = none

variable {s : Sink}

theorem writeOpen (h : s.IsOpen) (text : String) :
    IsOpen (s.write device text) ∧ (s.write device text).writer.accepted = s.writer.accepted ++ text := by
  obtain ⟨room, error⟩ := h
  unfold Emitter.write
  by_cases none : text.isEmpty = true
  · have nothing : text = "" := by simpa using none
    exact ⟨⟨by simpa [none], by simpa [none]⟩, by simp [nothing]⟩
  · have taken : device.write s.writer text = (⟨s.writer.accepted ++ text, .none, text :: s.writer.made⟩, .none) := by
      simp [device, Limited.device, room]
    simp only [error, none, taken]
    exact ⟨⟨rfl, rfl⟩, rfl⟩

theorem writesOpen (h : s.IsOpen) (texts : List String) :
    IsOpen (texts.foldl (Emitter.write device) s) ∧
      (texts.foldl (Emitter.write device) s).writer.accepted.toList =
        s.writer.accepted.toList ++ texts.flatMap String.toList := by
  induction texts generalizing s with
  | nil => exact ⟨h, by simp⟩
  | cons text rest ih =>
    obtain ⟨still, taken⟩ := writeOpen h text
    obtain ⟨after, whole⟩ := ih still
    exact ⟨after, by simp [whole, taken]⟩

theorem putAllOpen (h : s.IsOpen) (ps : List Piece) :
    IsOpen (s.putAll ps) ∧ (s.putAll ps).writer.accepted.toList = s.writer.accepted.toList ++ chars ps := by
  induction ps generalizing s with
  | nil => exact ⟨h, (List.append_nil _).symm⟩
  | cons p rest ih =>
    obtain ⟨still, taken⟩ := writesOpen h p.writes
    obtain ⟨after, whole⟩ := ih still
    rw [writesChars] at taken
    refine ⟨after, whole.trans ?_⟩
    rw [taken, charsCons, List.append_assoc]

theorem finishOpen (h : s.IsOpen) : s.finish = some s.writer.accepted := by
  rw [finish, Emitter.finish, h.error]
  rfl

theorem finishUnlimited (ps : List Piece) : (unlimited.putAll ps).finish = some (fragment ps) := by
  obtain ⟨still, taken⟩ := putAllOpen (s := unlimited) ⟨rfl, rfl⟩ ps
  rw [finishOpen still, Option.some_inj, ← String.toList_inj, taken, fragmentToList]
  rfl

end Sink

def Closes (ps : List Piece) : Prop := ∃ front c, chars ps = front ++ [c] ∧ c ≠ '\n'

theorem Closes.behind {qs : List Piece} (h : Closes qs) (ps : List Piece) : Closes (ps ++ qs) := by
  obtain ⟨front, c, same, other⟩ := h
  exact ⟨chars ps ++ front, c, by rw [charsAppend, same, List.append_assoc], other⟩

theorem Closes.more {ps qs : List Piece} (h : Closes ps) (last : qs = [] ∨ Closes qs) : Closes (ps ++ qs) := by
  rcases last with rfl | last
  · rwa [List.append_nil]
  · exact last.behind ps

theorem closesSemicolon (ps : List Piece) : Closes (ps ++ [.text ";"]) :=
  Closes.behind ⟨[], ';', rfl, by decide⟩ ps

theorem closesBrace (ps : List Piece) : Closes (ps ++ [.text "\x7d"]) :=
  Closes.behind ⟨[], '\x7d', rfl, by decide⟩ ps

theorem closesEach {α : Type} {print : α → List Piece} (each : ∀ a, Closes (print a)) (as : List α) :
    as.flatMap print = [] ∨ Closes (as.flatMap print) := by
  induction as with
  | nil => exact .inl rfl
  | cons a rest ih => exact .inr ((each a).more ih)

theorem closesClauses (depth : Nat) (keyword : String) (cs : List Clause) :
    clauseLines depth keyword cs = [] ∨ Closes (clauseLines depth keyword cs) :=
  closesEach (fun _ => (closesSemicolon _).behind [.newline, lineStart depth]) cs

theorem closesProcedure (depth : Nat) (p : Procedure) : Closes (procedure depth p) := by
  have head : Closes (.text "procedure " :: attributes p.attributes ++ signature true p.name p.params p.ins p.outs ++
      .text ";" :: clauseLines (depth + 1) "requires" p.requires) := by
    rw [List.append_cons]
    exact (closesSemicolon _).more (closesClauses _ _ _)
  refine (head.more ?_).more (closesClauses _ _ _)
  by_cases none : p.modifies.isEmpty = true
  · exact .inl (if_pos none)
  · rw [if_neg none]
    exact .inr ((closesSemicolon (.text "modifies " :: names p.modifies)).behind [.newline, lineStart (depth + 1)])

theorem closesBody (depth : Nat) (locals : List Variable) (l : StmtList) : Closes (body depth locals l) :=
  (closesBrace [lineStart depth]).behind _

theorem closesFunction (f : Function) : Closes (function f) := by
  rw [function]
  cases f.body with
  | none => exact closesSemicolon _
  | some e => exact Closes.behind (Closes.behind ⟨[' '], '\x7d', rfl, by decide⟩ _) _

theorem closesVariable (v : Variable) : Closes (variableDecl v) := by
  obtain ⟨n, type, whereClause, as, span⟩ := v
  exact closesSemicolon _

theorem closesDeclBody (depth : Nat) (d : Decl) : Closes (declBody depth d) := by
  cases d with
  | constant c => exact closesSemicolon _
  | typeConstructor t => exact closesSemicolon _
  | typeSynonym t => exact closesSemicolon _
  | function f => exact closesFunction f
  | axiomatic a => exact closesSemicolon _
  | global v => exact closesVariable v
  | procedure p => exact closesProcedure depth p
  | implementation i => exact ((closesBody depth i.locals i.body).behind [.space]).behind _

def EndsInNewline (text : List Char) : Prop := ∃ front c, text = front ++ [c, '\n'] ∧ c ≠ '\n'

theorem EndsInNewline.behind {text : List Char} (h : EndsInNewline text) (before : List Char) :
    EndsInNewline (before ++ text) := by
  obtain ⟨front, c, rfl, other⟩ := h
  exact ⟨before ++ front, c, (List.append_assoc _ _ _).symm, other⟩

theorem declEnds (d : Decl) : EndsInNewline (chars (decl d)) := by
  obtain ⟨front, c, same, other⟩ := closesDeclBody 0 d
  refine ⟨(lineStart 0).chars ++ front, c, ?_, other⟩
  rw [decl, line, charsAppend, charsCons, same]
  simp [Piece.chars, Piece.string]

theorem declsAfterEnd {ds : List Decl} (some : ds ≠ []) (apart : Bool) :
    EndsInNewline (chars (declsAfter apart ds)) := by
  induction ds generalizing apart with
  | nil => exact absurd rfl some
  | cons d rest ih =>
    rw [declsAfter]
    by_cases last : rest = []
    · subst last
      simpa [declsAfter] using (declEnds d).behind _
    · rw [charsAppend]
      exact (ih last _).behind _

theorem programEnds {p : Program} (some : p.decls ≠ []) : EndsInNewline (chars (program p)) := by
  obtain ⟨decls⟩ := p
  match decls with
  | [] => exact absurd rfl some
  | [d] => simpa [program, Layout.decls, declsAfter] using declEnds d
  | d :: next :: rest =>
    rw [program, Layout.decls, charsAppend]
    exact (declsAfterEnd (List.cons_ne_nil next rest) _).behind _

theorem endLineEnded {text : String} (h : EndsInNewline text.toList) : endLine text = text := by
  obtain ⟨front, c, same, other⟩ := h
  have filled : ¬ text.isEmpty = true := by
    intro none
    have nothing : text = "" := by simpa using none
    rw [nothing] at same
    exact absurd (congrArg List.length same) (by simp)
  rw [endLine, if_neg filled, ← String.toList_inj, String.toList_ofList, same]
  simp [other]

theorem textFragment (p : Program) : p.text = fragment (program p) := by
  rw [Program.text, document]
  by_cases none : p.decls = []
  · rw [program, none]
    rfl
  · refine endLineEnded ?_
    rw [fragmentToList]
    exact programEnds none

/-- A program written piece by piece into a sink without a limit is its text, whatever the tree is like, and the
text of a program that declares anything ends in one newline. -/
theorem streamedWhole (p : Program) : (p.write .unlimited).finish = some p.text ∧
    (p.decls ≠ [] → EndsInNewline p.text.toList) := by
  rw [textFragment, fragmentToList]
  exact ⟨Sink.finishUnlimited _, programEnds⟩

theorem streamedAxiom :
    let p : Program := ⟨[.axiomatic ⟨.placeholder .nowhere, [], .nowhere⟩]⟩
    p.decls ≠ [] ∧ EndsInNewline p.text.toList := by
  have some : [Decl.axiomatic ⟨.placeholder .nowhere, [], .nowhere⟩] ≠ [] := List.cons_ne_nil _ _
  exact ⟨some, (streamedWhole _).2 some⟩

end Boogie.Layout
