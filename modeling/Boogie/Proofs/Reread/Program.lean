import Boogie.Proofs.Chained
import Boogie.Proofs.Printed.Streamed
import Boogie.Proofs.Reread.Decl
import Boogie.Proofs.Termination

/-! A printed program is read back from its text: nothing of it is faulty, and nothing is wrong with how its words
are put together. -/
namespace Boogie

open Token (Word scan words)
open Layout (wordsOf printable)

namespace Grammar

theorem wordsDeclsAfter (ds : List Decl) (apart : Bool) :
    wordsOf (Layout.declsAfter apart ds) = ds.flatMap fun d => wordsOf (Layout.decl d) := by
  induction ds generalizing apart with
  | nil => rfl
  | cons d rest ih =>
    rw [Layout.declsAfter, Layout.wordsOfAppend, Layout.wordsOfAppend, ih]
    split <;> simp

theorem wordsProgram (p : Program) : wordsOf (Layout.program p) = p.decls.flatMap fun d => wordsOf (Layout.decl d) := by
  obtain ⟨decls⟩ := p
  cases decls with
  | nil => rfl
  | cons d rest => simp [Layout.program, Layout.decls, wordsDeclsAfter]

def decls : Production (List (List Decl)) := many (nextIs (· != .endOfText)) decl

theorem readsDecls {ds : List Decl} (pass : every printable ds) :
    Reads (ds.flatMap fun d => wordsOf (Layout.decl d)) [] (fun found => Alike (ds.map Decl.printed) found.flatten) decls := by
  have moves : Progresses (fun k => (k != .endOfText) = true) decl := Progresses.decl.mono fun _ more => bne_iff_ne.mp more
  have each (d : Decl) (mem : d ∈ ds) : ReadsBack (fun d => wordsOf (Layout.decl d)) (fun k => declSync.contains k = true)
      (fun d found => Alike [d.printed] found) decl d := fun _ ends => readsDecl (pass d mem) ends
  have opens (d : Decl) (_ : d ∈ ds) : ∃ w more, wordsOf (Layout.decl d) = w :: more ∧ (w.kind != .endOfText) = true ∧
      declSync.contains w.kind = true := by
    obtain ⟨more, same⟩ := declOpens d
    exact ⟨_, more, same, declWordStarts d⟩
  have ends : declSync.contains .endOfText = true := by decide
  have list : Reads (ds.flatMap fun d => wordsOf (Layout.decl d)) []
      (List.Forall₂ (fun d found => Alike [d.printed] found) ds) decls := readsMany moves each opens rfl ends
  exact list.weaken fun found all => alikeJoined (List.forall₂_map_left_iff.mpr all)

theorem moreIsNext {s : State} (proper : s.IsProper) : (more.run s).1 = ((nextIs (· != .endOfText)).run s).1 := by
  show (!s.cursor.ahead.isEmpty) = (s.kind != .endOfText)
  by_cases none : s.cursor.ahead = []
  · rw [none, State.kindOfNil proper.closed none]
    rfl
  · rw [bne_iff_ne.mpr (proper.more none)]
    simpa using none

theorem roundsAreNext (tokens : List Token) (acc : List (List Decl)) {s : State} (proper : s.IsProper) :
    (rounds more addDecl tokens acc).run s = (rounds (nextIs (· != .endOfText)) addDecl tokens acc).run s := by
  induction tokens generalizing acc s with
  | nil => rfl
  | cons t rest ih =>
    have same := moreIsNext proper
    rw [rounds, rounds, Production.runBind, Production.runBind, same]
    show ((if _ then _ else _ : Production _).run s) = (if _ then _ else _ : Production _).run s
    split
    · exact ih _ ((decl.reaches s).isProper proper)
    · rfl

theorem declsOfMore {s : State} (proper : s.IsProper) : (many more decl).run s = decls.run s := by
  have loops : (whileHolds more addDecl []).run s = (whileHolds (nextIs (· != .endOfText)) addDecl []).run s :=
    roundsAreNext _ [] proper
  have whole : (many more decl).run s = (((whileHolds more addDecl []).run s).1.reverse, ((whileHolds more addDecl []).run s).2) := rfl
  rw [whole, loops]
  rfl

end Grammar

open Grammar

theorem ofTokensRead {text : List Char} {V : List (List Decl) → Prop} (sound : ∀ w ∈ words text, w.kind.isTerminal = true)
    (reads : Reads (words text) [] V decls) (log : Log) : (scan text).faulty = [] ∧
      ∃ found, V found ∧ Reading.ofTokens (scan text) text log = (⟨found.flatten⟩, log) := by
  have clean : (scan text).faulty = [] := cleanOfSound fun w mem => bne_iff_ne.mp (sound w mem)
  let start : State := .start (scan text) text log
  have ahead : start.cursor.ahead = (scan text).body := terminalsOfClean clean
  have proper : start.IsProper := ⟨rfl, fun t mem => scanInner (ahead ▸ mem)⟩
  have here : start.words = words text ++ [] := by
    rw [State.words, ahead, Token.scanWords, List.append_nil]
  obtain ⟨found, _, unmarked⟩ := reads start proper.closed here
  have silent : (decls.run start).2.log = log := (decls.reaches start).silent unmarked
  refine ⟨clean, (decls.run start).1, found, ?_⟩
  have program : Grammar.program.run start = (⟨((many more decl).run start).1.flatten⟩, ((many more decl).run start).2) := rfl
  rw [Reading.ofTokens, Reading.run, program, declsOfMore proper]
  exact Prod.ext rfl silent

theorem printedReread {p : Program} (pass : every printable p) (log : Log) : (scan p.text.toList).faulty = [] ∧
    ∃ p', Reading.ofTokens (scan p.text.toList) p.text.toList log = (p', log) ∧ bare p' = bare p.printed := by
  have flows := Layout.flowsProgram pass
  have text : words p.text.toList = wordsOf (Layout.program p) := by
    rw [Layout.textFragment, Layout.fragmentToList, flows.wordsAlone]
  have reads : Reads (words p.text.toList) [] (fun found => Alike (p.decls.map Decl.printed) found.flatten) decls := by
    rw [text, wordsProgram]
    exact readsDecls pass
  obtain ⟨clean, found, same, ran⟩ := ofTokensRead (text ▸ flows.sound) reads log
  exact ⟨clean, _, ran, congrArg Program.mk same.symm⟩

end Boogie
