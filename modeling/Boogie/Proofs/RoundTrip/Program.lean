import Boogie.Proofs.Built.Program
import Boogie.Proofs.Located
import Boogie.Proofs.Printed.Accepted
import Boogie.Proofs.Printed.Same
import Boogie.Proofs.Reread.Program

/-! A program that a source is read as is printed, read again and printed again. What a group in braces holds is told
apart by its first token, so this asks that no expression in the place of a parameter begins with a string. -/
namespace Boogie

open Token (scan)
open Grammar (Scope)
open Layout (printable stringless isAttributePlain isTriggerPlain)

namespace Conditional

theorem leftSublist {left lines : List (List Char)} (h : List.Forall₂ LeftOf left lines) :
    (Text.join '\n' left).Sublist (Text.join '\n' lines) := by
  have ofLine {part line : List Char} (one : LeftOf part line) : part.Sublist line := by
    rcases one with rfl | rfl
    · exact List.Sublist.refl _
    · exact List.nil_sublist _
  induction h with
  | nil => exact List.Sublist.refl _
  | @cons part line left lines one ofRest ih =>
    cases ofRest with
    | nil => simpa [Text.join] using ofLine one
    | cons _ _ =>
      rw [Text.joinCons, Text.joinCons]
      exact (ofLine one).append (ih.cons_cons '\n')

end Conditional

theorem Reading.selectedLength (source : String) (defines : List String) :
    (selected source defines).text.length ≤ byteLength source.toList := by
  obtain ⟨left, same, ofLines⟩ := selectedLeft source defines
  have within := (Conditional.leftSublist ofLines).length_le
  rw [← same, splitLines, Text.joinSplit] at within
  exact Nat.le_trans within (lengthLeBytes _)

section Printed

variable {c : Checks} {p : Program}

theorem everyFormalsPrinted {fs : List Formal} (pass : every c fs) : every c (fs.map Formal.withoutAttributes) :=
  List.forall_mem_map.mpr fun f mem =>
    have ⟨n, type, whereClause, _⟩ := pass f mem
    ⟨n, type, whereClause, nofun⟩

theorem everyPrinted (kept : ∀ i, c.decl (.implementation i) → c.decl (Decl.implementation i).printed)
    (pass : every c p) : every c p.printed := by
  refine List.forall_mem_map.mpr fun d mem => ?_
  obtain ⟨here, inside⟩ := pass d mem
  cases d with
  | implementation i =>
    obtain ⟨n, ps, ins, outs, rest⟩ := inside
    exact ⟨kept i here, n, ps, everyFormalsPrinted ins, everyFormalsPrinted outs, rest⟩
  | _ => exact ⟨here, inside⟩

theorem builtPrinted {G : Scope} (pass : every G.built p) : every G.built p.printed := by
  refine everyPrinted (fun i built => ?_) pass
  obtain ⟨shaped, ⟨ins, outs⟩, _⟩ := built
  refine ⟨?_, ⟨List.forall_mem_map.mpr ins, List.forall_mem_map.mpr outs⟩, fun _ => trivial⟩
  refine List.forall_mem_append.mpr ⟨?_, ?_⟩
  · exact List.forall_mem_map.mpr fun f mem => shaped f (List.mem_append_left _ mem)
  · exact List.forall_mem_map.mpr fun f mem => shaped f (List.mem_append_right _ mem)

theorem printedTwice (p : Program) : p.printed.printed = p.printed := by
  have each (d : Decl) : d.printed.printed = d.printed := by
    cases d <;> simp [Decl.printed, Formal.withoutAttributes, Function.comp_def]
  simp [Program.printed, each]

end Printed

namespace Layout

theorem declPrinted (d : Decl) : decl d.printed = decl d := by
  cases d with
  | implementation i =>
    have each (fs : List Formal) : (fs.map Formal.withoutAttributes).map (formal false) = fs.map (formal false) := by
      rw [List.map_map]
      exact List.map_congr_left fun f _ => rfl
    simp only [Decl.printed, decl, declBody, implementation, signature, each, List.isEmpty_map]
  | _ => rfl

theorem standsApartPrinted (d : Decl) : standsApart d.printed = standsApart d := by
  cases d <;> rfl

theorem declsAfterPrinted (apart : Bool) (ds : List Decl) :
    declsAfter apart (ds.map Decl.printed) = declsAfter apart ds := by
  induction ds generalizing apart with
  | nil => rfl
  | cons d rest ih => rw [List.map_cons, declsAfter, declsAfter, standsApartPrinted, declPrinted, ih]

theorem programPrinted (p : Program) : program p.printed = program p := by
  obtain ⟨ds⟩ := p
  cases ds with
  | nil => rfl
  | cons d rest =>
    rw [Program.printed, List.map_cons, program, program, decls, decls, standsApartPrinted, declPrinted, declsAfterPrinted]

end Layout

theorem Program.textPrinted (p : Program) : p.printed.text = p.text := by
  rw [Program.text, Layout.programPrinted, Program.text]

theorem textOfAlike {p q : Program} (ofP : every wellFormed p) (ofQ : every wellFormed q) (same : bare p = bare q) :
    p.text = q.text := by
  have pieces : Layout.program p = Layout.program q :=
    (Layout.sameProgram ofP).symm.trans ((congrArg Layout.program same).trans (Layout.sameProgram ofQ))
  rw [Program.text, pieces, Program.text]

def plain : Checks where
  name _ := True
  ty _ := True
  expr _ := True
  attr := isAttributePlain
  trigger := isTriggerPlain
  cmd _ := True
  block _ := True
  tail _ := True
  stmtList _ := True
  decl _ := True

/-- No string is within an expression that stands in the place of a parameter. -/
def stringsApart : Checks where
  name _ := True
  ty _ := True
  expr _ := True
  attr a := ∀ e, .expr e ∈ a.params → every stringless e
  trigger t := t.positive = false → ∀ e ∈ t.exprs, every stringless e
  cmd _ := True
  block _ := True
  tail _ := True
  stmtList _ := True
  decl _ := True

theorem stringsApartImpliesPlain : stringsApart.Implies plain where
  name _ _ := trivial
  ty _ _ _ := trivial
  expr _ _ _ := trivial
  attr _ apart e mem := Layout.opensPlainly e (apart e mem)
  trigger _ apart negative e mem := Layout.opensPlainly e (apart negative e mem)
  cmd _ _ := trivial
  block _ _ := trivial
  tail _ _ := trivial
  stmtList _ _ := trivial
  decl _ _ := trivial

theorem builtAndPlainImplyPrintable {text : List Char} (short : text.length < Text.wordCount 31) :
    (Scope.built ⟨(scan text).terminals, True⟩).Together plain printable where
  name _ named _ := Layout.writtenOfNamed (named trivial)
  ty _ built _ _ := ⟨built.1, built.2.1⟩
  expr e built _ _ := by
    obtain ⟨shaped, fixed, read⟩ := built
    refine ⟨shaped, fixed, ?_⟩
    cases e with
    | literal span v =>
      obtain ⟨t, mem, _, value⟩ := read trivial
      exact Layout.legibleOfCut (Token.scanCut (List.mem_of_mem_filter mem)) short value
    | _ => trivial
  attr := by
    rintro ⟨key, params, span⟩ ⟨⟨shaped, read⟩, _⟩ ⟨apart, _⟩
    refine ⟨shaped, fun content mem => ?_, apart⟩
    obtain ⟨t, inside, kind, rfl⟩ := read _ mem
    exact Layout.quotableOfToken inside kind
  trigger := by
    rintro ⟨positive, exprs, span⟩ ⟨shaped, _⟩ ⟨apart, _⟩
    exact ⟨shaped, apart⟩
  cmd _ built _ := built
  block _ built _ := ⟨built.1, built.2 trivial⟩
  tail _ built _ := built
  stmtList _ built _ := built
  decl _ built _ := ⟨built.1, built.2.1, built.2.2 trivial⟩

section Accepted

variable {file source : String} {defines : List String} {p : Program}

theorem acceptedReread (short : byteLength source.toList < Text.wordCount 31)
    (found : p ∈ (Reading.ofSource file source defines).program) (apart : every plain p.printed) (log : Log) :
    (scan p.text.toList).faulty = [] ∧ ∃ p', Reading.ofTokens (scan p.text.toList) p.text.toList log = (p', log) ∧
      bare p' = bare p.printed ∧ p'.text = p.text := by
  have built := builtPrinted (builtOfAccepted found)
  have inside : (Reading.selected source defines).text.length < Text.wordCount 31 :=
    Nat.lt_of_le_of_lt (Reading.selectedLength source defines) short
  have pass : every printable p.printed := p.printed.both (builtAndPlainImplyPrintable inside) built apart
  obtain ⟨clean, p', read, same⟩ := printedReread pass log
  rw [p.textPrinted] at clean read
  rw [printedTwice] at same
  have ofPrinted : every wellFormed p.printed := Program.imp (Grammar.builtImpliesWellFormed _) _ built
  have ofFound : every wellFormed p' := by
    have shaped : (Reading.ofTokens (scan p.text.toList) p.text.toList log).1.IsWellFormed := wellFormedOfTokens rfl _ _
    rwa [read] at shaped
  exact ⟨clean, p', read, same, (textOfAlike ofFound ofPrinted same).trans p.textPrinted⟩

/-- A program that is given, and in which no string is within an expression that stands in the place of a parameter, is
printed as a text that is read without a report as the same program, but for what is not printed of it; and that is
printed as the same text. -/
theorem programRoundTrips (short : byteLength source.toList < Text.wordCount 31)
    (found : p ∈ (Reading.ofSource file source defines).program) (apart : every stringsApart p) (name : String) :
    (scan p.text.toList).faulty = [] ∧
      ∃ p' log, Reading.ofTokens (scan p.text.toList) p.text.toList (.empty name) = (p', log) ∧ log.toList = [] ∧
        bare p' = bare p.printed ∧ p'.text = p.text := by
  have printedApart : every stringsApart p.printed := everyPrinted (fun _ _ => trivial) apart
  have ofGroups : every plain p.printed := Program.imp stringsApartImpliesPlain _ printedApart
  obtain ⟨clean, p', read, same, text⟩ := acceptedReread short found ofGroups (.empty name)
  exact ⟨clean, p', _, read, rfl, same, text⟩

end Accepted

/-- An attribute on a formal, which its implementation has as well, with a string and an expression as parameters, and
a negative trigger. -/
def attributedFormal : String :=
  "axiom (forall y: int :: \x7b:nopats y\x7d true); procedure P(\x7b:a \"s\", x\x7d x: int) \x7b \x7d"

def isAttributedFormal (p : Program) : Bool :=
  match p.decls with
  | [.axiomatic ⟨.bind _ _ [] [⟨_, .basic _ _, none, [], _⟩] [] [⟨_, [.name _ _], _⟩] (.literal _ _), [], _⟩,
    .procedure ⟨_, [], [⟨some _, .basic _ _, none, _, [⟨_, [.string _, .expr (.name _ _)], _⟩], _⟩], [], [], [], [], [], _⟩,
    .implementation ⟨_, [], [⟨some _, .basic _ _, none, _, [⟨_, [.string _, .expr (.name _ _)], _⟩], _⟩], [], [],
      ⟨[⟨_, none, [], none⟩], _⟩, [], _⟩] => true
  | _ => false

theorem attributedFormalApart {p : Program} (shape : isAttributedFormal p = true) : every stringsApart p := by
  unfold isAttributedFormal at shape
  split at shape
  · rename_i decls
    show every stringsApart p.decls
    rw [decls]
    rw [everyCons, everyCons, everyCons]
    refine ⟨⟨trivial, ?_, everyNil⟩, ?_, ?_, everyNil⟩
    · simp [stringsApart, stringless]
    · refine ⟨trivial, trivial, everyNil, ?_, everyNil, everyNil, everyNil, everyNil, everyNil⟩
      simp [stringsApart, stringless]
    · refine ⟨trivial, trivial, everyNil, ?_, everyNil, everyNil, ?_, everyNil⟩ <;> simp [stringsApart, stringless]
  · contradiction

theorem attributedFormalRead : ∃ p ∈ (Reading.ofSource "" attributedFormal []).program, isAttributedFormal p = true := by
  have shaped : (Reading.ofSource "" attributedFormal []).program.any isAttributedFormal = true := by decide +kernel
  exact (Option.any_eq_true _ _).mp shaped

theorem attributedFormalRoundTrips : ∃ p ∈ (Reading.ofSource "" attributedFormal []).program,
    byteLength attributedFormal.toList < Text.wordCount 31 ∧ every stringsApart p ∧ (scan p.text.toList).faulty = [] ∧
      ∃ p' log, Reading.ofTokens (scan p.text.toList) p.text.toList (.empty "") = (p', log) ∧ log.toList = [] ∧
        bare p' = bare p.printed ∧ p'.text = p.text := by
  obtain ⟨p, found, shape⟩ := attributedFormalRead
  have short : byteLength attributedFormal.toList < Text.wordCount 31 := by decide
  have apart := attributedFormalApart shape
  exact ⟨p, found, short, apart, programRoundTrips short found apart ""⟩

end Boogie
