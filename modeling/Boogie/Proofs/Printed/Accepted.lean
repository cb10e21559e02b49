import Boogie.Proofs.Gate
import Boogie.Proofs.Printed.Inline
import Boogie.Proofs.Printed.Printable

/-! What stands in the program that a source is read as can be written in a source, since it was read there. -/
namespace Boogie.Layout

open Grammar (Named Scope literalOf exprRead paramRead)

variable {text : List Char}

theorem writtenOfNamed {n : String} (h : Named (Token.scan text).terminals n) : isWritten n := by
  cases h with
  | written t mem kind => exact Token.nameOfCut (Token.scanCut (List.mem_of_mem_filter mem)) kind
  | width w => exact writtenWidth w
  | place i => exact writtenPlace i

theorem quotableOfToken {t : Token} (mem : t ∈ (Token.scan text).terminals) (kind : t.kind = .string) :
    isQuotable (Literal.stringContent t.text) :=
  quotableOfCut (Token.scanCut (List.mem_of_mem_filter mem)) kind

theorem stringOfLiteral {t : Token} {content : String} (read : literalOf t = some (.string content)) :
    t.kind = .string ∧ content = Literal.stringContent t.text := by
  have other {α : Type} {o : Option α} {f : α → Literal} (differs : ∀ a, f a ≠ .string content) :
      o.map f ≠ some (.string content) := fun same => by
    obtain ⟨a, _, value⟩ := Option.map_eq_some_iff.mp same
    exact differs a value
  unfold literalOf at read
  split at read
  case h_8 kind => exact ⟨kind, by simpa using read.symm⟩
  case h_1 | h_2 => exact absurd read nofun
  all_goals exact absurd read (other nofun)

theorem builtImpliesUnbroken : (Scope.built ⟨(Token.scan text).terminals, True⟩).Implies unbroken where
  name _ ok := writtenOfNamed (ok trivial)
  ty _ _ _ := trivial
  expr e ok _ := by
    obtain ⟨shaped, _, read⟩ := ok
    refine ⟨shaped, ?_⟩
    unfold literalUnbroken
    split
    · obtain ⟨t, mem, _, value⟩ := read trivial
      obtain ⟨kind, rfl⟩ := stringOfLiteral value
      exact quotablePlain (quotableOfToken mem kind)
    · trivial
  attr a ok content mem := by
    obtain ⟨t, inside, kind, rfl⟩ := ok.2 _ mem
    exact quotablePlain (quotableOfToken inside kind)
  trigger _ _ := trivial
  cmd _ ok := ok.1
  block _ _ := trivial
  tail _ _ := trivial
  stmtList _ _ := trivial
  decl _ _ := trivial

theorem unbrokenOfAccepted {file source : String} {defines : List String} {p : Program}
    (found : p ∈ (Reading.ofSource file source defines).program) : every unbroken p :=
  Program.imp builtImpliesUnbroken p (builtOfAccepted found)

end Boogie.Layout
