import Boogie.Proofs.Extract.Held
import Boogie.Proofs.Operators
import Boogie.Proofs.Parens.Expr

/-! Programs of one axiom. What is read as one declaration was written as one, and the words of an axiom cover what
it holds. -/
namespace Boogie.Grammar

open Token (Kind Word)
open Layout (Sketch)
open Layout.Sketch (Covers)

variable {n : Nat} {sort : Kind → Prop}

theorem filledConstants : Finds anywhere n sort (fun _ ds => ds ≠ []) constants := by
  refine .skip fun _ => .skip fun _ => .skip fun _ => .bind coversNames fun _ ids ⟨_, filled⟩ => ?_
  refine .skip fun _ => .skip fun _ => .skip fun found => .skip fun _ => .pure ?_
  simpa using filled

theorem functionDeclsFilled (f : Function) (body : Option Expr) : functionDecls f body ≠ [] := by
  unfold functionDecls
  repeat' split
  all_goals exact List.cons_ne_nil _ _

theorem filledFunction : Finds anywhere n sort (fun _ ds => ds ≠ []) function := by
  refine .skip fun _ => .skip fun _ => .skip fun _ => .skip fun _ => .skip fun _ => .skip fun _ => .skip fun _ => ?_
  exact .skip fun _ => .skip fun _ => .skip fun _ => .pure (functionDeclsFilled _ _)

theorem filledTypeDecls : Finds anywhere n sort (fun _ ds => ds ≠ []) typeDecls := by
  refine .skip fun _ => .skip fun found => .bind (.separated (P := fun _ => True) .any) ?_
  rintro _ _ ⟨d, rest, rfl, _⟩
  exact .skip fun _ => .pure (List.cons_ne_nil _ _)

theorem filledGlobals : Finds anywhere n sort (fun _ ds => ds ≠ []) globals := by
  have declared : Finds anywhere n sort (fun _ vs => vs ≠ []) (variableDecl expression .globalVariables) := by
    refine .skip fun _ => .skip fun found => .bind (.separated typedGroupSome) ?_
    rintro _ _ ⟨group, rest, rfl, filled⟩
    exact .skip fun _ => .pure fun none => filled (List.append_eq_nil_iff.mp none).1
  exact .commute declared fun _ vs filled => by simpa using filled

theorem procedureDeclsFilled (sig : Signature) (span : Span) (contract : List Spec)
    (body : Option (List Variable × StmtList)) : procedureDecls sig span contract body ≠ [] := by
  unfold procedureDecls
  split <;> exact List.cons_ne_nil _ _

theorem filledProcedure : Finds anywhere n sort (fun _ ds => ds ≠ []) procedure := by
  refine .skip fun _ => .skip fun _ => .skip fun found => .skip fun _ => .pure ?_
  exact procedureDeclsFilled _ _ _ _

theorem filledImplementation : Finds anywhere n sort (fun _ ds => ds ≠ []) implementation := by
  refine .skip fun _ => .skip fun _ => .skip fun found => .skip fun _ => .pure ?_
  exact List.cons_ne_nil _ _

theorem filledDecl : Finds anywhere n sort (fun _ ds => ds ≠ []) decl := by
  refine .byKind fun k _ => ?_
  split
  · exact filledConstants
  · exact filledFunction
  · exact .skip fun _ => .skip fun _ => .skip fun _ => .skip fun _ => .skip fun _ => .pure (List.cons_ne_nil _ _)
  · exact filledTypeDecls
  · exact filledGlobals
  · exact filledProcedure
  · exact filledImplementation
  · exact .fault (.syntaxError _)

def CoversAxiom (ws : List Word) (ds : List Decl) : Prop :=
  headKind ws = .kwAxiom → ∃ a opening inner closing, ds = [.axiomatic a] ∧ ws = axiomWords opening inner closing ∧
    Covers inner (Sketch.attributes a.attributes ++ Sketch.expr a.condition)

theorem coversAxiom : Finds anywhere n (· = .kwAxiom) CoversAxiom axiomDecl := by
  refine .token (k := n) (by decide) (fun t _ => ?_) (Nat.le_succ n)
  refine .bind (coversAttributes writesExpression) fun ws as ofAs => .bind writesExpression fun ws' e ⟨ofE, _⟩ => ?_
  refine .expect (by decide) fun closing => .spanFrom fun span => .pure fun _ => ?_
  refine ⟨_, t.text.toList, ws ++ ws', closing, rfl, ?_, ofAs.append ofE⟩
  simp [axiomWords]

theorem coversDecl : Finds anywhere n sort CoversAxiom decl := by
  have other {k : Kind} {m : Production (List Decl)} (differs : k ≠ .kwAxiom) : Finds anywhere n (· = k) CoversAxiom m := by
    refine Finds.weaken (.heads .any) fun ws ds ⟨_, first⟩ begins => ?_
    rcases first with rfl | same
    · exact absurd begins (by decide)
    · exact absurd (same.symm.trans begins) differs
  refine .byKind fun k _ => ?_
  split
  case h_3 => exact coversAxiom
  case h_8 => exact .fault (.syntaxError _)
  all_goals exact other (by decide)

theorem oneOfRow {ws : List Word} {groups : List (List Decl)} {d : Decl}
    (rows : Finds.Row (fun ws ds => ds ≠ [] ∧ CoversAxiom ws ds) ws groups) (one : groups.flatten = [d]) :
    CoversAxiom ws [d] := by
  cases rows with
  | nil => exact absurd one nofun
  | @cons _ ds _ others first more =>
    obtain ⟨filled, covers⟩ := first
    obtain ⟨e, rest, rfl⟩ := List.exists_cons_of_ne_nil filled
    obtain ⟨rfl, none⟩ := List.cons.inj one
    obtain ⟨rfl, none⟩ := List.append_eq_nil_iff.mp none
    cases more with
    | nil => rwa [List.append_nil]
    | cons second _ => exact absurd (List.flatten_eq_nil_iff.mp none _ List.mem_cons_self) second.1

theorem coversProgram : Finds anywhere n sort (fun ws p => ∀ d, p.decls = [d] → CoversAxiom ws [d]) program :=
  .commute (.manyLook (.both filledDecl coversDecl)) fun _ _ rows _ one => oneOfRow rows one

end Boogie.Grammar
