import Boogie.Proofs.Chained
import Boogie.Proofs.Extract.Bounds
import Boogie.Proofs.Parens.Axiom
import Boogie.Proofs.Parens.Printed
import Boogie.Proofs.RoundTrip.Expr

/-! No pair of parentheses around a printed operand is redundant. The text without it has as many solid words as the
tree that was printed, and where it is read as that tree, a pair stands where the missing one stood. But on one side
of the missing pair another word stands, and the words within hang together by a word outside of all parentheses. -/
namespace Boogie

open Grammar (Scope)
open Token (Kind Word scan words)

namespace Layout

theorem solidCounted {ws : List Word} {w : Word} (mem : w ∈ ws) (solid : isSolid w.kind = true) :
    0 < (gistsOf ws).length := by
  rw [gistsOf, List.length_map]
  exact List.length_pos_of_mem (List.mem_filter.mpr ⟨mem, solid⟩)

theorem solidOther {w w' : Word} (solid : isSolid w.kind = true) (light : isSolid w'.kind = false) : w ≠ w' := by
  rintro rfl
  exact Bool.false_ne_true (light.symm.trans solid)

section Pairs

variable {A B C Q R : List Word} {opened closed : List Char}

theorem notWithin {P : List Word} (balanced : Balanced B) (joins : Joins B)
    (same : B ++ C = P ++ ⟨.leftParen, opened⟩ :: (Q ++ ⟨.rightParen, closed⟩ :: R)) (ofQ : Balanced Q)
    (skip : (gistsOf P).length = 0) : (gistsOf Q).length ≠ (gistsOf B).length := by
  intro size
  obtain ⟨U, w, V, rfl, solid, level⟩ := joins
  rw [List.append_assoc, List.cons_append] at same
  rcases List.append_eq_append_iff.mp same with ⟨more, rfl, rest⟩ | ⟨inner, rfl, rest⟩
  · rcases List.cons_eq_append_iff.mp rest with ⟨_, first⟩ | ⟨more, rfl, _⟩
    · exact solidOther solid rfl (List.cons.inj first).1.symm
    · have := solidCounted (List.mem_append_right U (List.mem_cons_self (l := more))) solid
      omega
  · rcases List.cons_eq_append_iff.mp rest with ⟨_, first⟩ | ⟨inner, rfl, behind⟩
    · exact solidOther solid rfl (List.cons.inj first).1
    · rcases List.append_eq_append_iff.mp behind with ⟨more, rfl, _⟩ | ⟨more, rfl, _⟩
      · have counted : (gistsOf (P ++ ⟨.leftParen, opened⟩ :: (Q ++ more) ++ w :: V)).length =
            (gistsOf P).length + ((gistsOf Q).length + (gistsOf more).length) + ((gistsOf V).length + 1) := by
          rw [gistsOfAppend, gistsOfAppend, gistsOfLight rfl, gistsOfSolid solid, gistsOfAppend]
          simp only [List.length_append, List.length_cons]
        omega
      · have before := balanced.sane P _ (List.append_assoc ..)
        have inside := ofQ.sane inner more rfl
        rw [depthAppend, depthCons] at level
        have one : rise Kind.leftParen = 1 := rfl
        rw [one] at level
        omega

theorem notAround (balanced : Balanced B) (begins : BeginsSolid C) {P : List Word}
    (same : Q ++ ⟨.rightParen, closed⟩ :: R = P ++ (B ++ C)) (ofQ : Balanced Q) (skip : (gistsOf P).length = 0)
    (some : 0 < (gistsOf B).length) : (gistsOf Q).length ≠ (gistsOf B).length := by
  intro size
  obtain ⟨w, back, rfl, solid⟩ := begins
  rcases List.append_eq_append_iff.mp same with ⟨more, rfl, _⟩ | ⟨inner, rfl, rest⟩
  · rw [gistsOfAppend, List.length_append] at skip
    omega
  · rw [gistsOfAppend, List.length_append] at size
    rcases List.append_eq_append_iff.mp rest with ⟨more, rfl, last⟩ | ⟨more, rfl, last⟩
    · rcases List.cons_eq_append_iff.mp last with ⟨_, first⟩ | ⟨more, rfl, _⟩
      · exact solidOther solid rfl (List.cons.inj first).1.symm
      · rw [gistsOfAppend, List.length_append, gistsOfSolid solid, List.length_cons] at size
        omega
    · rcases List.cons_eq_append_iff.mp last with ⟨_, first⟩ | ⟨more, rfl, _⟩
      · exact solidOther solid rfl (List.cons.inj first).1
      · have closes := balanced.sane (inner ++ [⟨.rightParen, closed⟩]) more (by simp)
        have inside := ofQ.back
        rw [depthAppend, depthCons, depthNil] at closes
        have down : rise Kind.rightParen = -1 := rfl
        rw [down] at closes
        omega

theorem neverPaired (tight : EndsSolid A ∨ BeginsSolid C) (balanced : Balanced B) (joins : Joins B) :
    ¬ Paired (A ++ (B ++ C)) (gistsOf A).length (gistsOf B).length := by
  rintro ⟨P, opened, Q, closed, R, same, ofQ, skip, size⟩
  have some : 0 < (gistsOf B).length := by
    obtain ⟨front, w, back, rfl, solid, _⟩ := joins
    exact solidCounted (List.mem_append_right front List.mem_cons_self) solid
  rcases List.append_eq_append_iff.mp same with ⟨inner, rfl, rest⟩ | ⟨outer, rfl, rest⟩
  · rw [gistsOfAppend, List.length_append] at skip
    exact notWithin balanced joins rest ofQ (by omega) size
  · rw [gistsOfAppend, List.length_append] at skip
    rcases List.cons_eq_append_iff.mp rest with ⟨rfl, first⟩ | ⟨outer, rfl, behind⟩
    · exact notWithin (P := []) balanced joins first ofQ rfl size
    · rw [gistsOfLight rfl] at skip
      refine notAround balanced (tight.resolve_left ?_) behind ofQ (by omega) some size
      rintro ⟨front, w, ends, solid⟩
      have last : w ∈ (⟨.leftParen, opened⟩ : Word) :: outer := by
        have whole : (P ++ ⟨.leftParen, opened⟩ :: outer).getLast? = Option.some w := by rw [ends]; simp
        rw [List.getLast?_append_cons] at whole
        exact List.mem_of_getLast? whole
      have := solidCounted last solid
      rw [gistsOfLight rfl] at this
      omega

end Pairs

theorem axiomTerminals {ps : List Piece} (flows : Flows .mark ps .word) (plain : IsInline ps) :
    (Reading.tokens ("axiom " ++ fragment ps ++ ";") []).terminals.map Token.word =
      Grammar.axiomWords "axiom".toList (wordsOf ps) ";".toList := by
  let whole : List Piece := .text "axiom " :: (ps ++ [.text ";"])
  have text : ("axiom " ++ fragment ps ++ ";").toList = chars whole := by simp [whole, fragmentToList]
  generalize "axiom " ++ fragment ps ++ ";" = source at text ⊢
  have calm : Calm true source.toList := by
    have lays : Lays True true whole false := .word (by simp [plain]) (by decide)
    have none := (lays []).mpr ⟨trivial, calmNil false⟩
    rwa [List.append_nil, ← text] at none
  have selected : Reading.selected source [] = ⟨source.toList, []⟩ := (selectUnchanged [] _).mpr calm
  have tokens : Reading.tokens source [] = scan source.toList := by rw [Reading.tokens, selected]
  have flows : Flows .free whole .word := .cons (.text "axiom ") (flows.enter.append (.text ";"))
  have same : words source.toList = wordsOf whole := by rw [text, flows.wordsAlone]
  have clean : (scan source.toList).faulty = [] := by
    refine cleanOfSound fun w mem invalid => ?_
    have sound := flows.sound w (same ▸ mem)
    rw [invalid] at sound
    exact absurd sound Bool.false_ne_true
  rw [tokens, terminalsOfClean clean, Token.scanWords, same]
  have first : (Piece.text "axiom ").words = [⟨.kwAxiom, "axiom".toList⟩] := by
    rw [textWords "axiom "]
    rfl
  have last : (Piece.text ";").words = [⟨.semicolon, ";".toList⟩] := by
    rw [textWords ";"]
    rfl
  rw [wordsOfCons, wordsOfAppend, first, wordsOfCons, last]
  rfl

theorem builtImpliesSpelled {text : List Char} : (Scope.built ⟨(scan text).terminals, True⟩).Implies spelled where
  name _ named := writtenOfNamed (named trivial)
  ty _ _ _ := trivial
  expr e built _ := by
    obtain ⟨shaped, _, read⟩ := built
    refine ⟨shaped, ?_⟩
    cases e with
    | literal span v =>
      obtain ⟨t, mem, _, value⟩ := read trivial
      exact wordedOfCut (Token.scanCut (List.mem_of_mem_filter mem)) value
    | _ => trivial
  attr a built content mem := by
    obtain ⟨t, inside, kind, rfl⟩ := built.2 _ mem
    exact quotableOfToken inside kind
  trigger _ _ := trivial
  cmd _ _ := trivial
  block _ _ := trivial
  tail _ _ := trivial
  stmtList _ _ := trivial
  decl _ _ := trivial

theorem notCovered {e : Expr} (pass : every spelled e) {c : Cut} (pair : c ∈ (Sketch.expr e).cuts) :
    ¬ Sketch.Covers (wordsIn c.loosened) (Sketch.expr e) := by
  intro covers
  have sound := Sketch.soundExpr pass
  have whole : c.whole = (Sketch.expr e).marks := (Sketch.expr e).fits c pair
  have honest (marks : List Mark) (part : marks ⊆ c.whole) : gistsOf (wordsIn marks) = marks.flatMap Mark.gists := by
    induction marks with
    | nil => rfl
    | cons m rest ih =>
      obtain ⟨here, others⟩ := List.cons_subset.mp part
      rw [wordsInCons, gistsOfAppend, sound.honest m (whole ▸ here), ih others, List.flatMap_cons]
  have before := honest c.before (List.subset_append_left _ _)
  have inside := honest c.inside fun m mem => by simp [Cut.whole, mem]
  have behind := honest c.behind fun m mem => by simp [Cut.whole, mem]
  have same : gistsOf (wordsIn c.loosened) = (Sketch.expr e).gists := by
    have opening : Mark.opening.gists = [] := rfl
    have closing : Mark.closing.gists = [] := rfl
    rw [Sketch.gists, ← whole]
    simp [Cut.loosened, Cut.whole, before, inside, behind, opening, closing]
  have paired := covers.pairs same c pair
  have told := sound.cuts c pair
  rw [Cut.skip, Cut.size, ← before, ← inside, Cut.loosened, wordsInAppend, wordsInAppend] at paired
  exact neverPaired told.tight told.balanced told.joins paired

end Layout

open Layout

/-- An expression of a program, wherever it stands in it: what holds of all of the program holds of it. -/
def Program.Holds (p : Program) (e : Expr) : Prop := ∀ c : Checks, every c p → every c e

namespace Program.Holds

variable {p : Program}

theorem condition {a : Axiom} (mem : .axiomatic a ∈ p.decls) : p.Holds a.condition := fun _ pass => (pass _ mem).2.1

theorem operand {e : Expr} {span : Span} {op : Operator} {args : List Expr} (held : p.Holds (.apply span op args))
    (mem : e ∈ args) : p.Holds e := fun c pass => (Expr.everyApply.mp (held c pass)).2.2 e mem

end Program.Holds

def Layout.textOf (marks : List Mark) : String := fragment (marks.map Mark.piece)

theorem textOfAppend (marks marks' : List Mark) : textOf (marks ++ marks') = textOf marks ++ textOf marks' := by
  refine String.toList_inj.mp ?_
  simp [textOf, fragmentToList]

theorem coversOfAxiom {file source : String} {q : Program} {e : Expr} {opening closing : List Char}
    {inner : List Word}
    (found : q ∈ (Reading.ofSource file source []).program) (same : bare q = bare ⟨[axiomOf e]⟩)
    (shaped : every wellFormed e) (words : (Reading.tokens source []).terminals.map Token.word =
      Grammar.axiomWords opening inner closing) : Sketch.Covers inner (Sketch.expr e) := by
  obtain ⟨a, one, attributes, condition⟩ := alikeAxiom (congrArg Program.decls same).symm
  have ofQ : every wellFormed q := Program.imp (Grammar.builtImpliesWellFormed _) q (builtOfAccepted found)
  have ofAxiom : every wellFormed (Decl.axiomatic a) := ofQ _ (one ▸ List.mem_singleton_self _)
  have covers := foundOfAccepted Grammar.coversProgram found _ one
  rw [words] at covers
  obtain ⟨_, _, inner', _, is, split, covers⟩ := covers rfl
  cases is
  have inside : inner = inner' := List.append_inj_left' (List.cons.inj split).2 rfl
  rwa [attributes, Sketch.attributes, Sketch.nothingAppend, Sketch.sketchOfAlike ofAxiom.2.1 shaped condition,
    ← inside] at covers

/-- Every pair of parentheses that is printed around an operand is needed. Without it the text of the expression is
not read as the expression, where it is read at all. -/
theorem everyParenthesisNeeded {file source : String} {defines : List String} {p : Program} {e : Expr} {c : Cut}
    (found : p ∈ (Reading.ofSource file source defines).program) (held : p.Holds e)
    (pair : c ∈ (Sketch.expr e).cuts) :
    e.text = textOf c.before ++ "(" ++ textOf c.inside ++ ")" ++ textOf c.behind ∧
      ∀ name, ∀ q ∈ (Reading.ofSource name
        ("axiom " ++ (textOf c.before ++ textOf c.inside ++ textOf c.behind) ++ ";") []).program,
          bare q ≠ bare ⟨[axiomOf e]⟩ := by
  have built := builtOfAccepted found
  have pass : every spelled e := held _ (Program.imp builtImpliesSpelled p built)
  have shaped : every wellFormed e := held _ (Program.imp (Grammar.builtImpliesWellFormed _) p built)
  have plain : IsInline (Layout.expr e) := inlineExpr (held _ (unbrokenOfAccepted found))
  have whole : c.whole.map Mark.piece = Layout.expr e := by
    rw [(Sketch.expr e).fits c pair]
    exact Sketch.piecesExpr shaped
  refine ⟨?_, fun name q read same => notCovered pass pair ?_⟩
  · have text : textOf c.whole = e.text := by rw [textOf, whole, Expr.text]
    have parts : c.whole = c.before ++ ([.opening] ++ (c.inside ++ ([.closing] ++ c.behind))) := rfl
    have opening : textOf [.opening] = "(" := rfl
    have closing : textOf [.closing] = ")" := rfl
    simp only [← text, parts, textOfAppend, opening, closing, String.append_assoc]
  · rw [← textOfAppend, ← textOfAppend, List.append_assoc] at read
    have flows := ((Sketch.soundExpr pass).cuts c pair).flows
    rw [← whole] at plain
    have inline : IsInline (c.loosened.map Mark.piece) := by
      simp only [Cut.whole, List.map_append, List.map_cons, inlineAppend, inlineCons] at plain
      simp only [Cut.loosened, List.map_append, inlineAppend]
      exact ⟨plain.1, plain.2.2.1, plain.2.2.2.2⟩
    exact coversOfAxiom read same shaped (axiomTerminals flows inline)

def isScaledSum (p : Program) : Bool :=
  match p.decls with
  | [.axiomatic ⟨.apply _ (.binary .equal) [.apply _ (.binary .multiply) [.apply _ (.binary .add)
      [.name _ "a", .name _ "b"], .name _ "c"], _], _, _⟩] => true
  | _ => false

theorem scaledSumKept : ∃ p ∈ (Reading.ofSource "" "axiom (a + b) * c == 0;" []).program,
    ∃ e, p.Holds e ∧ e.text = "(a + b) * c" ∧
      ∀ name, ∀ q ∈ (Reading.ofSource name "axiom a + b * c;" []).program, bare q ≠ bare ⟨[axiomOf e]⟩ := by
  have accepted : (Reading.ofSource "" "axiom (a + b) * c == 0;" []).program.any isScaledSum = true := by decide +kernel
  obtain ⟨p, found, is⟩ := (Option.any_eq_true _ _).mp accepted
  unfold isScaledSum at is
  split at is
  · rename_i decls
    have equation := Program.Holds.condition (decls ▸ List.mem_singleton_self _)
    have held := equation.operand List.mem_cons_self
    obtain ⟨text, kept⟩ := everyParenthesisNeeded found held List.mem_cons_self
    exact ⟨p, found, _, held, text, kept⟩
  · exact absurd is Bool.false_ne_true

end Boogie
