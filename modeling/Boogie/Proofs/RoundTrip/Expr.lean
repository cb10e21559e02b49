import Boogie.Proofs.Printed.Directives
import Boogie.Proofs.Reread.Program

/-! A well-formed expression, built in any way, is printed as a text that is read as the same expression where it is
the condition of an axiom. -/
namespace Boogie

open Token (scan words)
open Grammar (tyFixed exprFixed cmdFixed blockRead stmtListFixed declFixed declRead)
open Layout (printable unbroken stringless isWritten isQuotable wordsOf)

/-- Numbers are not negative, digits are no more than can be counted, and all of a literal is held by as many bits as
it may have. A string is one that may stand between quotation marks. -/
def isHeld : Literal → Prop
  | .int n => 0 ≤ n
  | .real d => 0 ≤ d.mantissa ∧ (toString d.mantissa).length < Text.wordCount 31 ∧ Text.fitsInteger 32 d.exponent = true
  | .float f => Layout.FloatLiteral.isHeld f
  | .bitVector value width => 0 ≤ value ∧ width < Text.wordCount 32
  | .string content => isQuotable content
  | .bool _ | .rounding _ => True

def literalHeld : Expr → Prop
  | .literal _ v => isHeld v
  | _ => True

theorem legibleOfHeld {v : Literal} (held : isHeld v) : Layout.IsLegible v := by
  cases v with
  | bool b => exact Layout.legibleBool b
  | int n =>
    obtain ⟨n, rfl⟩ := Int.eq_ofNat_of_zero_le held
    exact Layout.legibleInt n
  | real d =>
    obtain ⟨mantissa, exponent⟩ := d
    obtain ⟨natural, counted, fits⟩ := held
    obtain ⟨n, rfl⟩ := Int.eq_ofNat_of_zero_le natural
    rw [← String.length_toList, Layout.naturalDigits] at counted
    exact Layout.legibleDecimal fits counted
  | float f => exact Layout.legibleFloat held
  | bitVector value width =>
    obtain ⟨natural, less⟩ := held
    obtain ⟨value, rfl⟩ := Int.eq_ofNat_of_zero_le natural
    exact Layout.legibleBitVector value less
  | string content => exact Layout.legibleString held
  | rounding mode => exact Layout.legibleRounding mode

def writable : Checks where
  name := isWritten
  ty t := t.isShaped ∧ tyFixed t
  expr e := e.isShaped ∧ exprFixed e ∧ literalHeld e
  attr a := a.isShaped ∧ (∀ content, .string content ∈ a.params → isQuotable content) ∧
    ∀ e, .expr e ∈ a.params → every stringless e
  trigger t := t.isShaped ∧ (t.positive = false → ∀ e ∈ t.exprs, every stringless e)
  cmd c := c.isShaped ∧ cmdFixed c
  block b := b.isShaped ∧ blockRead b
  tail := Tail.isShaped
  stmtList l := l.isShaped ∧ stmtListFixed l
  decl d := d.isShaped ∧ declFixed d ∧ declRead d

theorem writableImpliesPrintable : writable.Implies printable where
  name _ written := written
  ty _ ok _ := ok
  expr e ok _ := by
    obtain ⟨shaped, fixed, held⟩ := ok
    refine ⟨shaped, fixed, ?_⟩
    cases e with
    | literal span v => exact legibleOfHeld held
    | _ => trivial
  attr _ ok := ⟨ok.1, ok.2.1, fun e mem => Layout.opensPlainly e (ok.2.2 e mem)⟩
  trigger _ ok := ⟨ok.1, fun negative e mem => Layout.opensPlainly e (ok.2 negative e mem)⟩
  cmd _ ok := ok
  block _ ok := ok
  tail _ ok := ok
  stmtList _ ok := ok
  decl _ ok := ok

theorem writableImpliesUnbroken : writable.Implies unbroken where
  name _ written := written
  ty _ _ _ := trivial
  expr e ok _ := by
    obtain ⟨shaped, _, held⟩ := ok
    refine ⟨shaped, ?_⟩
    unfold Layout.literalUnbroken
    split
    · exact Layout.quotablePlain held
    · trivial
  attr _ ok content mem := Layout.quotablePlain (ok.2.1 content mem)
  trigger _ _ := trivial
  cmd _ ok := ok.1
  block _ _ := trivial
  tail _ _ := trivial
  stmtList _ _ := trivial
  decl _ _ := trivial

theorem ofSourceCalm {file source : String} {p : Program} (calm : Calm true source.toList)
    (clean : (scan source.toList).faulty = [])
    (read : Reading.ofTokens (scan source.toList) source.toList (.empty file) = (p, .empty file)) :
    Reading.ofSource file source [] = ⟨some p, .empty file⟩ := by
  have selected : Reading.selected source [] = ⟨source.toList, []⟩ := (selectUnchanged [] _).mpr calm
  have tokens : Reading.tokens source [] = scan source.toList := by rw [Reading.tokens, selected]
  have log : Reading.lexicalLog file source [] = .empty file := by
    rw [Reading.lexicalLog, selected, Reading.logFaultsNone clean]
    rfl
  obtain ⟨program, logged⟩ : (Reading.parsed file source []).1 = p ∧
      (Reading.parsed file source []).2.log = .empty file := by
    rw [Reading.parsed, selected, tokens, log]
    exact Prod.mk.inj read
  have whole : Reading.ofSource file source [] =
      ⟨if (Reading.parsed file source []).2.log.hasErrors then none else some (Reading.parsed file source []).1,
        (Reading.parsed file source []).2.log⟩ := rfl
  rw [whole, logged, program]
  rfl

section Condition

variable {e : Expr}

def axiomOf (e : Expr) : Decl := .axiomatic ⟨e, [], .nowhere⟩

theorem axiomText (e : Expr) : ("axiom " ++ e.text ++ ";").toList = Layout.chars (Layout.declBody 0 (axiomOf e)) := by
  simp [axiomOf, Layout.declBody, Layout.axiomDecl, Layout.attributes, Expr.text, Layout.fragmentToList]

theorem alikeAxiom {ds : List Decl} (same : Grammar.Alike [axiomOf e] ds) :
    ∃ a, ds = [.axiomatic a] ∧ a.attributes = [] ∧ bare a.condition = bare e := by
  obtain ⟨d, rfl⟩ := List.length_eq_one_iff.mp same.lengthEq.symm
  cases d with
  | axiomatic a =>
    obtain ⟨condition, as, span⟩ := a
    have parts : bare e = bare condition ∧ as = [] := by simpa [axiomOf, Grammar.Alike, bare, respanList] using same
    exact ⟨_, rfl, parts.2, parts.1.symm⟩
  | _ => simp [axiomOf, Grammar.Alike, bare] at same

/-- The expression is read where it was put as the condition of an axiom, and nothing is reported. -/
theorem exprRoundTrips (pass : every writable e) (file : String) :
    (Reading.ofSource file ("axiom " ++ e.text ++ ";") []).diagnostics = [] ∧
      ∃ a, (Reading.ofSource file ("axiom " ++ e.text ++ ";") []).program = some ⟨[.axiomatic a]⟩ ∧
        a.attributes = [] ∧ bare a.condition = bare e := by
  have ofDecl {c : Checks} (imp : writable.Implies c) (here : c.decl (axiomOf e)) : every c (axiomOf e) :=
    ⟨here, Expr.both imp.together e pass pass, everyNil⟩
  have plain : every unbroken (axiomOf e) := ofDecl writableImpliesUnbroken trivial
  have spelled : every printable (axiomOf e) := ofDecl writableImpliesPrintable ⟨trivial, trivial, trivial⟩
  have text := axiomText e
  generalize "axiom " ++ e.text ++ ";" = source at text ⊢
  have calm : Calm true source.toList := by
    have lays := (Layout.laysDeclBody plain 0 []).mpr ⟨Layout.noneOpensNil, calmNil false⟩
    rwa [List.append_nil, ← text] at lays
  have flows := Layout.flowsDeclBody spelled 0
  have sameWords : words source.toList = [axiomOf e].flatMap fun d => wordsOf (Layout.decl d) := by
    rw [text, flows.wordsAlone]
    simp [Layout.decl]
  have each : every printable [axiomOf e] := List.forall_mem_singleton.mpr spelled
  have reads := Grammar.readsDecls each
  rw [← sameWords] at reads
  obtain ⟨clean, found, same, read⟩ := ofTokensRead (text ▸ flows.wordsAlone ▸ flows.sound) reads (.empty file)
  obtain ⟨a, decls, attributes, condition⟩ := alikeAxiom same
  rw [decls] at read
  rw [ofSourceCalm calm clean read]
  exact ⟨rfl, a, rfl, attributes, condition⟩

end Condition

/-- `(forall x: bv8 :: {:weight 3, "a b"} {:nopats x} (p || x) && \bv8 ==> |{ L: havoc p; return -1.5 == x[8:0]; }|)` -/
def mixedExpr : Expr :=
  let x : Expr := .name .nowhere "x"
  let choice : Expr := .apply .nowhere (.binary .or) [.name .nowhere "p", x]
  let left : Expr := .apply .nowhere (.binary .and) [choice, .name .nowhere "bv8"]
  let negative : Expr := .apply .nowhere (.unary .negate) [.literal .nowhere (.real ⟨15, -1⟩)]
  let value : Expr := .apply .nowhere (.binary .equal) [negative, .apply .nowhere (.extract 8 0) [x]]
  let right : Expr := .code .nowhere [] [⟨"L", [.havoc .nowhere [⟨"p", .nowhere⟩]], .leaveWith .nowhere value, .nowhere⟩]
  .bind .nowhere .forall_ [] [⟨"x", .bitVector .nowhere 8, none, [], .nowhere⟩]
    [⟨"weight", [.expr (.literal .nowhere (.int 3)), .string "a b"], .nowhere⟩] [⟨false, [x], .nowhere⟩]
    (.apply .nowhere (.binary .implies) [left, right])

theorem mixedExprRoundTrips : every writable mixedExpr ∧
    (Reading.ofSource "" ("axiom " ++ mixedExpr.text ++ ";") []).diagnostics = [] ∧
      ∃ a, (Reading.ofSource "" ("axiom " ++ mixedExpr.text ++ ";") []).program = some ⟨[.axiomatic a]⟩ ∧
        a.attributes = [] ∧ bare a.condition = bare mixedExpr := by
  have pass : every writable mixedExpr := by
    have written : isWritten "x" ∧ isWritten "p" ∧ isWritten "L" ∧ isWritten "bv8" ∧ isWritten "weight" := by
      unfold isWritten
      decide
    have quotable : isQuotable "a b" := by
      unfold isQuotable
      decide
    simp [mixedExpr, Operator.everyOther, writable, stringless, Layout.isString, Expr.isShaped, Operator.fits,
      Operator.arity, Ty.isShaped, Attribute.isShaped, Trigger.isShaped, Cmd.isShaped, Block.isShaped, Transfer.isShaped,
      exprFixed, tyFixed, cmdFixed, blockRead, literalHeld, isHeld, Text.fitsInteger, Text.wordCount, written, quotable]
    decide
  exact ⟨pass, exprRoundTrips pass ""⟩

end Boogie
