import Boogie.Layout.Decl
import Boogie.Proofs.Built.Decl
import Boogie.Reading

/-! Every program that tokens are read as is well formed, and so none is printed by description. -/
namespace Boogie

/-- The operands of every application fit its operator, so that they are printed with it. -/
def fitted : Checks where
  name _ := True
  ty _ := True
  expr
    | .apply _ op args => (Layout.fitting op (Layout.operands args)).isSome = true
    | _ => True
  attr _ := True
  trigger _ := True
  cmd _ := True
  block _ := True
  tail _ := True
  stmtList _ := True
  decl _ := True

theorem operandsLength (args : List Expr) : (Layout.operands args).length = args.length := by
  induction args with
  | nil => rfl
  | cons e rest ih => simp [Layout.operands, ih]

theorem fittingIsSome {op : Operator} {operands : List Layout.Operand} (h : op.fits operands.length) :
    (Layout.fitting op operands).isSome = true := by
  cases op with
  | call function => rfl
  | select n =>
    have count := h _ rfl
    match operands, count with
    | _ :: _, _ => rfl
  | store n =>
    have count := h _ rfl
    match operands, count with
    | _ :: _ :: _, _ => rfl
  | ifThenElse =>
    have count := h _ rfl
    match operands, count with
    | [_, _, _], _ => rfl
  | binary _ | concat =>
    have count := h _ rfl
    match operands, count with
    | [_, _], _ => rfl
  | unary _ | extract _ _ | convert _ | coerce _ =>
    have count := h _ rfl
    match operands, count with
    | [_], _ => rfl

theorem wellFormedImpliesFitted : wellFormed.Implies fitted where
  name _ _ := trivial
  ty _ _ _ := trivial
  expr e h _ := by
    cases e with
    | apply span op args => exact fittingIsSome (by rw [operandsLength]; exact h)
    | _ => trivial
  attr _ _ := trivial
  trigger _ _ := trivial
  cmd _ _ := trivial
  block _ _ := trivial
  tail _ _ := trivial
  stmtList _ _ := trivial
  decl _ _ := trivial

theorem wellFormedOfTokens {tokens : TokenList} (closed : tokens.finish.kind = .endOfText)
    (text : List Char) (log : Log) : (Reading.ofTokens tokens text log).1.IsWellFormed :=
  Program.imp (Grammar.builtImpliesWellFormed _) _
    (Grammar.programBuilt tokens text log closed False False.elim)

/-- The tokens of any text at all, with or without mistakes, are read as a well-formed program, all of
which is printed from its operators. -/
theorem scannedProgramWellFormed (source text : List Char) (log : Log) :
    (Reading.ofTokens (Token.scan source) text log).1.IsWellFormed ∧
      every fitted (Reading.ofTokens (Token.scan source) text log).1 := by
  have ok : (Reading.ofTokens (Token.scan source) text log).1.IsWellFormed :=
    wellFormedOfTokens rfl text log
  exact ⟨ok, Program.imp wellFormedImpliesFitted _ ok⟩

end Boogie
