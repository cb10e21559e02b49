import Boogie.Layout.Decl
import Boogie.Proofs.Tree.WellFormed
import Mathlib.Data.List.Basic

/-! What each node is printed as. Lists of nodes are printed node by node, and an application as its operator
with the operands that it takes. -/
namespace Boogie.Layout

theorem exprsMap (es : List Expr) : exprs es = es.map expr := by
  induction es with
  | nil => rfl
  | cons e rest ih => rw [exprs, ih, List.map_cons]

theorem operandsMap (es : List Expr) : operands es = es.map fun e => (e, expr e) := by
  induction es with
  | nil => rfl
  | cons e rest ih => rw [operands, ih, List.map_cons]

theorem piecesOfOperands (es : List Expr) : piecesOf (operands es) = commaList (es.map expr) := by
  rw [piecesOf, operandsMap, List.map_map]
  rfl

theorem attributeParamsMap (ps : List AttributeParam) : attributeParams ps = ps.map attributeParam := by
  induction ps with
  | nil => rfl
  | cons p rest ih => rw [attributeParams, ih, List.map_cons]

theorem boundVariablesMap (vs : List Variable) : boundVariables vs = vs.map boundVariable := by
  induction vs with
  | nil => rfl
  | cons v rest ih => rw [boundVariables, ih, List.map_cons]

theorem letVarsMap (vs : List LetVar) : letVars vs = vs.map letVar := by
  induction vs with
  | nil => rfl
  | cons v rest ih => rw [letVars, ih, List.map_cons]

theorem targetsMap (ts : List Target) : targets ts = ts.map target := by
  induction ts with
  | nil => rfl
  | cons t rest ih => rw [targets, ih, List.map_cons]

theorem callListMap (cs : List Call) : callList cs = cs.map callParams := by
  induction cs with
  | nil => rfl
  | cons c rest ih => rw [callList, ih, List.map_cons]

theorem tysMap (ts : List Ty) : tys ts = ts.map ty := by
  induction ts with
  | nil => rfl
  | cons t rest ih => rw [tys, ih, List.map_cons]

def spaced {α : Type} (print : α → List Piece) (as : List α) : List Piece := as.flatMap fun a => print a ++ [Piece.space]

theorem spacedCons {α : Type} (print : α → List Piece) (a : α) (as : List α) :
    spaced print (a :: as) = print a ++ .space :: spaced print as := by
  rw [spaced, List.flatMap_cons, List.append_assoc]
  rfl

theorem attributesSpaced (as : List Attribute) : attributes as = spaced braced as := by
  induction as with
  | nil => rfl
  | cons a rest ih => rw [attributes, ih, spacedCons]

theorem triggersSpaced (ts : List Trigger) : triggers ts = spaced trigger ts := by
  induction ts with
  | nil => rfl
  | cons t rest ih => rw [triggers, ih, spacedCons]

theorem localDeclsSpaced (vs : List Variable) : localDecls vs = spaced variableDecl vs := by
  induction vs with
  | nil => rfl
  | cons v rest ih => rw [localDecls, ih, spacedCons]

theorem cmdsSpaced (cs : List Cmd) : cmds cs = spaced cmd cs := by
  induction cs with
  | nil => rfl
  | cons c rest ih => rw [cmds, ih, spacedCons]

theorem blocksSpaced (bs : List Block) : blocks bs = spaced block bs := by
  induction bs with
  | nil => rfl
  | cons b rest ih => rw [blocks, ih, spacedCons]

def tyArgument (t : Ty) : List Piece := .space :: wrappedIf (isCompound t) (ty t)

theorem tyArgsFlat (ts : List Ty) : tyArgs ts = ts.flatMap tyArgument := by
  induction ts with
  | nil => rfl
  | cons t rest ih => rw [tyArgs, ih, List.flatMap_cons]; rfl

theorem bigBlocksFlat (depth : Nat) (bs : List BigBlock) : bigBlocks depth bs = bs.flatMap (bigBlock depth) := by
  induction bs with
  | nil => rfl
  | cons b rest ih => rw [bigBlocks, ih, List.flatMap_cons]

inductive Applied : Operator → List Expr → Prop
  | binary (op left right) : Applied (.binary op) [left, right]
  | unary (op operand) : Applied (.unary op) [operand]
  | concat (left right) : Applied .concat [left, right]
  | call (function args) : Applied (.call function) args
  | select (map) (indexes : List Expr) : Applied (.select indexes.length) (map :: indexes)
  | store (map) (indexes : List Expr) (value) : Applied (.store indexes.length) (map :: (indexes ++ [value]))
  | ifThenElse (condition thenPart elsePart) : Applied .ifThenElse [condition, thenPart, elsePart]
  | convert (goal operand) : Applied (.convert goal) [operand]
  | coerce (type operand) : Applied (.coerce type) [operand]
  | extract (upper lower operand) : Applied (.extract upper lower) [operand]

theorem appliedOfFits {op : Operator} {args : List Expr} (fits : op.fits args.length) : Applied op args := by
  cases op with
  | call function => exact .call function args
  | binary op =>
    obtain ⟨left, right, rfl⟩ := List.length_eq_two.mp (fits 2 rfl)
    exact .binary op left right
  | concat =>
    obtain ⟨left, right, rfl⟩ := List.length_eq_two.mp (fits 2 rfl)
    exact .concat left right
  | unary op =>
    obtain ⟨operand, rfl⟩ := List.length_eq_one_iff.mp (fits 1 rfl)
    exact .unary op operand
  | convert goal =>
    obtain ⟨operand, rfl⟩ := List.length_eq_one_iff.mp (fits 1 rfl)
    exact .convert goal operand
  | coerce type =>
    obtain ⟨operand, rfl⟩ := List.length_eq_one_iff.mp (fits 1 rfl)
    exact .coerce type operand
  | extract upper lower =>
    obtain ⟨operand, rfl⟩ := List.length_eq_one_iff.mp (fits 1 rfl)
    exact .extract upper lower operand
  | ifThenElse =>
    obtain ⟨condition, thenPart, elsePart, rfl⟩ := List.length_eq_three.mp (fits 3 rfl)
    exact .ifThenElse condition thenPart elsePart
  | select n =>
    obtain ⟨map, indexes, rfl⟩ := List.exists_cons_of_length_eq_add_one (fits (n + 1) rfl)
    obtain rfl : indexes.length = n := Nat.succ.inj (fits (n + 1) rfl)
    exact .select map indexes
  | store n =>
    obtain ⟨map, more, rfl⟩ := List.exists_cons_of_length_eq_add_one (fits (n + 2) rfl)
    have count : more.length = n + 1 := Nat.succ.inj (fits (n + 2) rfl)
    have filled : more ≠ [] := List.ne_nil_of_length_eq_add_one count
    obtain rfl : more.dropLast.length = n := by rw [List.length_dropLast, count, Nat.add_sub_cancel]
    have whole := Applied.store map more.dropLast (more.getLast filled)
    rwa [List.dropLast_concat_getLast] at whole

section Applications

variable {span : Span}

theorem exprBinary (op : BinaryOp) (left right : Expr) :
    expr (.apply span (.binary op) [left, right]) = wrappedIf (wrapsLeft op left) (expr left) ++
      .space :: .text op.symbol :: .space :: wrappedIf (wrapsRight op right) (expr right) := rfl

theorem exprUnary (op : UnaryOp) (operand : Expr) :
    expr (.apply span (.unary op) [operand]) =
      .text op.symbol :: wrappedIf (precedence operand < unaryPrecedence) (expr operand) := rfl

theorem exprConcat (left right : Expr) :
    expr (.apply span .concat [left, right]) = wrappedIf (precedence left < concatPrecedence) (expr left) ++
      .text " ++ " :: wrappedIf (precedence right ≤ concatPrecedence) (expr right) := rfl

theorem exprCall (function : String) (args : List Expr) :
    expr (.apply span (.call function) args) = name function ++ wrapped (commaList (args.map expr)) := by
  rw [← piecesOfOperands]
  rfl

def based (map : Expr) : List Piece := wrappedIf (precedence map < atomPrecedence) (expr map)

theorem exprSelect {n : Nat} (map : Expr) (indexes : List Expr) :
    expr (.apply span (.select n) (map :: indexes)) =
      based map ++ .text "[" :: commaList (indexes.map expr) ++ [Piece.text "]"] := by
  rw [← piecesOfOperands]
  rfl

theorem exprStore {n : Nat} (map : Expr) (indexes : List Expr) (value : Expr) :
    expr (.apply span (.store n) (map :: (indexes ++ [value]))) =
      based map ++ .text "[" :: commaList (indexes.map expr) ++ (if indexes.isEmpty then [] else [Piece.space]) ++
        .text ":= " :: expr value ++ [Piece.text "]"] := by
  rw [expr, application, operandsMap, List.map_cons, List.map_append]
  cases indexes with
  | nil => rfl
  | cons first rest => simp [fitting, piecesOf, base, based, List.dropLast_cons_of_ne_nil, Function.comp_def]

theorem exprExtract (upper lower : Nat) (operand : Expr) :
    expr (.apply span (.extract upper lower) [operand]) =
      based operand ++ [Piece.text ("[" ++ toString upper ++ ":" ++ toString lower ++ "]")] := rfl

theorem exprIfThenElse (condition thenPart elsePart : Expr) :
    expr (.apply span .ifThenElse [condition, thenPart, elsePart]) = .text "(if " :: expr condition ++
      .text " then " :: expr thenPart ++ .text " else " :: expr elsePart ++ [Piece.text ")"] := rfl

theorem exprConvert (goal : Conversion) (operand : Expr) :
    expr (.apply span (.convert goal) [operand]) = .text goal.keyword :: wrapped (expr operand) := rfl

theorem exprCoerce (type : Ty) (operand : Expr) :
    expr (.apply span (.coerce type) [operand]) = wrapped (based operand ++ .text " : " :: ty type) := rfl

end Applications

end Boogie.Layout
