import Boogie.Proofs.Printed.Flows
import Boogie.Proofs.Printed.Same
import Mathlib.Algebra.BigOperators.Group.Multiset.Basic
import Mathlib.Algebra.Ring.Int.Defs
import Mathlib.Algebra.Ring.Nat

/-! Printed expressions in which the parentheses around operands are told from all others. A sketch has the pieces
that are printed, what their words are known by, and every pair of parentheses that stands around an operand. -/
namespace Boogie.Layout

open Token (Kind Spelling Word)

/-! Parentheses come and go, and what `<==` is written with is printed as `==>`; the other words stay, as far as they
are told apart here. -/

def isSolid : Kind → Bool
  | .leftParen | .rightParen | .explies => false
  | _ => true

inductive Gist where
  | brace
  | colon
  | nopats
  | other
  deriving DecidableEq, Repr

def nameGist (n : String) : Gist := if n = "nopats" then .nopats else .other

def gist (w : Word) : Gist :=
  match w.kind with
  | .leftBrace => .brace
  | .colon => .colon
  | .identifier => nameGist (Grammar.Reads.nameOf w.text)
  | _ => .other

def gistsOf (ws : List Word) : List Gist := (ws.filter fun w => isSolid w.kind).map gist

@[simp] theorem gistsOfNil : gistsOf [] = [] := rfl

@[simp] theorem gistsOfAppend (ws ws' : List Word) : gistsOf (ws ++ ws') = gistsOf ws ++ gistsOf ws' := by
  rw [gistsOf, List.filter_append, List.map_append, gistsOf, gistsOf]

theorem gistsOfSolid {w : Word} (solid : isSolid w.kind = true) (ws : List Word) : gistsOf (w :: ws) = gist w :: gistsOf ws := by
  simp [gistsOf, solid]

theorem gistsOfLight {w : Word} (light : isSolid w.kind = false) (ws : List Word) : gistsOf (w :: ws) = gistsOf ws := by
  simp [gistsOf, light]

structure Mark where
  piece : Piece
  gists : List Gist
  deriving DecidableEq

namespace Mark

def opening : Mark := ⟨.text "(", []⟩

def closing : Mark := ⟨.text ")", []⟩

end Mark

structure Cut where
  before : List Mark
  inside : List Mark
  behind : List Mark

namespace Cut

def whole (c : Cut) : List Mark := c.before ++ .opening :: (c.inside ++ .closing :: c.behind)

def loosened (c : Cut) : List Mark := c.before ++ (c.inside ++ c.behind)

def within (front back : List Mark) (c : Cut) : Cut := ⟨front ++ c.before, c.inside, c.behind ++ back⟩

variable (front back : List Mark) (c : Cut)

theorem wholeWithin : (c.within front back).whole = front ++ (c.whole ++ back) := by simp [whole, within]

theorem loosenedWithin : (c.within front back).loosened = front ++ (c.loosened ++ back) := by simp [loosened, within]

theorem withinNothing : within [] [] = id := funext fun c => by simp [within]

theorem withinWithin (front' back' : List Mark) :
    within front' back' ∘ within front back = within (front' ++ front) (back ++ back') :=
  funext fun c => by simp [within]

end Cut

structure Sketch where
  marks : List Mark
  cuts : List Cut
  fits : ∀ c ∈ cuts, c.whole = marks

namespace Sketch

@[ext] theorem ext {S T : Sketch} (marks : S.marks = T.marks) (cuts : S.cuts = T.cuts) : S = T := by
  cases S
  cases T
  congr

instance : Append Sketch where
  append S T :=
    { marks := S.marks ++ T.marks
      cuts := S.cuts.map (.within [] T.marks) ++ T.cuts.map (.within S.marks [])
      fits := by
        refine List.forall_mem_append.mpr ⟨List.forall_mem_map.mpr fun c mem => ?_, List.forall_mem_map.mpr fun c mem => ?_⟩
        · rw [Cut.wholeWithin, S.fits c mem, List.nil_append]
        · rw [Cut.wholeWithin, T.fits c mem, List.append_nil] }

variable {S T U : Sketch}

@[simp] theorem marksAppend : (S ++ T).marks = S.marks ++ T.marks := rfl

theorem cutsAppend : (S ++ T).cuts = S.cuts.map (.within [] T.marks) ++ T.cuts.map (.within S.marks []) := rfl

theorem appendAssoc : S ++ T ++ U = S ++ (T ++ U) := by
  refine ext (List.append_assoc ..) ?_
  simp [cutsAppend, Cut.withinWithin]

def plain (marks : List Mark) : Sketch := ⟨marks, [], nofun⟩

def nothing : Sketch := plain []

@[simp] theorem marksPlain (marks : List Mark) : (plain marks).marks = marks := rfl

@[simp] theorem marksNothing : nothing.marks = [] := rfl

theorem nothingAppend : nothing ++ S = S := ext rfl (by simp [cutsAppend, nothing, plain, Cut.withinNothing])

theorem appendNothing : S ++ nothing = S :=
  ext (List.append_nil _) (by simp [cutsAppend, nothing, plain, Cut.withinNothing])

def pieces (S : Sketch) : List Piece := S.marks.map Mark.piece

def gists (S : Sketch) : List Gist := S.marks.flatMap Mark.gists

@[simp] theorem piecesAppend : (S ++ T).pieces = S.pieces ++ T.pieces := List.map_append

@[simp] theorem gistsAppend : (S ++ T).gists = S.gists ++ T.gists := List.flatMap_append

@[simp] theorem piecesNothing : nothing.pieces = [] := rfl

@[simp] theorem gistsNothing : nothing.gists = [] := rfl

def fixed (s : String) [Terminals s] : Sketch :=
  plain [⟨.text s, gistsOf ((Spelling.kinds (Terminals.row s)).map Word.of)⟩]

def space : Sketch := plain [⟨.space, []⟩]

def spaceUnless (none : Bool) : Sketch := if none then nothing else space

def name (n : String) : Sketch := plain [⟨.text (Name.escape n), [nameGist n]⟩]

def row (parts : List Sketch) : Sketch := parts.foldr (· ++ ·) nothing

def joined (mark : Sketch) : List Sketch → Sketch
  | [] => nothing
  | S :: rest => S ++ row (rest.map (mark ++ ·))

theorem rowCons (S : Sketch) (rest : List Sketch) : row (S :: rest) = S ++ row rest := rfl

theorem rowAppend (parts parts' : List Sketch) : row (parts ++ parts') = row parts ++ row parts' := by
  induction parts with
  | nil => exact nothingAppend.symm
  | cons S rest ih => rw [List.cons_append, rowCons, rowCons, ih, appendAssoc]

section Joined

variable {mark : Sketch} {parts : List Sketch} (filled : parts ≠ [])
include filled

theorem joinedCons : joined mark (S :: parts) = S ++ (mark ++ joined mark parts) := by
  obtain ⟨T, rest, rfl⟩ := List.exists_cons_of_ne_nil filled
  rw [joined, List.map_cons, rowCons, appendAssoc, joined]

theorem joinedAppend (parts' : List Sketch) :
    joined mark (parts ++ parts') = joined mark parts ++ row (parts'.map (mark ++ ·)) := by
  obtain ⟨T, rest, rfl⟩ := List.exists_cons_of_ne_nil filled
  rw [List.cons_append, joined, List.map_append, rowAppend, joined, appendAssoc]

theorem rowMarked : row (parts.map (mark ++ ·)) = mark ++ joined mark parts := by
  obtain ⟨T, rest, rfl⟩ := List.exists_cons_of_ne_nil filled
  rw [List.map_cons, rowCons, appendAssoc, joined]

theorem gistsJoined (one : mark.gists.length = 1) :
    (joined mark parts).gists.length + 1 = (parts.map fun S => S.gists.length + 1).sum := by
  induction parts with
  | nil => exact absurd rfl filled
  | cons S rest ih =>
    by_cases last : rest = []
    · subst last
      simp [joined, row]
    · rw [joinedCons last, gistsAppend, gistsAppend, List.length_append, List.length_append, one, List.map_cons,
        List.sum_cons, ← ih last]
      omega

end Joined

def commas (parts : List Sketch) : Sketch := joined (fixed ", ") parts

def wrapped (S : Sketch) : Sketch := fixed "(" ++ (S ++ fixed ")")

def wrappedIf : Bool → Sketch → Sketch
  | true, S =>
    { marks := (wrapped S).marks
      cuts := ⟨[], S.marks, []⟩ :: (wrapped S).cuts
      fits := List.forall_mem_cons.mpr ⟨rfl, (wrapped S).fits⟩ }
  | false, S => S

theorem cutsWrapped (S : Sketch) : (wrapped S).cuts = S.cuts.map (.within [.opening] [.closing]) := by
  have inner : (S ++ fixed ")").cuts = S.cuts.map (.within [] [.closing]) := List.append_nil _
  have whole : (wrapped S).cuts = (S ++ fixed ")").cuts.map (.within [.opening] []) := rfl
  rw [whole, inner, List.map_map, Cut.withinWithin]
  rfl

theorem gistsWrapped (S : Sketch) : (wrapped S).gists = S.gists := by
  have opening : (fixed "(").gists = [] := rfl
  have closing : (fixed ")").gists = [] := rfl
  rw [wrapped, gistsAppend, gistsAppend, opening, closing, List.nil_append, List.append_nil]

theorem gistsWrappedIf (b : Bool) (S : Sketch) : (wrappedIf b S).gists = S.gists := by
  cases b with
  | true => exact gistsWrapped S
  | false => rfl

def names (ns : List Ident) : Sketch := commas (ns.map fun id => name id.name)

def typeParams (ps : List Ident) : Sketch := if ps.isEmpty then nothing else fixed "<" ++ (names ps ++ fixed ">")

mutual

def ty : Ty → Sketch
  | .basic _ b => fixed b.keyword
  | .bitVector _ width => plain [⟨.text ("bv" ++ toString width), [.other]⟩]
  | .param _ n => name n
  | .named _ n args => name n ++ tyArgs args
  | .map _ ps args result => typeParams ps ++ (fixed "[" ++ (commas (tys args) ++ (fixed "]" ++ ty result)))

def tys : List Ty → List Sketch
  | [] => []
  | t :: rest => ty t :: tys rest

def tyArgs : List Ty → Sketch
  | [] => nothing
  | t :: rest => space ++ ((if isCompound t then wrapped (ty t) else ty t) ++ tyArgs rest)

end

def infixed (op : BinaryOp) : Sketch := space ++ (fixed op.symbol ++ space)

def base (operand : Expr × Sketch) : Sketch := wrappedIf (precedence operand.1 < atomPrecedence) operand.2

def bounds (upper lower : Nat) : Sketch :=
  plain [⟨.text ("[" ++ toString upper ++ ":" ++ toString lower ++ "]"), [.other, .other, .colon, .other, .other]⟩]

def application (op : Operator) (operands : List (Expr × Sketch)) : Sketch :=
  match op, operands with
  | .binary op, [left, right] =>
    wrappedIf (wrapsLeft op left.1) left.2 ++ (infixed op ++ wrappedIf (wrapsRight op right.1) right.2)
  | .unary op, [operand] => fixed op.symbol ++ wrappedIf (precedence operand.1 < unaryPrecedence) operand.2
  | .concat, [left, right] =>
    wrappedIf (precedence left.1 < concatPrecedence) left.2 ++
      (fixed " ++ " ++ wrappedIf (precedence right.1 ≤ concatPrecedence) right.2)
  | .call function, args => name function ++ wrapped (commas (args.map Prod.snd))
  | .select _, map :: indexes => base map ++ (fixed "[" ++ (commas (indexes.map Prod.snd) ++ fixed "]"))
  | .store _, map :: next :: more =>
    let indexes := (next :: more).dropLast
    let value := (next :: more).getLast (by simp)
    base map ++ (fixed "[" ++ (commas (indexes.map Prod.snd) ++ (spaceUnless indexes.isEmpty ++
      (fixed ":= " ++ (value.2 ++ fixed "]")))))
  | .extract upper lower, [operand] => base operand ++ bounds upper lower
  | .ifThenElse, [condition, thenPart, elsePart] =>
    fixed "(if " ++ (condition.2 ++ (fixed " then " ++ (thenPart.2 ++ (fixed " else " ++ (elsePart.2 ++ fixed ")")))))
  | .convert target, [operand] => fixed target.keyword ++ wrapped operand.2
  | .coerce type, [operand] => wrapped (base operand ++ (fixed " : " ++ ty type))
  | _, _ => nothing

def callWords (isAsync isFree : Bool) : Sketch :=
  fixed ((if isAsync then "async " else "") ++ (if isFree then "free " else "") ++ "call ")

mutual

def expr : Expr → Sketch
  | .literal _ value => plain [⟨.text value.text, [.other]⟩]
  | .name _ n => name n
  | .old _ body => fixed "old" ++ wrapped (expr body)
  | .apply _ op args => application op (operands args)
  | .bind _ binder ps vars as ts body =>
    fixed ("(" ++ binder.keyword ++ " ") ++ (typeParams ps ++ (spaceUnless (ps.isEmpty || vars.isEmpty) ++
      (commas (boundVariables vars) ++ (fixed " :: " ++ (attributes as ++ (triggers ts ++ (expr body ++ fixed ")")))))))
  | .letIn _ vars values as body =>
    fixed "(var " ++ (commas (letVars vars) ++ (fixed " := " ++ (commas (exprs values) ++ (fixed "; " ++
      (attributes as ++ (expr body ++ fixed ")"))))))
  | .code _ locals bs => fixed "|\x7b " ++ (localDecls locals ++ (blocks bs ++ fixed "\x7d|"))

def exprs : List Expr → List Sketch
  | [] => []
  | e :: rest => expr e :: exprs rest

def operands : List Expr → List (Expr × Sketch)
  | [] => []
  | e :: rest => (e, expr e) :: operands rest

def attributeParam : AttributeParam → Sketch
  | .string content => plain [⟨.text ("\"" ++ content ++ "\""), [.other]⟩]
  | .expr e => expr e

def attributeParams : List AttributeParam → List Sketch
  | [] => []
  | p :: rest => attributeParam p :: attributeParams rest

def braced : Attribute → Sketch
  | ⟨key, ps, _⟩ =>
    fixed "\x7b:" ++ (name key ++ (spaceUnless ps.isEmpty ++ (commas (attributeParams ps) ++ fixed "\x7d")))

def attributes : List Attribute → Sketch
  | [] => nothing
  | a :: rest => braced a ++ (space ++ attributes rest)

def trigger : Trigger → Sketch
  | ⟨positive, es, _⟩ =>
    (if positive then fixed "\x7b" else plain [⟨.text "\x7b:nopats ", [.brace, .colon, .nopats]⟩]) ++
      (commas (exprs es) ++ fixed "\x7d")

def triggers : List Trigger → Sketch
  | [] => nothing
  | t :: rest => trigger t ++ (space ++ triggers rest)

def boundVariable : Variable → Sketch
  | ⟨n, type, _, as, _⟩ => attributes as ++ (name n ++ (fixed ": " ++ ty type))

def boundVariables : List Variable → List Sketch
  | [] => []
  | v :: rest => boundVariable v :: boundVariables rest

def variableDecl : Variable → Sketch
  | ⟨n, type, whereClause, as, _⟩ =>
    fixed "var " ++ (attributes as ++ (name n ++ (fixed ": " ++ (ty type ++ (optionalWhere whereClause ++ fixed ";")))))

def optionalWhere : Option Expr → Sketch
  | none => nothing
  | some e => fixed " where " ++ expr e

def localDecls : List Variable → Sketch
  | [] => nothing
  | v :: rest => variableDecl v ++ (space ++ localDecls rest)

def letVar : LetVar → Sketch
  | ⟨n, as, _⟩ => attributes as ++ name n

def letVars : List LetVar → List Sketch
  | [] => []
  | v :: rest => letVar v :: letVars rest

def target : Target → Sketch
  | .name id => name id.name
  | .element _ map indexes => target map ++ (fixed "[" ++ (commas (exprs indexes) ++ fixed "]"))

def targets : List Target → List Sketch
  | [] => []
  | t :: rest => target t :: targets rest

def callParams : Call → Sketch
  | ⟨_, _, callee, ins, outs, _, _⟩ =>
    (if outs.isEmpty then nothing else names outs ++ fixed " := ") ++ (name callee.name ++ wrapped (commas (exprs ins)))

def callList : List Call → List Sketch
  | [] => []
  | c :: rest => callParams c :: callList rest

def callAttributes : Call → Sketch
  | ⟨_, _, _, _, _, as, _⟩ => attributes as

def cmd : Cmd → Sketch
  | .assign _ ts values => commas (targets ts) ++ (fixed " := " ++ (commas (exprs values) ++ fixed ";"))
  | .assert _ as condition => fixed "assert " ++ (attributes as ++ (expr condition ++ fixed ";"))
  | .assume _ as condition => fixed "assume " ++ (attributes as ++ (expr condition ++ fixed ";"))
  | .havoc _ vars => fixed "havoc " ++ (names vars ++ fixed ";")
  | .call _ c => callWords c.isAsync c.isFree ++ (callAttributes c ++ (callParams c ++ fixed ";"))
  | .parallel _ calls as => fixed "par " ++ (attributes as ++ (joined (fixed " | ") (callList calls) ++ fixed ";"))
  | .yield _ => fixed "yield;"

def cmds : List Cmd → Sketch
  | [] => nothing
  | c :: rest => cmd c ++ (space ++ cmds rest)

def transfer : Transfer → Sketch
  | .goto _ labels => fixed "goto " ++ (names labels ++ fixed ";")
  | .leave _ => fixed "return;"
  | .leaveWith _ value => fixed "return " ++ (expr value ++ fixed ";")

def block : Block → Sketch
  | ⟨label, cs, t, _⟩ => name label ++ (fixed ": " ++ (cmds cs ++ transfer t))

def blocks : List Block → Sketch
  | [] => nothing
  | b :: rest => block b ++ (space ++ blocks rest)

end

end Sketch

end Boogie.Layout
