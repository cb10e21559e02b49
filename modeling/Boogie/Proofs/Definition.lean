import Boogie.Proofs.Extract.Program
import Boogie.Proofs.Text.Digits
import Boogie.Proofs.Tree.Free

/-! The axiom that defines a function binds a variable for each formal and equates the function, at these
variables, with the body. Formals without a name are bound under names made from their places, and such a
name is one that a source may use as well: the axiom means what was written just when none of them is. -/
namespace Boogie

namespace Function

def declared (f : Function) : List String := f.formals.filterMap Formal.name

def madeFor : Formal × Nat → Option String
  | (formal, place) => if formal.name.isNone then some ("_" ++ toString place) else none

def made (f : Function) : List String := f.formals.zipIdx.filterMap madeFor

def bound (f : Function) : List Variable := f.formals.zipIdx.map Grammar.boundFormal

def applied (f : Function) (span : Span) (vars : List Variable) : Expr :=
  .apply span (.coerce f.result.type) [.apply span (.call f.name) (vars.map fun v => .name v.span v.name)]

end Function

structure Binds (placed : Formal × Nat) (v : Variable) : Prop where
  name : v.name = placed.1.name.getD ("_" ++ toString placed.2)
  type : v.type = placed.1.type

/-- An axiom says that a function, at the variables that are bound, is equal to an expression. -/
inductive Equates (f : Function) (body : Expr) : List Variable → Axiom → Prop
  | bare {span} (none : f.params = []) :
    Equates f body [] ⟨.binary .equal (f.applied span []) body, f.attributes, span⟩
  | quantified {span vars} (some : vars ≠ [] ∨ f.params ≠ []) :
    Equates f body vars
      ⟨.bind span .forall_ f.params vars f.attributes [⟨true, [f.applied span vars], span⟩]
        (.binary .equal (f.applied span vars) body), [], span⟩

namespace Axiom

def opened (a : Axiom) : List Variable × Expr :=
  match a.condition with
  | .bind _ _ _ vars _ _ body => (vars, body)
  | e => ([], e)

def value (a : Axiom) : Option Expr := a.opened.2.asBinary.map fun (_, _, right) => right

end Axiom

theorem Equates.parts {f : Function} {body : Expr} {vars : List Variable} {a : Axiom} (h : Equates f body vars a) :
    a.opened.1 = vars ∧ a.value = some body := by
  cases h <;> exact ⟨rfl, rfl⟩

/-- The variables are told apart, and a name in the body that is not one of a formal keeps its meaning. -/
structure Hygienic (f : Function) (body : Expr) (vars : List Variable) (a : Axiom) : Prop where
  apart : (vars.map Variable.name).Nodup
  uncaptured : ∀ x ∈ body.free, x ∉ f.declared → x ∈ a.condition.free

/-! The names that are bound are the declared ones and the made ones. -/

theorem placeNameInjective : Function.Injective fun place : Nat => "_" ++ toString place := by
  intro i j same
  have digits : Nat.toDigits 10 i = Nat.toDigits 10 j := by
    have spelled := congrArg String.toList same
    simp only [String.toList_append, Text.toStringDigits] at spelled
    exact List.append_cancel_left spelled
  rw [← Text.decimalValueToDigits i, digits, Text.decimalValueToDigits]

theorem bindsBoundFormal (formals : List Formal) (start : Nat) :
    List.Forall₂ Binds (formals.zipIdx start) ((formals.zipIdx start).map Grammar.boundFormal) :=
  List.forall₂_map_right_iff.mpr (List.forall₂_same.mpr fun _ _ => ⟨rfl, rfl⟩)

theorem boundNames (formals : List Formal) (start : Nat) :
    ((formals.zipIdx start).map fun p => (Grammar.boundFormal p).name).Perm
      (formals.filterMap Formal.name ++ (formals.zipIdx start).filterMap Function.madeFor) := by
  induction formals generalizing start with
  | nil => exact .nil
  | cons formal rest ih =>
    have more := ih (start + 1)
    cases named : formal.name with
    | none =>
      simp only [List.zipIdx_cons, List.map_cons, List.filterMap_cons, named, Function.madeFor, Option.isNone_none,
        if_true, Grammar.boundFormal, Option.getD_none]
      exact (more.cons _).trans List.perm_middle.symm
    | some name =>
      simp only [List.zipIdx_cons, List.map_cons, List.filterMap_cons, named, Function.madeFor, Option.isNone_some,
        Bool.false_eq_true, if_false, Grammar.boundFormal, Option.getD_some, List.cons_append]
      exact more.cons _

namespace Function

theorem boundPerm (f : Function) : (f.bound.map Variable.name).Perm (f.declared ++ f.made) := by
  rw [bound, List.map_map]
  exact boundNames f.formals 0

theorem madeNodup (f : Function) : f.made.Nodup := by
  have places : (f.formals.zipIdx.map Prod.snd).Nodup := by
    rw [List.zipIdx_map_snd]
    exact List.nodup_range'
  refine List.Pairwise.filterMap _ ?_ (List.pairwise_map.mp places)
  rintro ⟨f, i⟩ ⟨g, j⟩ other _ ofF _ ofG same
  simp only [madeFor, Option.ite_none_right_eq_some, Option.some.injEq] at ofF ofG
  exact other (placeNameInjective (ofF.2.trans (same.trans ofG.2.symm)))

theorem boundNodup {f : Function} (distinct : f.declared.Nodup) :
    (f.bound.map Variable.name).Nodup ↔ ∀ x ∈ f.made, x ∉ f.declared := by
  rw [f.boundPerm.nodup_iff, List.nodup_append]
  refine ⟨fun ⟨_, _, apart⟩ x ofMade ofDeclared => apart x ofDeclared x ofMade rfl, fun apart => ?_⟩
  refine ⟨distinct, f.madeNodup, ?_⟩
  rintro x ofDeclared _ ofMade rfl
  exact apart x ofMade ofDeclared

end Function

theorem freeApplied (f : Function) (span : Span) (vars : List Variable) :
    (f.applied span vars).free = vars.map Variable.name := by
  have args : Expr.freeAll (vars.map fun v => Expr.name v.span v.name) = vars.map Variable.name := by
    induction vars with
    | nil => rfl
    | cons v rest ih => simpa [Expr.freeAll, Expr.free] using ih
  simp [Function.applied, Expr.free, Expr.freeAll, args]

theorem freeEquation (f : Function) (span : Span) (vars : List Variable) (body : Expr) :
    (Expr.binary .equal (f.applied span vars) body).free = vars.map Variable.name ++ body.free := by
  simp [Expr.binary, Expr.free, Expr.freeAll, freeApplied]

theorem Equates.freeIff {f : Function} {body : Expr} {vars : List Variable} {a : Axiom} (h : Equates f body vars a)
    {x : String} (mem : x ∈ body.free) : x ∈ a.condition.free ↔ x ∉ vars.map Variable.name := by
  cases h with
  | bare none => simp [freeEquation, mem]
  | quantified some =>
    rw [Expr.free, memUnbound, freeEquation]
    refine and_iff_right ?_
    exact List.mem_append_right _ (List.mem_append_right _ mem)

theorem Equates.hygienicIff {f : Function} {body : Expr} {a : Axiom} (h : Equates f body f.bound a)
    (distinct : f.declared.Nodup) :
    Hygienic f body f.bound a ↔ ∀ x ∈ f.made, x ∉ f.declared ∧ x ∉ body.free := by
  have binds (x : String) : x ∈ f.bound.map Variable.name ↔ x ∈ f.declared ∨ x ∈ f.made := by
    rw [f.boundPerm.mem_iff, List.mem_append]
  constructor
  · rintro ⟨apart, uncaptured⟩ x ofMade
    have other := (Function.boundNodup distinct).mp apart x ofMade
    refine ⟨other, fun used => ?_⟩
    exact (h.freeIff used).mp (uncaptured x used other) ((binds x).mpr (.inr ofMade))
  · intro fresh
    refine ⟨(Function.boundNodup distinct).mpr fun x ofMade => (fresh x ofMade).1, fun x used other => ?_⟩
    refine (h.freeIff used).mpr fun taken => ?_
    exact ((binds x).mp taken).elim other fun ofMade => (fresh x ofMade).2 used

theorem definitionEquates (f : Function) (body : Expr) : Equates f body f.bound (Grammar.definitionAxiom f body) := by
  rw [Grammar.definitionAxiom]
  split
  · rename_i none
    simp only [Bool.and_eq_true, List.isEmpty_iff] at none
    rw [Function.bound, none.1]
    exact .bare none.2
  · rename_i more
    refine .quantified ?_
    rw [← not_and_or]
    simpa [Function.bound] using more

namespace Grammar

open Token (Kind Word)

variable {n : Nat} {sort : Kind → Prop}

def FoundIn {α : Type} (m : Production α) (ws : List Word) (a : α) : Prop :=
  ∃ s : State, s.isClosed ∧ s.words = ws ++ (m.run s).2.words ∧ (m.run s).2.mistakes = s.mistakes ∧ (m.run s).1 = a

theorem Finds.foundIn {α : Type} {inside : Kind → Prop} {m : Production α} : Finds inside n sort (FoundIn m) m :=
  fun s closed _ _ _ clean =>
    have ⟨ws, words⟩ := (m.reaches s).wordsSuffix
    ⟨ws, words.symm, s, closed, words.symm, clean, rfl⟩

/-- The words end in a body: a semicolon where there is none, and an expression in braces otherwise. -/
inductive EndsInBody : List Word → Option Expr → Prop
  | none (head) {text} : EndsInBody (head ++ [⟨.semicolon, text⟩]) none
  | some (head) {opening inner closing body} (read : FoundIn expression inner body) :
    EndsInBody (head ++ ⟨.leftBrace, opening⟩ :: (inner ++ [⟨.rightBrace, closing⟩])) (some body)

theorem EndsInBody.behind (ws : List Word) {ws' : List Word} {body : Option Expr} (h : EndsInBody ws' body) :
    EndsInBody (ws ++ ws') body := by
  cases h with
  | none head =>
    rw [← List.append_assoc]
    exact .none (ws ++ head)
  | some head read =>
    rw [← List.append_assoc]
    exact .some (ws ++ head) read

theorem findsFunctionBody : Finds anywhere n sort EndsInBody functionBody := by
  refine Finds.mono (k := n + 1) ?_ (fun _ h => h) (Nat.le_succ n)
  refine .ifEats (by decide) (fun opening => ?_) ?_
  · refine .bind .foundIn fun inner body read => .expect (by decide) fun closing => .pure ?_
    exact .some [] read
  · exact .ifEats (by decide) (fun text => .pure (.none [])) (.fault (.syntaxError _))

theorem findsFunction : Finds anywhere n sort
    (fun ws decls => ∃ f body, f.body = none ∧ EndsInBody ws body ∧ decls = functionDecls f body) function := by
  have join (ws ws' : List Word) (decls : List Decl) :
      (∃ f body, f.body = none ∧ EndsInBody ws' body ∧ decls = functionDecls f body) →
        ∃ f body, f.body = none ∧ EndsInBody (ws ++ ws') body ∧ decls = functionDecls f body :=
    fun ⟨f, body, without, ends, same⟩ => ⟨f, body, without, ends.behind ws, same⟩
  refine .behind join fun start => .behind join fun found => .behind join fun name => .behind join fun params => ?_
  refine .behind join fun formals => .behind join fun result => .bind findsFunctionBody fun ws body ends => ?_
  refine .look fun last => .bind findsNamed fun ws' formals ⟨unread, _⟩ => .spanFrom fun span => .pure ?_
  subst unread
  exact ⟨_, body, rfl, by simpa using ends, rfl⟩

/-- A function whose text ends in a body in braces, and in which nothing is wrong, keeps that body if it is
inline. Otherwise an axiom comes behind it, which binds a variable for each formal in order and equates the
function at just these with the body; and it is hygienic if and only if no name made for a formal is the name
of another one or free in the body. -/
theorem definitionBindsFormals {s : State} {ws : List Word} {closing : List Char} (closed : s.isClosed)
    (clean : (function.run s).2.mistakes = s.mistakes)
    (defined : s.words = ws ++ ⟨.rightBrace, closing⟩ :: (function.run s).2.words) :
    ∃ f body, EndsInBody (ws ++ [⟨.rightBrace, closing⟩]) (some body) ∧ f.body = none ∧
      (Attribute.isSet f.attributes "inline" = true → (function.run s).1 = [.function { f with body := some body }]) ∧
      (Attribute.isSet f.attributes "inline" = false → ∃ vars a, (function.run s).1 = [.function f, .axiomatic a] ∧
        List.Forall₂ Binds f.formals.zipIdx vars ∧ Equates f body vars a ∧
        (f.declared.Nodup → (Hygienic f body vars a ↔ ∀ x ∈ f.made, x ∉ f.declared ∧ x ∉ body.free))) := by
  obtain ⟨read, words, f, body, without, ends, same⟩ :=
    @findsFunction _ anywhere s closed (fun _ _ => trivial) (Nat.lt_succ_self _) trivial clean
  have whole : ws ++ [⟨.rightBrace, closing⟩] = read := by
    rw [words, ← List.singleton_append, ← List.append_assoc] at defined
    exact (List.append_cancel_right defined).symm
  rw [← whole] at ends
  cases body with
  | none =>
    generalize last : ws ++ [(⟨.rightBrace, closing⟩ : Word)] = all at ends
    cases ends
    exact absurd (List.append_inj_right' last rfl) (by simp)
  | some body =>
    refine ⟨f, body, ends, without, fun inline => ?_, fun kept => ?_⟩
    · rw [same, functionDecls, if_pos inline]
    · refine ⟨f.bound, definitionAxiom f body, ?_, bindsBoundFormal f.formals 0, definitionEquates f body,
        fun distinct => (definitionEquates f body).hygienicIff distinct⟩
      rw [same, functionDecls, kept]
      rfl

def withAxiom : List Decl → Option (Function × Axiom)
  | [.function f, .axiomatic a] => some (f, a)
  | _ => none

theorem withAxiomSome {decls : List Decl} {f : Function} {a : Axiom} (h : withAxiom decls = some (f, a)) :
    decls = [.function f, .axiomatic a] := by
  unfold withAxiom at h
  split at h <;> cases h
  rfl

theorem definitionOfUnnamed :
    let text := "function f(x: int, int): int \x7b x \x7d".toList
    let s : State := .start (Token.scan text) text (.empty "")
    let ws := s.words.dropLast
    (s.isClosed ∧ (function.run s).2.mistakes = s.mistakes ∧
        s.words = ws ++ ⟨.rightBrace, ['\x7d']⟩ :: (function.run s).2.words) ∧
      ∃ f body vars a, (function.run s).1 = [.function f, .axiomatic a] ∧ f.declared = ["x"] ∧ f.made = ["_1"] ∧
        Equates f body vars a ∧ Hygienic f body vars a := by
  intro text s ws
  have closed : s.isClosed := rfl
  have clean : (function.run s).2.mistakes = s.mistakes := by decide +kernel
  have defined : s.words = ws ++ ⟨.rightBrace, ['\x7d']⟩ :: (function.run s).2.words := by decide +kernel
  have made : (withAxiom (function.run s).1).map (fun p => (p.1.declared, p.1.made, p.2.value.map Expr.free)) =
      some (["x"], ["_1"], some ["x"]) := by decide +kernel
  refine ⟨⟨closed, clean, defined⟩, ?_⟩
  obtain ⟨f, body, _, _, inline, kept⟩ := definitionBindsFormals closed clean defined
  cases isSet : Attribute.isSet f.attributes "inline" with
  | true =>
    rw [inline isSet] at made
    cases made
  | false =>
    obtain ⟨vars, a, same, _, equates, hygienic⟩ := kept isSet
    rw [same] at made
    simp only [withAxiom, Option.map_some, Option.some.injEq, Prod.mk.injEq, equates.parts.2] at made
    obtain ⟨declared, places, free⟩ := made
    refine ⟨f, body, vars, a, same, declared, places, equates, (hygienic ?_).mpr ?_⟩
    · simp [declared]
    · simp [declared, places, free]

def placeNamed : String := "function f(_1: int, int): int \x7b _1 \x7d"

/-- The axiom binds the name twice, and says nothing of the function at two arguments that differ. -/
theorem madeNameTaken : ∃ p ∈ (Reading.ofSource "" placeNamed []).program,
    ∃ f a, p.decls = [.function f, .axiomatic a] ∧ Attribute.isSet f.attributes "inline" = false ∧
      f.declared = ["_1"] ∧ f.made = ["_1"] ∧ a.opened.1.map Variable.name = ["_1", "_1"] ∧
      a.value.map Expr.free = some ["_1"] := by
  have taken : ((Reading.ofSource "" placeNamed []).program.any fun p => (withAxiom p.decls).any fun q =>
      Attribute.isSet q.1.attributes "inline" = false ∧ q.1.declared = ["_1"] ∧ q.1.made = ["_1"] ∧
        q.2.opened.1.map Variable.name = ["_1", "_1"] ∧ q.2.value.map Expr.free = some ["_1"]) = true := by
    decide +kernel
  obtain ⟨p, mem, found⟩ := (Option.any_eq_true _ _).mp taken
  obtain ⟨⟨f, a⟩, same, holds⟩ := (Option.any_eq_true _ _).mp found
  exact ⟨p, mem, f, a, withAxiomSome same, of_decide_eq_true holds⟩

end Grammar

end Boogie
