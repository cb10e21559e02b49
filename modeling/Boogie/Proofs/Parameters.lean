import Boogie.Proofs.Definition
import Boogie.Proofs.Derived.Ty

/-! What the formals of a function are called. A name in front of a colon is read as a type first and taken
back from it, so a name that denotes a bitvector type comes back with the width in its shortest form. It is
the name that is used in a body unless the width was written in a longer one. -/
namespace Boogie.Grammar

open Token (Kind Word)

inductive KeptAs (text : List Char) : String → Prop
  | width {width} (writes : WritesWidth text width) : KeptAs text ("bv" ++ toString width)
  | written (other : ∀ width, ¬WritesWidth text width) : KeptAs text (Reads.nameOf text)

/-- The name denotes a bitvector type, and its width has more digits than it needs. -/
def IsPadded (text : List Char) : Prop :=
  ∃ digits width, text = 'b' :: 'v' :: digits ∧ WritesWidth text width ∧ digits ≠ Nat.toDigits 10 width

/-- What the word stands for where a name is used: alone in an expression, and as the target of a command. -/
structure UsedAs (text : List Char) (name : String) : Prop where
  ident : ∀ rest, Reads [⟨.identifier, text⟩] rest (fun id => id.name = name) ident
  atom : ∀ nested rest, headKind rest ≠ .leftParen →
    Reads [⟨.identifier, text⟩] rest (fun e => ∃ span, e = .name span name) (atom nested)

inductive WritesFormal (incoming : Bool) : List Word → Formal → Prop
  | named {attrs found text name colon ws type span} (annotated : FoundIn (attributes expression) attrs found)
      (kept : KeptAs text name) (typed : IsType ws type) :
      WritesFormal incoming (attrs ++ ⟨.identifier, text⟩ :: ⟨.colon, colon⟩ :: ws)
        ⟨some name, type, none, incoming, found, span⟩
  | enclosed {attrs found opened ws first name colon ws' type span}
      (annotated : FoundIn (attributes expression) attrs found)
      (inner : IsType (⟨.leftParen, opened⟩ :: ws) first) (kept : first.bareName = some name)
      (typed : IsType ws' type) :
      WritesFormal incoming (attrs ++ ⟨.leftParen, opened⟩ :: (ws ++ ⟨.colon, colon⟩ :: ws'))
        ⟨some name, type, none, incoming, found, span⟩
  | unnamed {attrs found ws type span} (annotated : FoundIn (attributes expression) attrs found)
      (typed : IsType ws type) :
      WritesFormal incoming (attrs ++ ws) ⟨none, type, none, incoming, found, span⟩

inductive WritesFormals : List Word → List Formal → Prop
  | none : WritesFormals [] []
  | some {ws f ws' fs} (first : WritesFormal true ws f) (more : Finds.Items .comma (WritesFormal true) ws' fs) :
    WritesFormals (ws ++ ws') (f :: fs)

inductive WritesResult : List Word → Formal → Prop
  | formal {word opened ws f closed} (formal : WritesFormal false ws f) :
    WritesResult (⟨.kwReturns, word⟩ :: ⟨.leftParen, opened⟩ :: (ws ++ [⟨.rightParen, closed⟩])) f
  | type {colon ws type} (typed : IsType ws type) :
    WritesResult (⟨.colon, colon⟩ :: ws) ⟨none, type, none, false, [], type.span⟩

inductive Completes (f : Formal) : Formal → Prop
  | stays : Completes f f
  | takes {span name type} (unnamed : f.name = none) (single : f.type = .named span name []) :
    Completes f { f with name := some name, type }

structure WritesFunction (ws : List Word) (f : Function) (body : Option Expr) : Prop where
  parts : ∃ front opened formals written closed result rest,
    ws = front ++ ⟨.leftParen, opened⟩ :: (formals ++ ⟨.rightParen, closed⟩ :: (result ++ rest)) ∧
      WritesFormals formals written ∧ List.Forall₂ Completes written f.formals ∧ WritesResult result f.result ∧
      EndsInBody rest body

theorem KeptAs.unique {text : List Char} {name name' : String} (h : KeptAs text name) (h' : KeptAs text name') :
    name = name' := by
  cases h with
  | width writes =>
    cases h' with
    | width writes' => rw [writes.unique writes']
    | written other => exact absurd writes (other _)
  | written other =>
    cases h' with
    | width writes => exact absurd writes (other _)
    | written => rfl

theorem keptAsExists (text : List Char) : ∃ name, KeptAs text name := by
  by_cases some : ∃ width, WritesWidth text width
  · obtain ⟨width, writes⟩ := some
    exact ⟨_, .width writes⟩
  · exact ⟨_, .written fun width writes => some ⟨width, writes⟩⟩

theorem nameOfPlain {text : List Char} {width : Nat} (writes : WritesWidth text width) :
    Reads.nameOf text = String.ofList text := by
  simpa using (writesWidthIff.mp writes).1

theorem keptIff {text : List Char} {name : String} (h : KeptAs text name) :
    name = Reads.nameOf text ↔ ¬IsPadded text := by
  cases h with
  | written other =>
    refine iff_of_true rfl ?_
    rintro ⟨digits, width, _, writes, _⟩
    exact other width writes
  | @width width writes =>
    obtain ⟨digits, rfl, _⟩ := id writes
    have spelled : ("bv" ++ toString width).toList = 'b' :: 'v' :: Nat.toDigits 10 width := by
      rw [String.toList_append, Text.toStringDigits]
      rfl
    rw [nameOfPlain writes, ← String.toList_inj, spelled, String.toList_ofList]
    constructor
    · rintro same ⟨digits', width', ofText, writes', longer⟩
      cases ofText
      rw [writes'.unique writes] at longer
      exact longer (List.cons.inj (List.cons.inj same).2).2.symm
    · intro short
      by_contra other
      exact short ⟨digits, width, rfl, writes, fun same => other (by rw [same])⟩

theorem usedAsName (text : List Char) : UsedAs text (Reads.nameOf text) where
  ident rest := by
    have whole : Reads [⟨.identifier, text⟩] rest (fun id => id.name = Reads.nameOf text) (ident >>= pure) :=
      .ident fun span => .pure rfl
    rwa [bind_pure] at whole
  atom nested rest alone := .byKind rfl (.ident fun span => .eatNo alone (.pure ⟨span, rfl⟩))

theorem UsedAs.unique {text : List Char} {name name' : String} (h : UsedAs text name) (h' : UsedAs text name') :
    name = name' := by
  let s : State := .start ⟨[⟨.identifier, String.ofList text, .nowhere, ⟨0, 0⟩⟩], .sample .endOfText⟩ [] (.empty "")
  have words : s.words = [⟨.identifier, text⟩] ++ [] := by
    show [(⟨.identifier, (String.ofList text).toList⟩ : Word)] = _
    rw [String.toList_ofList, List.append_nil]
  exact (h.ident [] s rfl words).1.symm.trans (h'.ident [] s rfl words).1

theorem usedIff {text : List Char} {name : String} (h : KeptAs text name) : UsedAs text name ↔ ¬IsPadded text := by
  rw [← keptIff h]
  refine ⟨fun used => used.unique (usedAsName text), fun same => ?_⟩
  rw [same]
  exact usedAsName text

theorem bareNameBare (t : Ty) : (bare t).bareName = t.bareName := by
  cases t with
  | named span name args => cases args <;> simp [bare, Ty.bareName]
  | _ => simp [bare, Ty.bareName]

theorem DerivesType.bareName {ws : List Word} {t : Ty} {name : String} (h : DerivesType .type ws t)
    (kept : t.bareName = some name) :
    (∃ text, ws = [⟨.identifier, text⟩] ∧ KeptAs text name) ∨ ∃ opened ws', ws = ⟨.leftParen, opened⟩ :: ws' := by
  cases h with
  | name alone =>
    left
    cases alone with
    | width writes =>
      cases kept
      exact ⟨_, rfl, .width writes⟩
    | unresolved other =>
      cases kept
      exact ⟨_, rfl, .written other⟩
  | atom one =>
    cases one with
    | paren inner => exact .inr ⟨_, _, rfl⟩
    | _ => cases kept
  | applied args =>
    cases args <;> cases kept
  | map whole =>
    cases whole
    cases kept

section Found

variable {n : Nat} {sort : Kind → Prop}

theorem findsFormal {incoming : Bool} : Finds anywhere n sort (WritesFormal incoming) (functionFormal incoming) := by
  refine .bind .foundIn fun attrs found annotated => .look fun start => .bind findsType fun ws first typed => ?_
  refine .eat (by decide) (fun colon => ?_) (.spanFrom fun span => .pure ?_) (Nat.le_succ n)
  · refine .given (.broken _) fun some => .bind findsType fun ws' second typed' => .spanFrom fun span => .pure ?_
    obtain ⟨name, kept⟩ := Option.isSome_iff_exists.mp (Option.isNone_eq_false_iff.mp some)
    rcases DerivesType.bareName typed (by rwa [bareNameBare]) with ⟨text, rfl, ofText⟩ | ⟨opened, inner, rfl⟩
    · rw [kept]
      simpa using WritesFormal.named annotated ofText typed'
    · rw [kept]
      simpa using WritesFormal.enclosed annotated typed kept typed'
  · simpa using WritesFormal.unnamed annotated typed

theorem findsFormals : Finds anywhere n sort
    (fun ws fs => ∃ opened ws' closed, ws = ⟨.leftParen, opened⟩ :: (ws' ++ [⟨.rightParen, closed⟩]) ∧
      WritesFormals ws' fs) functionFormals := by
  have list : Finds anywhere n anywhere WritesFormals
      (ifNext (checkAny (typeStart.insert .leftBrace)) (commaSeparated (functionFormal true)) (pure [])) :=
    .ifNext (.bind findsFormal fun ws f first => .commute (.manyEats (by decide) findsFormal) fun ws' fs more =>
      .some first more) (.pure .none)
  refine .expect (by decide) fun opened => .bind list fun ws fs writes => ?_
  exact .expect (by decide) fun closed => .pure ⟨opened, ws, closed, rfl, writes⟩

theorem findsResult {formals : List Formal} : Finds anywhere n sort
    (fun ws result => ∃ f, result = some f ∧ WritesResult ws f) (functionResult formals) := by
  refine Finds.mono (k := n + 1) ?_ (fun _ h => h) (Nat.le_succ n)
  refine .ifEats (by decide) (fun word => ?_) ?_
  · refine .expect (by decide) fun opened => .bind findsFormal fun ws f formal => ?_
    exact .expect (by decide) fun closed => .pure ⟨f, rfl, .formal formal⟩
  · refine .ifEats (by decide) (fun colon => .bind findsType fun ws type typed => .pure ?_) ?_
    · exact ⟨_, rfl, by simpa using WritesResult.type typed⟩
    · exact .fault (resultMissingFaults formals)

theorem findsCompleted {next : Option Ty} {formals : List Formal} : Finds anywhere n sort
    (fun ws fs => ws = [] ∧ List.Forall₂ Completes formals fs) (namePositional next formals) := by
  induction formals generalizing next sort with
  | nil => exact .pure ⟨rfl, .nil⟩
  | cons f rest ih =>
    rw [namePositional]
    split
    · exact .commute ih fun ws fs found => ⟨found.1, .cons .stays found.2⟩
    · exact .fault (.brokenAt _ _)
    · rename_i name taken
      obtain ⟨unnamed, span, single⟩ : f.name = none ∧ ∃ span, f.type = .named span name [] := by
        unfold positional at taken
        split at taken <;> cases taken
        exact ⟨‹_›, _, ‹_›⟩
      split
      · exact .commute ih fun ws fs found => ⟨found.1, .cons (.takes unnamed single) found.2⟩
      · exact .fault (.brokenAt _ _)

theorem findsAllCompleted {formals : List Formal} : Finds anywhere n sort
    (fun ws fs => ws = [] ∧ List.Forall₂ Completes formals fs) (nameFormals formals) := by
  unfold nameFormals
  split
  · exact .pure ⟨rfl, List.forall₂_same.mpr fun _ _ => .stays⟩
  · refine .commute findsCompleted fun ws fs ⟨unread, all⟩ => ⟨unread, ?_⟩
    rw [← formals.reverse_reverse]
    exact List.rel_reverse all

theorem findsWrittenFunction : Finds anywhere n sort
    (fun ws decls => ∃ f body, WritesFunction ws f body ∧ decls = functionDecls f body) function := by
  have join (ws ws' : List Word) (decls : List Decl) :
      (∃ f body, WritesFunction ws' f body ∧ decls = functionDecls f body) →
        ∃ f body, WritesFunction (ws ++ ws') f body ∧ decls = functionDecls f body := by
    rintro ⟨f, body, ⟨front, opened, formals, written, closed, result, rest, rfl, whole⟩, same⟩
    refine ⟨f, body, ⟨ws ++ front, opened, formals, written, closed, result, rest, ?_, whole⟩, same⟩
    rw [List.append_assoc]
  refine .behind join fun start => .behind join fun found => .behind join fun name => .behind join fun params => ?_
  refine .bind findsFormals fun ws formals ⟨opened, ws', closed, here, writes⟩ => ?_
  refine .bind findsResult fun result f ⟨given, same, ofResult⟩ => ?_
  refine .bind findsFunctionBody fun rest body ends => .look fun last => ?_
  refine .bind findsAllCompleted fun none named ⟨unread, all⟩ => .spanFrom fun span => .pure ?_
  subst here same unread
  refine ⟨_, body, ⟨[], opened, ws', formals, closed, result, rest, ?_, writes, all, ofResult, ends⟩, rfl⟩
  simp

end Found

/-- In a function in which nothing is wrong, a name that a formal or the result is given in front of a colon is
kept, and it is the name that its uses have, unless it is that of a bitvector type with a padded width; then
it is not. -/
theorem parametersKeepNames {s : State} (closed : s.isClosed) (clean : (function.run s).2.mistakes = s.mistakes) :
    (∃ f body ws, s.words = ws ++ (function.run s).2.words ∧ WritesFunction ws f body ∧
      (function.run s).1 = functionDecls f body) ∧
    ∀ text, ∃ name, KeptAs text name ∧ (∀ other, KeptAs text other → other = name) ∧
      (UsedAs text name ↔ ¬IsPadded text) := by
  obtain ⟨ws, words, f, body, writes, same⟩ :=
    @findsWrittenFunction _ anywhere s closed (fun _ _ => trivial) (Nat.lt_succ_self _) trivial clean
  refine ⟨⟨f, body, ws, words, writes, same⟩, fun text => ?_⟩
  obtain ⟨name, kept⟩ := keptAsExists text
  exact ⟨name, kept, fun _ other => other.unique kept, usedIff kept⟩

def named : List Decl → List (Option String)
  | .function f :: _ => (f.formals ++ [f.result]).map Formal.name
  | _ => []

theorem namedFunctionDecls (f : Function) (body : Option Expr) :
    named (functionDecls f body) = (f.formals ++ [f.result]).map Formal.name := by
  unfold functionDecls
  split
  · rfl
  · split <;> rfl

theorem parametersOfEscaped :
    let text := "function f(\\bv08: int) returns (bv9: int) \x7b bv08 \x7d".toList
    let s : State := .start (Token.scan text) text (.empty "")
    (s.isClosed ∧ (function.run s).2.mistakes = s.mistakes) ∧
      ∃ f body ws, s.words = ws ++ (function.run s).2.words ∧ WritesFunction ws f body ∧
        (f.formals ++ [f.result]).map Formal.name = [some "bv08", some "bv9"] ∧
        UsedAs "\\bv08".toList "bv08" ∧ UsedAs "bv9".toList "bv9" := by
  intro text s
  have closed : s.isClosed := rfl
  have clean : (function.run s).2.mistakes = s.mistakes := by decide +kernel
  have names : named (function.run s).1 = [some "bv08", some "bv9"] := by decide +kernel
  obtain ⟨⟨f, body, ws, words, writes, same⟩, _⟩ := parametersKeepNames closed clean
  rw [same, namedFunctionDecls] at names
  have escaped : Reads.nameOf "\\bv08".toList = "bv08" := by decide +kernel
  have short : Reads.nameOf "bv9".toList = "bv9" := by decide +kernel
  refine ⟨⟨closed, clean⟩, f, body, ws, words, writes, names, ?_, ?_⟩
  · exact escaped ▸ usedAsName _
  · exact short ▸ usedAsName _

def paddedWidth : String := "function f(bv08: int): int \x7b bv08 \x7d"

/-- The formal has a name without the zero, and the name that the body uses is free in the axiom. -/
theorem paddedWidthRenamed : ∃ p ∈ (Reading.ofSource "" paddedWidth []).program,
    ∃ f a, p.decls = [.function f, .axiomatic a] ∧ f.declared = ["bv8"] ∧ a.opened.1.map Variable.name = ["bv8"] ∧
      a.value.map Expr.free = some ["bv08"] ∧ "bv08" ∈ a.condition.free := by
  have renamed : ((Reading.ofSource "" paddedWidth []).program.any fun p => (withAxiom p.decls).any fun q =>
      q.1.declared = ["bv8"] ∧ q.2.opened.1.map Variable.name = ["bv8"] ∧
        q.2.value.map Expr.free = some ["bv08"] ∧ "bv08" ∈ q.2.condition.free) = true := by
    decide +kernel
  obtain ⟨p, mem, found⟩ := (Option.any_eq_true _ _).mp renamed
  obtain ⟨⟨f, a⟩, same, holds⟩ := (Option.any_eq_true _ _).mp found
  exact ⟨p, mem, f, a, withAxiomSome same, of_decide_eq_true holds⟩

end Boogie.Grammar
