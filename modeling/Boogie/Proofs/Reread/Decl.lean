import Boogie.Proofs.Recovery
import Boogie.Proofs.Reread.Stmt

/-! Printed declarations are read back: each as itself, but for the attributes of the formals of implementations,
which are not printed. -/
namespace Boogie

def Formal.withoutAttributes (f : Formal) : Formal := { f with attributes := [] }

def Decl.printed : Decl → Decl
  | .implementation i =>
    .implementation { i with ins := i.ins.map Formal.withoutAttributes, outs := i.outs.map Formal.withoutAttributes }
  | d => d

def Program.printed (p : Program) : Program := ⟨p.decls.map Decl.printed⟩

namespace Grammar

open Token (Kind Word Spelling)
open Layout (Piece wordsOf commaList textWords Terminals printable isWritten nameWord nameWords)

section Constants

variable {rest : List Word}

theorem uniqueWords (unique : Bool) :
    (Piece.text (if unique then "unique " else "")).words = flag .kwUnique unique := by
  rw [textWords]
  cases unique <;> rfl

theorem wordsParent {p : Parent} (named : isWritten p.ident.name) :
    wordsOf (Layout.parent p) = flag .kwUnique p.unique ++ [nameWord p.ident.name] := by
  simp [Layout.parent, uniqueWords, nameWords named]

theorem readsParent {p : Parent} (named : isWritten p.ident.name) (rest : List Word) :
    Reads (wordsOf (Layout.parent p)) rest (Alike p) parent := by
  rw [wordsParent named]
  refine readsFlag (ne_of_beq_false rfl) (readsNamed named fun span => .pure ?_)
  obtain ⟨⟨n, place⟩, unique⟩ := p
  simp [Alike, bare]

def parentStart : Token.KindSet := .ofList [.identifier, .kwUnique]

theorem parentOpens {p : Parent} (named : isWritten p.ident.name) :
    ∃ w more, wordsOf (Layout.parent p) = w :: more ∧ parentStart.contains w.kind = true := by
  rw [wordsParent named]
  cases p.unique
  · exact ⟨_, _, rfl, (by decide : parentStart.contains .identifier = true)⟩
  · exact ⟨_, _, rfl, (by decide : parentStart.contains .kwUnique = true)⟩

theorem readsParents {ps : List Parent} (pass : every printable ps) (ends : parentStart.contains (headKind rest) = false)
    (stops : headKind rest ≠ .comma) :
    Reads (wordsOf (commaList (ps.map Layout.parent))) rest (Alike ps) parents := by
  cases ps with
  | nil => exact .ifNo ends (.pure .nil)
  | cons p ps =>
    have each (q : Parent) (mem : q ∈ p :: ps) :
        ReadsBack (fun q => wordsOf (Layout.parent q)) (fun _ => True) Alike parent q := fun rest _ => readsParent (pass q mem) rest
    have list : Reads (wordsOf (commaList ((p :: ps).map Layout.parent))) rest (List.Forall₂ Alike (p :: ps))
        (commaSeparated parent) := readsComma (List.cons_ne_nil p ps) each trivial stops trivial
    exact .ifYes (commaStarts (parentOpens (pass p List.mem_cons_self)) _ _) (list.weaken fun _ => alikeOfForall)

def extensionWords (parents : Option (List Parent)) (complete : Bool) : List Word :=
  parents.elim [] fun ps => Word.of .kwExtends :: (wordsOf (commaList (ps.map Layout.parent)) ++ flag .kwComplete complete)

theorem wordsExtension (ps : List Parent) (complete : Bool) :
    wordsOf (Layout.extension ps complete) = extensionWords (some ps) complete := by
  cases ps <;> cases complete <;>
    simp [Layout.extension, extensionWords, flag, textWords, Terminals.row, Spelling.kinds]

theorem readsExtension {parents : Option (List Parent)} {complete : Bool} (pass : every printable parents)
    (fixed : parents = none → complete = false) :
    Reads (extensionWords parents complete) (Word.of .semicolon :: rest) (Alike (parents, complete)) extension := by
  cases parents with
  | none =>
    obtain rfl := fixed rfl
    exact .eatNo (ne_of_beq_false rfl) (.pure rfl)
  | some ps =>
    have behind : headKind (flag .kwComplete complete ++ Word.of .semicolon :: rest) = .kwComplete ∨
        headKind (flag .kwComplete complete ++ Word.of .semicolon :: rest) = .semicolon := by cases complete <;> simp [flag, Word.of]
    refine .eatYes rfl (.bind (readsParents (pass ps rfl) ?_ ?_) fun ps' same => ?_)
    · rcases behind with kind | kind <;> rw [kind] <;> decide
    · rcases behind with kind | kind <;> rw [kind] <;> decide
    · have last : Reads (flag .kwComplete complete ++ []) (Word.of .semicolon :: rest) (Alike (some ps, complete)) (do
          return (some ps', ← eat .kwComplete)) := readsFlag (ne_of_beq_false rfl) (.pure (Prod.ext (congrArg some same) rfl))
      rwa [List.append_nil] at last

theorem readsConstant {c : Constant} (fixed : c.parents = none → c.complete = false) (pass : every printable c) :
    Reads (wordsOf (Layout.constant c)) rest (Alike [Decl.constant c]) constants := by
  obtain ⟨n, type, unique, parents, complete, as, span⟩ := c
  obtain ⟨named, ofType, ofParents, ofAs⟩ := pass
  have words : wordsOf (Layout.constant ⟨n, type, unique, parents, complete, as, span⟩) = Word.of .kwConst ::
      (wordsOf (Layout.attributes as) ++ (flag .kwUnique unique ++ (nameWord n :: Word.of .colon ::
        (wordsOf (Layout.ty type) ++ (extensionWords parents complete ++ [Word.of .semicolon]))))) := by
    cases parents <;>
      simp [Layout.constant, ↓uniqueWords, nameWords named, wordsExtension, textWords, Terminals.row, Spelling.kinds,
        extensionWords]
  rw [words]
  refine .advance fun t _ => .bind (readsAttributes (rereadAttributes ofAs) ?_) fun as' sameAs => ?_
  · rw [List.append_assoc, headKindFlag]
    split <;> exact ne_of_beq_false rfl
  refine readsFlag (ne_of_beq_false rfl) ?_
  refine readsOneName named span (ne_of_beq_false rfl) fun names sameNames => .expect rfl ?_
  refine .bind (readsTy type ofType _ ?_) fun type' sameType => ?_
  · cases parents with
    | none => exact (by decide : endsType .semicolon)
    | some ps => exact (by decide : endsType .kwExtends)
  refine .bind (readsExtension ofParents fixed) ?_
  rintro ⟨parents', complete'⟩ same
  obtain ⟨sameParents, sameComplete⟩ := same.pair
  refine .expectLast rfl (.pure ?_)
  have each (id id' : Ident) (ofId : Alike id id') : Alike (Decl.constant ⟨id.name, type, unique, parents, complete, as, id.span⟩)
      (.constant ⟨id'.name, type', unique, parents', complete', as', id'.span⟩) := by
    simp_all [Alike, bare, ofId.nameEq]
  exact Alike.map each sameNames

end Constants

section Types

variable {rest : List Word}

def placeWord (i : Nat) : Word := ⟨.identifier, ("_" ++ toString i).toList⟩

theorem wordsPlace (i : Nat) : (Piece.text (" _" ++ toString i)).words = [placeWord i] := by
  have plain := Layout.plainWords (Layout.writtenPlace i) (Layout.plainPlace i)
  have flows : Layout.Flows .word [.space, .text ("_" ++ toString i)] .word :=
    .cons Layout.flowsSpace (Layout.flowsPlain (Layout.writtenPlace i) (Layout.plainPlace i)).enter
  have same : (Piece.text (" _" ++ toString i)).chars = Layout.chars [.space, .text ("_" ++ toString i)] := by
    simp [Piece.chars, Piece.string]
  rw [Layout.Flows.wordsJoined same flows, Layout.wordsOfCons, Layout.spaceWords, Layout.wordsOfCons, plain]
  rfl

theorem wordsPlaces (is : List Nat) :
    wordsOf (is.map fun i => .text (" _" ++ i.repr)) = is.flatMap fun i => [placeWord i] := by
  induction is with
  | nil => rfl
  | cons i is ih => rw [List.map_cons, Layout.wordsOfCons, ih, List.flatMap_cons, ← wordsPlace]; rfl

theorem Progresses.atIdent : Progresses (fun k => (k == .identifier) = true) Grammar.ident :=
  Progresses.ident.mono fun _ name => beq_iff_eq.mp name

theorem readsTypeDecls {as : List Attribute} {words : List Word} {d : Decl} (ofAs : every printable as)
    (named : words.head?.map Word.kind = some .identifier)
    (reads : ∀ as', Alike as as' → Reads words (Word.of .semicolon :: rest) (Alike d) (typeDecl as')) :
    Reads (Word.of .kwType :: (wordsOf (Layout.attributes as) ++ (words ++ [Word.of .semicolon]))) rest (Alike [d])
      typeDecls := by
  obtain ⟨w, more, rfl⟩ : ∃ w more, words = w :: more := List.exists_cons_of_ne_nil (by rintro rfl; contradiction)
  have name : w.kind = .identifier := by simpa using named
  refine .advance fun t _ => .bind (readsAttributes (rereadAttributes ofAs) ?_) fun as' sameAs => ?_
  · rw [List.append_assoc, List.cons_append, headKindCons, name]
    exact ne_of_beq_false rfl
  refine .bind (.one (reads as' sameAs) (ne_of_beq_false rfl)) ?_
  rintro _ ⟨d', _, rfl, same, rfl⟩
  exact .expectLast rfl (.pure (.cons same .nil))

theorem readsTypeConstructor {t : TypeConstructor} (pass : every printable t) :
    Reads (wordsOf (Layout.typeConstructor t)) rest (Alike [Decl.typeConstructor t]) typeDecls := by
  obtain ⟨n, arity, as, span⟩ := t
  obtain ⟨named, ofAs⟩ := pass
  have words : wordsOf (Layout.typeConstructor ⟨n, arity, as, span⟩) = Word.of .kwType ::
      (wordsOf (Layout.attributes as) ++ ((nameWord n :: (List.range arity).flatMap fun i => [placeWord i]) ++ [Word.of .semicolon])) := by
    simp [Layout.typeConstructor, nameWords named, wordsPlaces, textWords, Terminals.row, Spelling.kinds]
  have each (i : Nat) (_ : i ∈ List.range arity) :
      ReadsBack (fun i => [placeWord i]) (fun _ => True) (fun _ _ => True) ident i :=
    fun rest _ => .identWritten fun _ => .pure trivial
  have places : Reads ((List.range arity).flatMap fun i => [placeWord i]) (Word.of .semicolon :: rest)
      (List.Forall₂ (fun _ _ => True) (List.range arity)) (many (check .identifier) ident) :=
    readsMany .atIdent each (fun i _ => ⟨_, _, rfl, rfl, trivial⟩) rfl trivial
  rw [words]
  refine readsTypeDecls ofAs rfl fun as' sameAs => readsNamed named fun place => .last places fun ids all => ?_
  have count : ids.length = arity := by rw [← all.length_eq, List.length_range]
  refine .eatNo (ne_of_beq_false rfl) (.spanFrom fun span' => .pure ?_)
  simp_all [Alike, bare]

theorem readsTypeSynonym {t : TypeSynonym} (pass : every printable t) :
    Reads (wordsOf (Layout.typeSynonym t)) rest (Alike [Decl.typeSynonym t]) typeDecls := by
  obtain ⟨n, params, body, as, span⟩ := t
  obtain ⟨named, ofParams, ofBody, ofAs⟩ := pass
  have words : wordsOf (Layout.typeSynonym ⟨n, params, body, as, span⟩) = Word.of .kwType :: (wordsOf (Layout.attributes as) ++
      ((nameWord n :: ((params.flatMap fun id => wordsOf (Layout.name id.name)) ++
        Word.of .equals :: wordsOf (Layout.ty body))) ++ [Word.of .semicolon])) := by
    simp [Layout.typeSynonym, nameWords named, wordsFlat, textWords, Terminals.row, Spelling.kinds]
  have names (rest : List Word) : Reads (params.flatMap fun id => wordsOf (Layout.name id.name)) (Word.of .equals :: rest)
      (List.Forall₂ Alike params) (many (check .identifier) ident) := by
    have each (id : Ident) (mem : id ∈ params) :
        ReadsBack (fun id : Ident => wordsOf (Layout.name id.name)) (fun _ => True) Alike ident id :=
      fun rest _ => readsIdent (ofParams id mem) rest
    exact readsMany .atIdent each (fun id mem => ⟨_, _, nameWords (ofParams id mem), rfl, trivial⟩) rfl trivial
  rw [words]
  refine readsTypeDecls ofAs rfl fun as' sameAs => readsNamed named fun place => .bind (names _) fun params' all => ?_
  have sameParams := alikeOfForall all
  refine .eatYes rfl (.last (readsTy body ofBody _ (by decide : endsType .semicolon)) fun body' sameBody => ?_)
  refine .spanFrom fun span' => .pure ?_
  simp_all [Alike, bare]

end Types

section Others

variable {rest : List Word}

theorem readsAxiomDecl {a : Axiom} (pass : every printable a) :
    Reads (wordsOf (Layout.axiomDecl a)) rest (Alike [Decl.axiomatic a]) axiomDecl := by
  obtain ⟨condition, as, span⟩ := a
  have words : wordsOf (Layout.axiomDecl ⟨condition, as, span⟩) = Word.of .kwAxiom ::
      (wordsOf (Layout.attributes as) ++ (wordsOf (Layout.expr condition) ++ [Word.of .semicolon])) := by
    simp [Layout.axiomDecl, textWords, Terminals.row, Spelling.kinds]
  rw [words]
  refine .advance fun t _ => readsCondition pass.1 pass.2 fun as' e' sameAs sameE => .spanFrom fun span' => .pure ?_
  simp_all [Alike, bare]

theorem readsGlobal {v : Variable} (pass : every printable v) :
    Reads (wordsOf (Layout.variableDecl v)) rest (Alike [Decl.global v]) globals := by
  refine .last ((rereadingFollows.ofVariable v pass).declared .globalVariables rfl rest trivial) fun vs same => .pure ?_
  have each (v v' : Variable) (one : Alike v v') : Alike (Decl.global v) (Decl.global v') := by simpa [Alike, bare] using one
  exact Alike.map each same

end Others

section Functions

variable {rest : List Word}

def nameFront (n : Option String) : List Word := n.elim [] fun n => [nameWord n, Word.of .colon]

theorem wordsTyped {n : Option String} (named : every printable n) (type : Ty) :
    wordsOf (Layout.typed n type) = nameFront n ++ wordsOf (Layout.ty type) := by
  cases n with
  | none => rfl
  | some n => simp [Layout.typed, nameFront, nameWords (named n rfl), textWords, Terminals.row, Spelling.kinds]

theorem readsNameAsType {β : Type} {n : String} (named : isWritten n) (span : Span) {f : Ty → Production β}
    {ws : List Word} {W : β → Prop} (colon : headKind (ws ++ rest) = .colon)
    (next : ∀ t, Alike (.named span n []) t → Reads ws rest W (f t)) : Reads (nameWord n :: ws) rest W (type >>= f) := by
  have pass : Ty.passes printable (.named span n []) := ⟨⟨trivial, trivial⟩, named, trivial⟩
  have words : wordsOf (Layout.ty (.named span n [])) = [nameWord n] := wordsNamed named []
  have first : Reads [nameWord n] (ws ++ rest) (Alike (.named span n [])) type := by
    rw [← words]
    exact readsTy _ pass _ (by rw [colon]; decide)
  exact .bind first next

theorem readsFunctionFormal {f : Formal} (pass : every printable f) (plain : f.whereClause = none)
    (ends : endsType (headKind rest)) (noColon : headKind rest ≠ .colon) :
    Reads (wordsOf (Layout.functionFormal f)) rest (Alike f) (functionFormal f.incoming) := by
  obtain ⟨n, type, whereClause, incoming, as, span⟩ := f
  obtain ⟨ofName, ofType, -, ofAs⟩ := pass
  obtain rfl : whereClause = none := plain
  have words : wordsOf (Layout.functionFormal ⟨n, type, none, incoming, as, span⟩) =
      wordsOf (Layout.attributes as) ++ (nameFront n ++ wordsOf (Layout.ty type)) := by
    rw [Layout.functionFormal, Layout.wordsOfAppend, wordsTyped ofName]
  rw [words]
  cases n with
  | none =>
    obtain ⟨w, more, opens, starts⟩ := tyStarts ofType
    refine .bind (readsAttributes (rereadAttributes ofAs) ?_) fun as' sameAs => ?_
    · rw [nameFront, Option.elim_none, List.nil_append, opens]
      rintro brace
      rw [show w.kind = .leftBrace from brace] at starts
      exact absurd starts (by decide)
    refine .look fun start => .last (readsTy type ofType _ ends) fun type' sameType => ?_
    refine .eatNo noColon (.spanFrom fun span' => .pure ?_)
    simp_all [Alike, bare]
  | some n =>
    refine .bind (readsAttributes (rereadAttributes ofAs) (ne_of_beq_false rfl)) fun as' sameAs => .look fun start => ?_
    refine readsNameAsType (ofName n rfl) span rfl fun first same => ?_
    have found : first.bareName = some n := (SameType.ofAlike same).bareNameEq.symm
    refine .eatYes rfl ?_
    simp only [found]
    refine .unreported (.last (readsTy type ofType _ ends) fun type' sameType => .spanFrom fun span' => .pure ?_)
    simp_all [Alike, bare]

theorem functionFormalOpens {f : Formal} (pass : every printable f) :
    ∃ w more, wordsOf (Layout.functionFormal f) = w :: more ∧ (typeStart.insert .leftBrace).contains w.kind = true := by
  obtain ⟨ofName, ofType, -, ofAs⟩ := pass
  rw [Layout.functionFormal, Layout.wordsOfAppend, wordsTyped ofName]
  refine attributesOpen (by decide) ?_
  cases name : f.name with
  | none =>
    obtain ⟨w, more, opens, starts⟩ := tyStarts ofType
    exact ⟨w, more, opens, by simp [starts]⟩
  | some n => exact ⟨_, _, rfl, (by decide : (typeStart.insert .leftBrace).contains .identifier = true)⟩

theorem readsFunctionFormals {fs : List Formal} (pass : every printable fs)
    (fixed : ∀ f ∈ fs, f.incoming = true ∧ f.whereClause = none) :
    Reads (wordsOf (Layout.wrapped (commaList (fs.map Layout.functionFormal)))) rest (Alike fs) functionFormals := by
  rw [wordsWrapped]
  have inside : Reads (wordsOf (commaList (fs.map Layout.functionFormal))) (Word.of .rightParen :: rest) (Alike fs)
      (ifNext (checkAny (typeStart.insert .leftBrace)) (commaSeparated (functionFormal true)) (pure [])) := by
    cases fs with
    | nil => exact .ifNo (by decide : (typeStart.insert .leftBrace).contains .rightParen = false) (.pure .nil)
    | cons f fs =>
      have each (x : Formal) (mem : x ∈ f :: fs) : ReadsBack (fun x => wordsOf (Layout.functionFormal x))
          (fun k => endsType k ∧ k ≠ .colon) Alike (functionFormal true) x := by
        intro rest ⟨ends, noColon⟩
        have one := readsFunctionFormal (pass x mem) (fixed x mem).2 ends noColon
        rwa [(fixed x mem).1] at one
      have list : Reads (wordsOf (commaList ((f :: fs).map Layout.functionFormal))) (Word.of .rightParen :: rest)
          (List.Forall₂ Alike (f :: fs)) (commaSeparated (functionFormal true)) :=
        readsComma (List.cons_ne_nil f fs) each (by decide) (ne_of_beq_false rfl)
          (by decide : endsType .rightParen ∧ Kind.rightParen ≠ .colon)
      exact .ifYes (commaStarts (functionFormalOpens (pass f List.mem_cons_self)) _ _) (list.weaken fun _ => alikeOfForall)
  exact .expect rfl (.bind inside fun fs' same => .expectLast rfl (.pure same))

theorem readsKept {fs : List Formal} (next : Option Ty) (kept : ∀ f ∈ fs, positional f = .keeps) :
    Reads [] rest (· = fs) (namePositional next fs) := by
  induction fs generalizing next with
  | nil => exact .pure rfl
  | cons f fs ih =>
    obtain ⟨first, others⟩ := List.forall_mem_cons.mp kept
    rw [namePositional, first]
    exact .last (ih _ others) fun fs' same => .pure (by rw [same])

theorem readsNameFormals {fs fs' : List Formal} (same : Alike fs fs')
    (read : (∀ f ∈ fs, f.name = none) ∨ ∀ f ∈ fs, positional f = .keeps) :
    Reads [] rest (Alike fs) (nameFormals fs') := by
  refine .ofSame (fun n => alikeNameFormals ((likeIff (c := none).mp same).imp fun _ _ => .ofAlike)) (fun _ _ same here => here.trans same) ?_
  rw [nameFormals]
  split
  · exact .pure rfl
  · rename_i other
    refine .last (readsKept none ?_) fun found same => .pure ?_
    · have kept := read.resolve_left fun none => other (by simpa using none)
      exact fun f mem => kept f (List.mem_reverse.mp mem)
    · rw [same, List.reverse_reverse]
      exact rfl

theorem readsFunctionResult {f : Formal} (pass : every printable f) (fixed : f.incoming = false ∧ f.whereClause = none)
    (fs : List Formal) (ends : endsType (headKind rest)) :
    Reads (wordsOf (Layout.functionResult f)) rest (Alike (some f)) (functionResult fs) := by
  rw [Layout.functionResult]
  split
  · have words : wordsOf (.text " returns " :: Layout.wrapped (Layout.functionFormal f)) =
        Word.of .kwReturns :: Word.of .leftParen :: (wordsOf (Layout.functionFormal f) ++ [Word.of .rightParen]) := by
      simp [wordsWrapped, textWords, Terminals.row, Spelling.kinds]
    rw [words]
    refine .eatYes rfl (.expect rfl ?_)
    have one : Reads (wordsOf (Layout.functionFormal f)) (Word.of .rightParen :: rest) (Alike f)
        (functionFormal f.incoming) :=
      readsFunctionFormal pass fixed.2 (by decide : endsType .rightParen) (ne_of_beq_false rfl)
    rw [fixed.1] at one
    exact .bind one fun f' same => .expectLast rfl (.pure (congrArg some same))
  · rename_i plain
    obtain ⟨n, type, whereClause, incoming, as, span⟩ := f
    obtain ⟨-, ofType, -, -⟩ := pass
    obtain ⟨rfl, rfl⟩ : incoming = false ∧ whereClause = none := fixed
    obtain ⟨rfl, rfl⟩ : n = none ∧ as = [] := by simpa using plain
    have words : wordsOf (.text ": " :: Layout.ty type) = Word.of .colon :: wordsOf (Layout.ty type) := by
      simp [textWords, Terminals.row, Spelling.kinds]
    rw [words]
    refine .eatNo (ne_of_beq_false rfl) (.eatYes rfl (.last (readsTy type ofType _ ends) fun type' same => .pure ?_))
    simp_all [Alike, bare]

def functionBodyWords (body : Option Expr) : List Word :=
  body.elim [Word.of .semicolon] fun e => Word.of .leftBrace :: (wordsOf (Layout.expr e) ++ [Word.of .rightBrace])

theorem readsFunctionBody {body : Option Expr} (pass : every printable body) :
    Reads (functionBodyWords body) rest (Alike body) functionBody := by
  cases body with
  | none => exact .eatNo (ne_of_beq_false rfl) (.eatYes rfl (.pure rfl))
  | some e =>
    refine .eatYes rfl (.bind (readsExpr (rereadExpr (pass e rfl)) (by decide : endsExpr .rightBrace)) fun e' same => ?_)
    exact .expectLast rfl (.pure (congrArg some same))

theorem functionDeclsKept {f : Function} (shaped : f.body ≠ none → Attribute.isSet f.attributes "inline" = true) :
    functionDecls { f with body := none } f.body = [.function f] := by
  obtain ⟨n, ps, formals, result, body, as, span⟩ := f
  cases body with
  | none => rfl
  | some e => simp [functionDecls, shaped (Option.some_ne_none e)]

theorem readsFunction {f : Function} (here : printable.decl (.function f)) (pass : every printable f) :
    Reads (wordsOf (Layout.function f)) rest (Alike [Decl.function f]) function := by
  obtain ⟨shaped, ⟨ofIncoming, ofWhere, fixed⟩, read⟩ := here
  have kept := functionDeclsKept shaped
  obtain ⟨n, ps, formals, result, body, as, span⟩ := f
  obtain ⟨named, ofPs, ofFormals, ofResult, ofBody, ofAs⟩ := pass
  have words : wordsOf (Layout.function ⟨n, ps, formals, result, body, as, span⟩) = Word.of .kwFunction ::
      (wordsOf (Layout.attributes as) ++ (nameWord n :: (wordsOf (Layout.optionalTypeParams ps) ++
        (wordsOf (Layout.wrapped (commaList (formals.map Layout.functionFormal))) ++
          (wordsOf (Layout.functionResult result) ++ functionBodyWords body))))) := by
    cases body <;>
      simp [Layout.function, nameWords named, functionBodyWords, textWords, Terminals.row, Spelling.kinds]
  have ends : endsType (headKind (functionBodyWords body ++ rest)) := by
    cases body with
    | none => exact (by decide : endsType .semicolon)
    | some e => exact (by decide : endsType .leftBrace)
  rw [words]
  refine .advance fun t _ => .bind (readsAttributes (rereadAttributes ofAs) (ne_of_beq_false rfl)) fun as' sameAs => ?_
  refine readsNamed named fun place => .bind (readsOptionalTypeParams ofPs ?_) fun ps' samePs => ?_
  · rw [List.append_assoc, wordsWrapped]
    exact ne_of_beq_false rfl
  refine .bind (readsFunctionFormals ofFormals fixed) fun formals' sameFormals => ?_
  refine .bind (readsFunctionResult ofResult ⟨ofIncoming, ofWhere⟩ formals' ends) fun result' sameResult => ?_
  refine .last (readsFunctionBody ofBody) fun body' sameBody => .look fun last => ?_
  refine .last (readsNameFormals sameFormals read) fun formals'' sameFormals' => .spanFrom fun span' => .pure ?_
  rw [← kept]
  refine alikeFunctionDecls (c := none) ?_ sameBody
  cases result' with
  | none => contradiction
  | some result' => simp_all [Alike, bare]

end Functions

section Signatures

variable {rest : List Word} {role : GroupRole}

def variableOf (f : Formal) : Variable := ⟨f.name.getD "", f.type, f.whereClause, f.attributes, f.span⟩

structure AreFormals (role : GroupRole) (incoming : Bool) (fs : List Formal) : Prop where
  pass : every printable fs
  named : ∀ f ∈ fs, f.name ≠ none
  placed : ∀ f ∈ fs, f.incoming = incoming
  taken : ∀ f ∈ fs, role.allowsAttributes = true ∨ f.attributes = []
  allowed : ∀ f ∈ fs, f.whereClause ≠ none → role.allowsWhere = true

theorem wordsFormal {f : Formal} (ofName : every printable f.name) (named : f.name ≠ none) :
    wordsOf (Layout.formal true f) = wordsOf (Layout.attributes f.attributes) ++
      typedWords (variableOf f).name f.type f.whereClause := by
  obtain ⟨n, type, whereClause, incoming, as, span⟩ := f
  obtain ⟨n, rfl⟩ := Option.ne_none_iff_exists'.mp named
  simp [Layout.formal, wordsTyped ofName, nameFront, typedWords, variableOf]

theorem readsFormals {incoming : Bool} {fs : List Formal} (h : AreFormals role incoming fs) :
    Reads (wordsOf (Layout.wrapped (commaList (fs.map (Layout.formal true))))) rest (Alike fs) (formals role incoming) := by
  have each (f : Formal) (mem : f ∈ fs) : ReadsBack (fun f => wordsOf (Layout.formal true f)) endsGroup
      (fun f vs => Alike [variableOf f] vs) (attributedGroup expression role) f := by
    intro rest ends
    obtain ⟨ofName, ofType, ofWhere, ofAs⟩ := h.pass f mem
    have named : isWritten (variableOf f).name := by
      obtain ⟨n, same⟩ := Option.ne_none_iff_exists'.mp (h.named f mem)
      have written : isWritten n := ofName n same
      simpa [variableOf, same] using written
    dsimp only
    rw [wordsFormal ofName (h.named f mem)]
    exact readsAttributedGroup (rereadAttributes ofAs) (h.taken f mem) named ofType (h.allowed f mem)
      (fun e same => rereadExpr (ofWhere e same)) ends
  have opens (f : Formal) (mem : f ∈ fs) :
      ∃ w more, wordsOf (Layout.formal true f) = w :: more ∧ groupStart.contains w.kind = true := by
    rw [wordsFormal (h.pass f mem).1 (h.named f mem)]
    exact attributesOpen (by decide) ⟨_, _, rfl, (by decide : groupStart.contains .identifier = true)⟩
  have back : (fs.map variableOf).map (formalOf incoming) = fs := by
    rw [List.map_map]
    refine (List.map_congr_left fun f mem => ?_).trans (List.map_id fs)
    obtain ⟨n, same⟩ := Option.ne_none_iff_exists'.mp (h.named f mem)
    have placed := h.placed f mem
    obtain ⟨_, _, _, _, _, _⟩ := f
    simp_all [formalOf, variableOf]
  have made (vs : List Variable) (same : Alike (fs.map variableOf) vs) : Alike fs (vs.map (formalOf incoming)) := by
    rw [← back]
    refine Alike.map (fun v v' same => ?_) same
    obtain ⟨_, _, _, _, _⟩ := v
    obtain ⟨_, _, _, _, _⟩ := v'
    simp_all [Alike, bare, formalOf]
  have inside : Reads (wordsOf (commaList (fs.map (Layout.formal true)))) (Word.of .rightParen :: rest)
      (Alike (fs.map variableOf)) (ifNext (checkAny groupStart) (attributedGroups expression role) (pure [])) := by
    cases fs with
    | nil => exact .ifNo (by decide : groupStart.contains .rightParen = false) (.pure .nil)
    | cons f fs =>
      refine .ifYes (commaStarts (opens f List.mem_cons_self) _ _) (.last (readsComma (List.cons_ne_nil f fs) each
        (by decide : endsGroup .comma) (ne_of_beq_false rfl) (by decide : endsGroup .rightParen)) fun found all => .pure ?_)
      exact alikeJoined (List.forall₂_map_left_iff.mpr all)
  rw [wordsWrapped]
  exact .expect rfl (.bind inside fun vs same => .expectLast rfl (.pure (made vs same)))

def signatureWords (sig : Signature) : List Word :=
  wordsOf (Layout.signature true sig.name sig.params sig.ins sig.outs)

theorem readsSignature {sig : Signature} (named : isWritten sig.name) (ofParams : every printable sig.params)
    (ofAs : every printable sig.attributes) (ofIns : AreFormals role true sig.ins)
    (ofOuts : AreFormals role false sig.outs) (stops : headKind rest ≠ .kwReturns) :
    Reads (wordsOf (Layout.attributes sig.attributes) ++ signatureWords sig) rest (Alike sig) (signature role) := by
  obtain ⟨n, params, ins, outs, as⟩ := sig
  have words : signatureWords ⟨n, params, ins, outs, as⟩ = nameWord n :: (wordsOf (Layout.optionalTypeParams params) ++
      (wordsOf (Layout.wrapped (commaList (ins.map (Layout.formal true)))) ++ if outs.isEmpty then [] else
        Word.of .kwReturns :: wordsOf (Layout.wrapped (commaList (outs.map (Layout.formal true)))))) := by
    rw [signatureWords, Layout.signature]
    split <;> simp [nameWords named, textWords, Terminals.row, Spelling.kinds]
  have last : Reads (if outs.isEmpty then [] else
      Word.of .kwReturns :: wordsOf (Layout.wrapped (commaList (outs.map (Layout.formal true))))) rest (Alike outs)
        (ifNext (eat .kwReturns) (formals role false) (pure [])) := by
    cases outs with
    | nil => exact .eatNo stops (.pure .nil)
    | cons f fs => exact .eatYes rfl (readsFormals ofOuts)
  rw [words]
  refine .bind (readsAttributes (rereadAttributes ofAs) (ne_of_beq_false rfl)) fun as' sameAs => ?_
  refine readsNamed named fun place => ?_
  refine .bind (readsOptionalTypeParams ofParams ?_) fun params' sameParams => ?_
  · rw [List.append_assoc, wordsWrapped]
    exact ne_of_beq_false rfl
  refine .bind (readsFormals ofIns) fun ins' sameIns => .last last fun outs' sameOuts => .pure ?_
  simp_all [Alike, bare]

end Signatures

section Procedures

variable {rest : List Word}

theorem requiresFront (free : Bool) : (Piece.text ((if free then "free " else "") ++ "requires" ++ " ")).words =
    flag .kwFree free ++ [Word.of .kwRequires] := by
  rw [textWords]
  cases free <;> rfl

theorem ensuresFront (free : Bool) : (Piece.text ((if free then "free " else "") ++ "ensures" ++ " ")).words =
    flag .kwFree free ++ [Word.of .kwEnsures] := by
  rw [textWords]
  cases free <;> rfl

def specWords : Spec → List Word
  | .requires c => clauseWords .kwRequires c
  | .modifies vars => Word.of .kwModifies :: (wordsOf (Layout.names vars) ++ [Word.of .semicolon])
  | .ensures c => clauseWords .kwEnsures c
  | .mistake => []

def contractOf (p : Procedure) : List Spec :=
  p.requires.map .requires ++ ((if p.modifies.isEmpty then [] else [.modifies p.modifies]) ++ p.ensures.map .ensures)

theorem readsClause {c : Clause} (pass : every printable c) (start : Span) (w : Word) :
    Reads (w :: (wordsOf (Layout.attributes c.attributes) ++ (wordsOf (Layout.expr c.condition) ++ [Word.of .semicolon])))
      rest (Alike c) (clause start c.free) := by
  obtain ⟨free, condition, as, span⟩ := c
  refine .advance fun t _ => readsCondition pass.1 pass.2 fun as' e' sameAs sameE => .spanFrom fun span' => .pure ?_
  simp_all [Alike, bare]

theorem clauseNotModifies {k : Kind} {c : Clause} (other : k ≠ .kwModifies) :
    headKind (clauseWords k c ++ rest) ≠ .kwModifies := by
  rw [clauseWords, List.append_assoc, headKindFlag]
  split
  · exact ne_of_beq_false rfl
  · exact other

theorem readsRequires {c : Clause} (pass : every printable c) :
    Reads (clauseWords .kwRequires c) rest (Alike (Spec.requires c)) spec := by
  refine .look fun start => .eatNo (clauseNotModifies (by decide)) (readsFlag (ne_of_beq_false rfl) (.byKind rfl ?_))
  refine .last (readsClause pass start _) fun c' same => .pure ?_
  simpa [Alike, bare] using same

theorem readsEnsures {c : Clause} (pass : every printable c) :
    Reads (clauseWords .kwEnsures c) rest (Alike (Spec.ensures c)) spec := by
  refine .look fun start => .eatNo (clauseNotModifies (by decide)) (readsFlag (ne_of_beq_false rfl) (.byKind rfl ?_))
  refine .last (readsClause pass start _) fun c' same => .pure ?_
  simpa [Alike, bare] using same

theorem readsModifies {vars : List Ident} (filled : vars ≠ []) (pass : every printable vars) :
    Reads (specWords (.modifies vars)) rest (Alike (Spec.modifies vars)) spec := by
  obtain ⟨id, ids, rfl⟩ := List.exists_cons_of_ne_nil filled
  have inside : Reads (wordsOf (Layout.names (id :: ids))) (Word.of .semicolon :: rest) (Alike (id :: ids))
      (ifNext (check .identifier) idents (pure [])) := by
    refine .ifYes ?_ (readsIdents filled pass (ne_of_beq_false rfl))
    rw [wordsNames id (pass id List.mem_cons_self)]
    rfl
  refine .look fun start => .eatYes rfl (.bind inside fun vars' same => .expectLast rfl (.pure ?_))
  simpa [Alike, bare] using same

theorem readsContract {p : Procedure} (pass : every printable p) (stops : clauseStart.contains (headKind rest) = false) :
    Reads ((contractOf p).flatMap specWords) rest (Alike (contractOf p)) specs := by
  obtain ⟨-, -, -, -, ofRequires, ofModifies, ofEnsures, -⟩ := pass
  have each (s : Spec) (mem : s ∈ contractOf p) : ReadsBack specWords (fun _ => True) Alike spec s ∧
      ∃ w more, specWords s = w :: more ∧ clauseStart.contains w.kind = true := by
    rw [contractOf, List.mem_append, List.mem_append] at mem
    rcases mem with mem | mem | mem
    · obtain ⟨c, listed, rfl⟩ := List.mem_map.mp mem
      obtain ⟨w, more, same, kind | kind⟩ := clauseOpens .kwRequires c <;>
        exact ⟨fun _ _ => readsRequires (ofRequires c listed), w, more, same, by rw [kind]; decide⟩
    · split at mem
      · exact absurd mem List.not_mem_nil
      · rename_i filled
        obtain rfl := List.mem_singleton.mp mem
        exact ⟨fun _ _ => readsModifies (by simpa using filled) ofModifies, _, _, rfl, (by decide)⟩
    · obtain ⟨c, listed, rfl⟩ := List.mem_map.mp mem
      obtain ⟨w, more, same, kind | kind⟩ := clauseOpens .kwEnsures c <;>
        exact ⟨fun _ _ => readsEnsures (ofEnsures c listed), w, more, same, by rw [kind]; decide⟩
  have opens (s : Spec) (mem : s ∈ contractOf p) :
      ∃ w more, specWords s = w :: more ∧ clauseStart.contains w.kind = true ∧ True := by
    obtain ⟨w, more, same, starts⟩ := (each s mem).2
    exact ⟨w, more, same, starts, trivial⟩
  exact (readsMany .spec (fun s mem => (each s mem).1) opens stops trivial).weaken fun _ => alikeOfForall

theorem wordsContract (depth : Nat) (p : Procedure) :
    wordsOf (Layout.clauseLines depth "requires" p.requires) ++ (wordsOf (if p.modifies.isEmpty then []
      else Layout.openedLine depth (.text "modifies " :: Layout.names p.modifies ++ [.text ";"])) ++
        wordsOf (Layout.clauseLines depth "ensures" p.ensures)) = (contractOf p).flatMap specWords := by
  have requires : wordsOf (Layout.clauseLines depth "requires" p.requires) = (p.requires.map Spec.requires).flatMap specWords := by
    simp [Layout.clauseLines, wordsFlat, wordsClause (requiresFront _), List.flatMap_map, specWords]
  have ensures : wordsOf (Layout.clauseLines depth "ensures" p.ensures) = (p.ensures.map Spec.ensures).flatMap specWords := by
    simp [Layout.clauseLines, wordsFlat, wordsClause (ensuresFront _), List.flatMap_map, specWords]
  rw [requires, ensures, contractOf]
  split <;> simp [specWords, textWords, Terminals.row, Spelling.kinds]

theorem procedureOfContract (p : Procedure) (span : Span) :
    Alike [Decl.procedure p] (procedureDecls ⟨p.name, p.params, p.ins, p.outs, p.attributes⟩ span (contractOf p) none) := by
  obtain ⟨n, params, ins, outs, requires, modifies, ensures, as, place⟩ := p
  have nothing (cs : List Clause) : cs.flatMap (fun _ => ([] : List Ident)) = [] := by
    induction cs <;> simp_all
  cases modifies <;>
    simp [procedureDecls, contractOf, List.filterMap_append, List.filterMap_cons, List.filterMap_map, List.flatMap_map,
      Function.comp_def, Spec.requires?, Spec.ensures?, Spec.modified, nothing, Alike, bare]

theorem readsProcedure {p : Procedure} (here : printable.decl (.procedure p)) (pass : every printable p)
    (stops : clauseStart.contains (headKind rest) = false) :
    Reads (wordsOf (Layout.procedure 0 p)) rest (Alike [Decl.procedure p]) procedure := by
  obtain ⟨shaped, ⟨ofIns', ofOuts'⟩, -⟩ := here
  have contract := readsContract pass stops
  have made := procedureOfContract p
  obtain ⟨named, ofParams, ofIns, ofOuts, -, -, -, ofAs⟩ := pass
  let sig : Signature := ⟨p.name, p.params, p.ins, p.outs, p.attributes⟩
  have words : wordsOf (Layout.procedure 0 p) = Word.of .kwProcedure ::
      ((wordsOf (Layout.attributes p.attributes) ++ signatureWords sig) ++
        (Word.of .semicolon :: (contractOf p).flatMap specWords)) := by
    rw [← wordsContract 1]
    simp [Layout.procedure, signatureWords, sig, textWords, Terminals.row, Spelling.kinds]
  have ins : AreFormals .procedureFormals true p.ins :=
    ⟨ofIns, fun f mem => shaped f (List.mem_append_left _ mem), ofIns', fun _ _ => .inl rfl, fun _ _ _ => rfl⟩
  have outs : AreFormals .procedureFormals false p.outs :=
    ⟨ofOuts, fun f mem => shaped f (List.mem_append_right _ mem), ofOuts', fun _ _ => .inl rfl, fun _ _ _ => rfl⟩
  have front (ws : List Word) : Reads (wordsOf (Layout.attributes sig.attributes) ++ signatureWords sig)
      (Word.of .semicolon :: ws) (Alike sig) (signature .procedureFormals) :=
    readsSignature (show isWritten sig.name from named) ofParams ofAs ins outs (ne_of_beq_false rfl)
  rw [words]
  refine .advance fun t _ => .bind (front _) fun sig' sameSig => ?_
  have alone : Reads (Word.of .semicolon :: (contractOf p).flatMap specWords) rest (Alike (contractOf p, none))
      contractAndBody := .eatYes rfl (.last contract fun found same => .pure (Prod.ext same rfl))
  refine .last alone ?_
  rintro ⟨found, body⟩ same
  obtain ⟨sameContract, sameBody⟩ := same.pair
  exact .spanFrom fun span' => .pure ((made span').trans (alikeProcedureDecls (c := none) sameSig sameContract sameBody))

end Procedures

section Implementations

variable {rest : List Word}

theorem bodyStarts {l : StmtList} (pass : every printable l) (depth : Nat) (rest : List Word) :
    headKind (bodyWords depth l ++ rest) ≠ .kwVar := by
  obtain ⟨bs, closing⟩ := l
  rw [bodyWords, Layout.stmts, wordsBlocks, List.append_assoc]
  exact (blocksStart (stmtRereadingFollows.ofBlocks bs pass.2) rest).2

theorem readsImplementationBody {locals : List Variable} {l : StmtList} (ofLocals : every printable locals)
    (ofL : every printable l) :
    Reads (wordsOf (Layout.body 0 locals l)) rest (Alike (locals, l)) implementationBody := by
  have words : wordsOf (Layout.body 0 locals l) = Word.of .leftBrace ::
      ((locals.flatMap fun v => wordsOf (Layout.variableDecl v)) ++ bodyWords 1 l) := by
    simp [Layout.body, wordsFlat, bodyWords, Layout.lineStart, textWords, Terminals.row, Spelling.kinds]
  rw [words]
  refine .expect rfl (.bind (readsLocals (fun v mem => rereadingFollows.ofVariable v (ofLocals v mem))
    (bodyStarts ofL 1 rest)) fun locals' sameLocals => ?_)
  exact .last (rereadBody ofL 1 rest) fun l' sameL => .pure (Prod.ext sameLocals sameL)

theorem formalsWithoutAttributes {incoming : Bool} {fs : List Formal} (pass : every printable fs)
    (shaped : ∀ f ∈ fs, f.name ≠ none ∧ f.whereClause = none) (placed : ∀ f ∈ fs, f.incoming = incoming) :
    AreFormals .implementationFormals incoming (fs.map Formal.withoutAttributes) where
  pass := List.forall_mem_map.mpr fun f mem => ⟨(pass f mem).1, (pass f mem).2.1, (pass f mem).2.2.1, everyNil⟩
  named := List.forall_mem_map.mpr fun f mem => (shaped f mem).1
  placed := List.forall_mem_map.mpr placed
  taken := List.forall_mem_map.mpr fun _ _ => .inr rfl
  allowed := List.forall_mem_map.mpr fun f mem some => absurd (shaped f mem).2 some

theorem signatureWithoutAttributes (n : String) (params : List Ident) (ins outs : List Formal) :
    Layout.signature false n params ins outs =
      Layout.signature true n params (ins.map Formal.withoutAttributes) (outs.map Formal.withoutAttributes) := by
  have each (fs : List Formal) :
      (fs.map Formal.withoutAttributes).map (Layout.formal true) = fs.map (Layout.formal false) := by
    rw [List.map_map]
    exact List.map_congr_left fun f _ => rfl
  rw [Layout.signature, Layout.signature, each, each, List.isEmpty_map]

theorem readsImplementation {i : Implementation} (here : printable.decl (.implementation i)) (pass : every printable i) :
    Reads (wordsOf (Layout.implementation 0 i)) rest (Alike [(Decl.implementation i).printed]) implementation := by
  obtain ⟨shaped, ⟨ofIns', ofOuts'⟩, -⟩ := here
  obtain ⟨n, params, ins, outs, locals, l, as, span⟩ := i
  obtain ⟨named, ofParams, ofIns, ofOuts, ofLocals, ofL, ofAs⟩ := pass
  let sig : Signature :=
    ⟨n, params, ins.map Formal.withoutAttributes, outs.map Formal.withoutAttributes, as⟩
  have words : wordsOf (Layout.implementation 0 ⟨n, params, ins, outs, locals, l, as, span⟩) = Word.of .kwImplementation ::
      ((wordsOf (Layout.attributes as) ++ signatureWords sig) ++ wordsOf (Layout.body 0 locals l)) := by
    simp [Layout.implementation, signatureWithoutAttributes, signatureWords, sig, textWords, Terminals.row, Spelling.kinds]
  have insFit := formalsWithoutAttributes ofIns (fun f mem => shaped f (List.mem_append_left _ mem)) ofIns'
  have outsFit := formalsWithoutAttributes ofOuts (fun f mem => shaped f (List.mem_append_right _ mem)) ofOuts'
  have stops : headKind (wordsOf (Layout.body 0 locals l) ++ rest) ≠ .kwReturns := by
    simp [Layout.body, textWords, Terminals.row, Spelling.kinds, Word.of]
  have front : Reads (wordsOf (Layout.attributes sig.attributes) ++ signatureWords sig) (wordsOf (Layout.body 0 locals l) ++ rest)
      (Alike sig) (signature .implementationFormals) :=
    readsSignature (show isWritten sig.name from named) ofParams ofAs insFit outsFit stops
  rw [words]
  refine .advance fun t _ => .bind front fun sig' sameSig => ?_
  refine .last (readsImplementationBody ofLocals ofL) ?_
  rintro ⟨locals', l'⟩ same
  obtain ⟨sameLocals, sameL⟩ := same.pair
  refine .spanFrom fun span' => .pure ?_
  obtain ⟨n', params', ins', outs', as'⟩ := sig'
  simp_all [Alike, bare, Decl.printed, sig]

end Implementations

def declWord : Decl → Kind
  | .constant _ => .kwConst
  | .typeConstructor _ | .typeSynonym _ => .kwType
  | .function _ => .kwFunction
  | .axiomatic _ => .kwAxiom
  | .global _ => .kwVar
  | .procedure _ => .kwProcedure
  | .implementation _ => .kwImplementation

theorem declWordStarts (d : Decl) : (declWord d != .endOfText) = true ∧ declSync.contains (declWord d) = true := by
  cases d <;> simp only [declWord] <;> decide

theorem declOpens (d : Decl) : ∃ more, wordsOf (Layout.decl d) = Word.of (declWord d) :: more := by
  rw [Layout.decl, wordsLine]
  cases d with
  | constant c => exact ⟨_, wordsOfText (s := "const ") rfl _⟩
  | typeConstructor t => exact ⟨_, wordsOfText (s := "type ") rfl _⟩
  | typeSynonym t => exact ⟨_, wordsOfText (s := "type ") rfl _⟩
  | function f => exact ⟨_, wordsOfText (s := "function ") rfl _⟩
  | axiomatic a => exact ⟨_, wordsOfText (s := "axiom ") rfl _⟩
  | global v =>
    obtain ⟨n, type, whereClause, as, span⟩ := v
    rw [Layout.declBody, Layout.variableDecl]
    exact ⟨_, wordsOfText (s := "var ") rfl _⟩
  | procedure p => exact ⟨_, wordsOfText (s := "procedure ") rfl _⟩
  | implementation i => exact ⟨_, wordsOfText (s := "implementation ") rfl _⟩

theorem noClause : ∀ k ∈ Kind.all, declSync.contains k = true → clauseStart.contains k = false := by decide

theorem readsDecl {d : Decl} (pass : every printable d) {rest : List Word} (ends : declSync.contains (headKind rest) = true) :
    Reads (wordsOf (Layout.decl d)) rest (Alike [d.printed]) decl := by
  have starts : headKind (wordsOf (Layout.decl d) ++ rest) = declWord d := by
    obtain ⟨more, words⟩ := declOpens d
    rw [words]
    rfl
  have alone : wordsOf (Layout.decl d) = wordsOf (Layout.declBody 0 d) := wordsLine 0 _
  obtain ⟨here, inside⟩ := pass
  cases d with
  | constant c => exact .byKind starts (alone ▸ readsConstant here.2.1 inside)
  | typeConstructor t => exact .byKind starts (alone ▸ readsTypeConstructor inside)
  | typeSynonym t => exact .byKind starts (alone ▸ readsTypeSynonym inside)
  | function f => exact .byKind starts (alone ▸ readsFunction here inside)
  | axiomatic a => exact .byKind starts (alone ▸ readsAxiomDecl inside)
  | global v => exact .byKind starts (alone ▸ readsGlobal inside)
  | procedure p => exact .byKind starts (alone ▸ readsProcedure here inside (noClause _ (Kind.memAll _) ends))
  | implementation i => exact .byKind starts (alone ▸ readsImplementation here inside)

end Grammar

end Boogie
