import Boogie.Proofs.Alike.Ty
import Boogie.Proofs.Printed.Printable
import Boogie.Proofs.Reread.Lists

/-! Printed types are read back. -/
namespace Boogie.Grammar

open Token (Kind Word Spelling)
open Layout (Piece wordsOf Terminals textWords printable)

theorem alikeTypeUnfold (n : Nat) : Simulates samePlace n anywhere Alike (typeLevel type) type :=
  Simulates.nestUnfold (V := fun _ => Alike) (fun _ _ _ same _ => alikeTypeLevel rfl (same ())) ()

theorem readsType {ws rest : List Word} {t : Ty} (h : Reads ws rest (Alike t) (typeLevel type)) :
    Reads ws rest (Alike t) type :=
  .ofSame alikeTypeUnfold (fun _ _ same here => here.trans same) h

theorem namedOfPrinted {span : Span} {n : String} {args : List Ty} :
    namedType span n (n != Name.escape n) args = .named span n args := by
  cases args with
  | cons => rfl
  | nil =>
    cases width : Name.bitVectorWidth n with
    | none => simp [namedType, width]
    | some w =>
      obtain ⟨digits, found, _⟩ := Option.bind_eq_some_iff.mp width
      have longer : Name.escape n = "\\" ++ n := by simp [Name.escape, found]
      have other : n ≠ "\\" ++ n := by
        intro same
        have count := congrArg String.length same
        rw [String.length_append] at count
        exact absurd count (by simp)
      simp [namedType, longer, other]

theorem readsIdentWritten {β : Type} {n : String} (written : Layout.isWritten n) {f : Ident × Bool → Production β}
    {ws rest : List Word} {V : β → Prop} (next : ∀ span, Reads ws rest V (f (⟨n, span⟩, n != Name.escape n))) :
    Reads (Layout.nameWord n :: ws) rest V (identWritten >>= f) := by
  refine Reads.identWritten fun span => ?_
  have same : Reads.nameOf (Layout.nameWord n).text = n := Layout.nameOfWord written
  rw [show Reads.nameOf (Name.escape n).toList = n from same, String.ofList_toList]
  exact next span

theorem readsWidthWritten {β : Type} {width : Nat} {f : Ident × Bool → Production β} {ws rest : List Word}
    {V : β → Prop} (next : ∀ span, Reads ws rest V (f (⟨"bv" ++ toString width, span⟩, false))) :
    Reads (⟨.identifier, ("bv" ++ toString width).toList⟩ :: ws) rest V (identWritten >>= f) := by
  refine Reads.identWritten fun span => ?_
  have same : Reads.nameOf ("bv" ++ toString width).toList = "bv" ++ toString width := by
    rw [Reads.nameOf, String.ofList_toList, Name.unescape, Layout.widthToList]
    rfl
  rw [same, String.ofList_toList, bne_self_eq_false]
  exact next span

theorem widthOfPrinted {width : Nat} (less : width < Text.wordCount 32) :
    Name.bitVectorWidth ("bv" ++ toString width) = some width := by
  have digits : Name.bitVectorDigits ("bv" ++ toString width) = some (Nat.toDigits 10 width) := by
    rw [Name.bitVectorDigits, Layout.widthToList]
    simp [Text.isDigitsToDigits]
  rw [Name.bitVectorWidth, digits]
  exact Text.readWordToDigits less

theorem namedWidth {span : Span} {width : Nat} (less : width < Text.wordCount 32) :
    namedType span ("bv" ++ toString width) false [] = .bitVector span width := by
  simp only [namedType, widthOfPrinted less]

theorem wordsTypeParams (ps : List Ident) : wordsOf (Layout.typeParams ps) =
    Word.of .less :: (wordsOf (Layout.names ps) ++ [Word.of .greater]) := by
  simp [Layout.typeParams, textWords, Terminals.row, Spelling.kinds]

theorem readsTypeParams {ps : List Ident} (filled : ps ≠ []) (written : every printable ps) (rest : List Word) :
    Reads (wordsOf (Layout.typeParams ps)) rest (Alike ps) typeParams := by
  rw [wordsTypeParams]
  refine .expect rfl (.bind (readsIdents filled written (by decide : Kind.greater ≠ .comma)) fun ids same => ?_)
  exact .expectLast rfl (.pure same)

theorem readsOptionalTypeParams {ps : List Ident} (written : every printable ps) {rest : List Word}
    (other : headKind rest ≠ .less) :
    Reads (wordsOf (Layout.optionalTypeParams ps)) rest (Alike ps) optionalTypeParams := by
  cases ps with
  | nil => exact .ifNo (beq_eq_false_iff_ne.mpr other) (.pure .nil)
  | cons p ps =>
    have inside := readsTypeParams (List.cons_ne_nil p ps) written rest
    refine .ifYes ?_ inside
    rw [Layout.optionalTypeParams, List.isEmpty_cons, if_neg Bool.false_ne_true, wordsTypeParams]
    rfl

def endsType (k : Kind) : Prop := typeStart.contains k = false

instance : DecidablePred endsType := fun k => inferInstanceAs (Decidable (typeStart.contains k = false))

theorem notArgument {k : Kind} (ends : endsType k) : argumentStart.contains k = false := by
  rw [endsType, typeStart, Token.KindSet.containsUnion, Bool.or_eq_false_iff] at ends
  exact ends.1

theorem notMap {k : Kind} (ends : endsType k) : mapStart.contains k = false := by
  rw [endsType, typeStart, Token.KindSet.containsUnion, Bool.or_eq_false_iff] at ends
  exact ends.2

section Words

variable {span : Span}

theorem wordsBasic (b : BasicType) : wordsOf (Layout.ty (.basic span b)) = [Word.of (Layout.kindOfBasic b)] := by
  simp [Layout.ty, textWords, Terminals.row, Spelling.kinds]

theorem wordsBitVector (width : Nat) :
    wordsOf (Layout.ty (.bitVector span width)) = [⟨.identifier, ("bv" ++ toString width).toList⟩] := by
  rw [Layout.ty, Layout.wordsOfCons, Layout.plainWords (Layout.writtenWidth width) (Layout.plainWidth width)]
  rfl

def argumentWords (t : Ty) : List Word := wordsOf (Layout.tyArgument t)

theorem wordsNamed {n : String} (written : Layout.isWritten n) (args : List Ty) :
    wordsOf (Layout.ty (.named span n args)) = Layout.nameWord n :: args.flatMap argumentWords := by
  rw [Layout.ty, Layout.wordsOfAppend, Layout.nameWords written, Layout.tyArgsFlat, wordsFlat]
  rfl

theorem wordsMap (ps : List Ident) (args : List Ty) (result : Ty) :
    wordsOf (Layout.ty (.map span ps args result)) = wordsOf (Layout.optionalTypeParams ps) ++ Word.of .leftBracket ::
      (wordsOf (Layout.commaList (args.map Layout.ty)) ++ Word.of .rightBracket :: wordsOf (Layout.ty result)) := by
  simp [Layout.ty, Layout.tysMap, textWords, Terminals.row, Spelling.kinds]

end Words

theorem mapStarts {span : Span} (ps : List Ident) (args : List Ty) (result : Ty) {rest : List Word} :
    mapStart.contains (headKind (wordsOf (Layout.ty (.map span ps args result)) ++ rest)) = true := by
  rw [wordsMap]
  cases ps with
  | nil => exact (by decide : mapStart.contains .leftBracket = true)
  | cons p ps =>
    rw [Layout.optionalTypeParams, List.isEmpty_cons, if_neg Bool.false_ne_true, wordsTypeParams]
    exact (by decide : mapStart.contains .less = true)

theorem basicStarts (b : BasicType) :
    argumentStart.contains (Layout.kindOfBasic b) = true ∧ mapStart.contains (Layout.kindOfBasic b) = false := by
  cases b <;> decide

theorem nameStarts : typeStart.contains .identifier = true := by decide

theorem tyStarts {t : Ty} (pass : every printable t) :
    ∃ w more, wordsOf (Layout.ty t) = w :: more ∧ typeStart.contains w.kind = true := by
  cases t with
  | basic span b =>
    refine ⟨_, _, wordsBasic b, ?_⟩
    cases b <;> decide
  | bitVector span width => exact ⟨_, _, wordsBitVector width, nameStarts⟩
  | param span n => exact ⟨_, _, Layout.nameWords pass.2, nameStarts⟩
  | named span n args => exact ⟨_, _, wordsNamed pass.2.1 args, nameStarts⟩
  | map span ps args result =>
    rw [wordsMap]
    cases ps with
    | nil => exact ⟨_, _, rfl, by decide⟩
    | cons p ps =>
      rw [Layout.optionalTypeParams, List.isEmpty_cons, if_neg Bool.false_ne_true, wordsTypeParams]
      exact ⟨_, _, rfl, by decide⟩

theorem readsTypeAtom {b : BasicType} {span : Span} {expr : Production Ty} (rest : List Word) :
    Reads [Word.of (Layout.kindOfBasic b)] rest (Alike (.basic span b)) (typeAtom expr) := by
  refine .advance fun t same => ?_
  have kind : t.kind = Layout.kindOfBasic b := congrArg Word.kind same
  rw [kind]
  cases b <;> exact .pure rfl

theorem readsParenType {ws rest : List Word} {t : Ty}
    (inner : Reads ws (Word.of .rightParen :: rest) (Alike t) type) :
    Reads (Word.of .leftParen :: (ws ++ [Word.of .rightParen])) rest (Alike t) (typeAtom type) := by
  refine .advance fun token same => ?_
  have kind : token.kind = .leftParen := congrArg Word.kind same
  rw [kind]
  exact .bind inner fun t' alike => .expectLast rfl (.pure alike)

def ReadsTy (t : Ty) : Prop :=
  ∀ rest, endsType (headKind rest) → Reads (wordsOf (Layout.ty t)) rest (Alike t) type

theorem closesType : endsType .rightParen := by decide

theorem readsArgument {t : Ty} (pass : every printable t) (inner : ReadsTy t) :
    ReadsBack argumentWords (fun _ => True) Alike (typeArgument type) t := by
  intro rest _
  have plain (single : Layout.isCompound t = false) : argumentWords t = wordsOf (Layout.ty t) := by
    simp [argumentWords, Layout.tyArgument, single, Layout.wrappedIf]
  have compound (several : Layout.isCompound t = true) :
      Reads (argumentWords t) rest (Alike t) (typeArgument type) := by
    have words : argumentWords t = Word.of .leftParen :: (wordsOf (Layout.ty t) ++ [Word.of .rightParen]) := by
      simp [argumentWords, Layout.tyArgument, several, Layout.wrappedIf, wordsWrapped]
    rw [words]
    exact .ifNo rfl (readsParenType (inner _ closesType))
  cases t with
  | basic span b =>
    rw [plain rfl, wordsBasic]
    exact .ifNo (by cases b <;> rfl) (readsTypeAtom rest)
  | bitVector span width =>
    rw [plain rfl, wordsBitVector]
    refine .ifYes rfl (readsWidthWritten fun _ => .pure ?_)
    rw [namedWidth pass.2]
    rfl
  | param span n => exact pass.1.1.elim
  | named span n args =>
    cases args with
    | nil =>
      rw [plain rfl, wordsNamed pass.2.1]
      refine .ifYes rfl (readsIdentWritten pass.2.1 fun _ => .pure ?_)
      simp [namedOfPrinted, Alike, bare]
    | cons a args => exact compound rfl
  | map span ps args result => exact compound rfl

theorem argumentOpens {t : Ty} (pass : every printable t) :
    ∃ w more, argumentWords t = w :: more ∧ argumentStart.contains w.kind = true ∧ True := by
  have starts : argumentStart.contains .identifier = true := by decide
  have opens (several : Layout.isCompound t = true) :
      ∃ w more, argumentWords t = w :: more ∧ argumentStart.contains w.kind = true ∧ True := by
    refine ⟨Word.of .leftParen, wordsOf (Layout.ty t) ++ [Word.of .rightParen], ?_, by decide, trivial⟩
    simp [argumentWords, Layout.tyArgument, several, Layout.wrappedIf, wordsWrapped]
  have plain (single : Layout.isCompound t = false) : argumentWords t = wordsOf (Layout.ty t) := by
    simp [argumentWords, Layout.tyArgument, single, Layout.wrappedIf]
  cases t with
  | basic span b => exact ⟨_, _, (plain rfl).trans (wordsBasic b), by cases b <;> decide, trivial⟩
  | bitVector span width => exact ⟨_, _, (plain rfl).trans (wordsBitVector width), starts, trivial⟩
  | param span n => exact pass.1.1.elim
  | named span n args =>
    cases args with
    | nil => exact ⟨_, _, (plain rfl).trans (wordsNamed pass.2.1 []), starts, trivial⟩
    | cons a args => exact opens rfl
  | map span ps args result => exact opens rfl

theorem readsTypeArgs {args : List Ty} (pass : every printable args) (inner : ∀ t ∈ args, ReadsTy t) {rest : List Word}
    (ends : endsType (headKind rest)) : Reads (args.flatMap argumentWords) rest (Alike args) (typeArgs type) := by
  refine .last (readsMany Progresses.typeArgument (fun t mem => readsArgument (pass t mem) (inner t mem))
    (fun t mem => argumentOpens (pass t mem)) (notArgument ends) trivial) fun found alike => ?_
  exact .ifNo (notMap ends) (.pure (alikeOfForall alike))

theorem readsMapRest (start : Span) {ps ids : List Ident} {args : List Ty} {result : Ty} (alike : Alike ps ids)
    (pass : every printable args) (inner : ∀ t ∈ args, ReadsTy t) (last : ReadsTy result) {rest : List Word}
    (ends : endsType (headKind rest)) :
    Reads (wordsOf (Layout.commaList (args.map Layout.ty)) ++ Word.of .rightBracket :: wordsOf (Layout.ty result)) rest
      (Alike (.map start ps args result)) (mapRest type start ids) := by
  have ofArgs : Reads (wordsOf (Layout.commaList (args.map Layout.ty)))
      (Word.of .rightBracket :: wordsOf (Layout.ty result) ++ rest) (Alike args)
      (ifNext (checkAny typeStart) (commaSeparated type) (pure [])) := by
    cases args with
    | nil => exact .ifNo (by decide : typeStart.contains .rightBracket = false) (.pure .nil)
    | cons a args =>
      have list : Reads (wordsOf (Layout.commaList ((a :: args).map Layout.ty)))
          (Word.of .rightBracket :: wordsOf (Layout.ty result) ++ rest) (List.Forall₂ Alike (a :: args))
          (commaSeparated type) :=
        readsComma (List.cons_ne_nil a args) inner (by decide : endsType .comma)
          (by decide : Kind.rightBracket ≠ .comma) (by decide : endsType .rightBracket)
      exact .ifYes (commaStarts (tyStarts (pass a List.mem_cons_self)) _ _) (list.weaken fun _ => alikeOfForall)
  refine .bind ofArgs fun args' same => .expect rfl (.last (last rest ends) fun result' same' => .spanFrom fun _ => .pure ?_)
  simp_all [Alike, bare]

theorem readsMapType {span : Span} {ps : List Ident} {args : List Ty} {result : Ty} (written : every printable ps)
    (pass : every printable args) (inner : ∀ t ∈ args, ReadsTy t) (last : ReadsTy result) {rest : List Word}
    (ends : endsType (headKind rest)) :
    Reads (wordsOf (Layout.ty (.map span ps args result))) rest (Alike (.map span ps args result)) (mapType type) := by
  rw [wordsMap]
  refine .look fun start => .bind (readsOptionalTypeParams written (by decide : Kind.leftBracket ≠ .less))
    fun ids alike => .expect rfl ?_
  refine (readsMapRest start alike pass inner last ends).weaken fun t same => ?_
  simpa [Alike, bare] using same

mutual

theorem readsTy : ∀ t, Ty.passes printable t → ReadsTy t
  | .basic span b, _ => fun rest _ => by
    rw [wordsBasic]
    have ⟨starts, noMap⟩ := basicStarts b
    exact readsType (.ifNo (by cases b <;> rfl) (.ifNo noMap (.ifYes starts (readsTypeAtom rest))))
  | .bitVector span width, pass => fun rest ends => by
    rw [wordsBitVector]
    refine readsType (.ifYes rfl (.look fun _ => readsWidthWritten fun _ => ?_))
    have none : Reads [] rest (Alike ([] : List Ty)) (typeArgs type) := readsTypeArgs everyNil nofun ends
    refine .stay none fun args alike => .spanFrom fun _ => .pure ?_
    cases args with
    | nil =>
      rw [namedWidth pass.2]
      rfl
    | cons t args => exact absurd alike.isEmptyEq nofun
  | .param _ _, ⟨shaped, _⟩ => shaped.1.elim
  | .named span n args, ⟨_, written, pass⟩ => fun rest ends => by
    rw [wordsNamed written]
    refine readsType (.ifYes rfl (.look fun _ => readsIdentWritten written fun _ => ?_))
    refine .last (readsTypeArgs ((Ty.allPassIff _ args).mp pass) (readsTys args pass) ends) fun args' alike =>
      .spanFrom fun _ => .pure ?_
    rw [namedOfPrinted]
    simpa [Alike, bare] using alike
  | .map span ps args result, ⟨_, written, ofArgs, ofResult⟩ => fun rest ends => by
    have starts : mapStart.contains (headKind (wordsOf (Layout.ty (.map span ps args result)) ++ rest)) = true :=
      mapStarts ps args result
    refine readsType (.ifNo ?_ (.ifYes starts ?_))
    · refine beq_eq_false_iff_ne.mpr fun same => ?_
      rw [same] at starts
      exact absurd starts (by decide)
    · exact readsMapType written ((Ty.allPassIff _ args).mp ofArgs) (readsTys args ofArgs) (readsTy result ofResult) ends

theorem readsTys : ∀ ts, Ty.allPass printable ts → ∀ t ∈ ts, ReadsTy t
  | [], _ => nofun
  | t :: rest, ⟨first, more⟩ => List.forall_mem_cons.mpr ⟨readsTy t first, readsTys rest more⟩

end

end Boogie.Grammar
