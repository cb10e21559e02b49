import Boogie.Proofs.Reread.Operands

/-! Printed attributes, triggers and variables are read back, given that the expressions in them are. -/
namespace Boogie.Grammar

open Token (Kind Word Spelling)
open Layout (Piece wordsOf commaList textWords Terminals printable isWritten nameWord nameWords opensWithString isQuotable)

def endsExpr (k : Kind) : Prop := strength k < 1

instance : DecidablePred endsExpr := fun k => inferInstanceAs (Decidable (strength k < 1))

structure IsReread (e : Expr) : Prop where
  derived : IsDerived e
  opening : headKind (wordsOf (Layout.expr e)) = .string ↔ opensWithString e = true

section Expressions

variable {e : Expr} {es : List Expr} {rest : List Word}

theorem readsExpr (h : IsReread e) (ends : endsExpr (headKind rest)) :
    Reads (wordsOf (Layout.expr e)) rest (Alike e) expression := by
  have whole := h.derived.whole.accepted readableAccepted rest ends
  exact (readsExpression whole).weaken fun _ same => same.symm

theorem exprOpens (h : IsReread e) :
    ∃ w more, wordsOf (Layout.expr e) = w :: more ∧ exprStart.contains w.kind = true := by
  obtain ⟨w, more, same, starts, _⟩ := h.derived.starts
  exact ⟨w, more, same, starts⟩

theorem exprBegins (h : IsReread e) (rest : List Word) :
    exprStart.contains (headKind (wordsOf (Layout.expr e) ++ rest)) = true := by
  obtain ⟨w, more, same, starts⟩ := exprOpens h
  rw [same]
  exact starts

theorem exprNotHead (h : IsReread e) {k : Kind} (other : exprStart.contains k = false) (rest : List Word) :
    headKind (wordsOf (Layout.expr e) ++ rest) ≠ k := by
  intro same
  have begins := exprBegins h rest
  rw [same, other] at begins
  contradiction

theorem readsExprs (filled : es ≠ []) (each : ∀ e ∈ es, IsReread e) (ends : endsExpr (headKind rest))
    (stops : headKind rest ≠ .comma) :
    Reads (wordsOf (commaList (es.map Layout.expr))) rest (Alike es) (commaSeparated expression) :=
  (readsComma (V := Alike) filled (fun e mem rest ends => readsExpr (each e mem) ends)
    (by decide : endsExpr .comma) stops ends).weaken fun _ => alikeOfForall

theorem readsOptionalExprs (each : ∀ e ∈ es, IsReread e) (ends : endsExpr (headKind rest))
    (stops : headKind rest ≠ .comma) (none : exprStart.contains (headKind rest) = false) :
    Reads (wordsOf (commaList (es.map Layout.expr))) rest (Alike es) (optionalExprs expression) := by
  cases es with
  | nil => exact .ifNo none (.pure .nil)
  | cons e es =>
    have starts := commaStarts (exprOpens (each e List.mem_cons_self)) es rest
    exact .ifYes starts (readsExprs (List.cons_ne_nil e es) each ends stops)

end Expressions

theorem quotedWords {content : String} (ok : isQuotable content) :
    wordsOf (Layout.quotedText content) = [⟨.string, Layout.quoted content⟩] := by
  have alone := Layout.wordsQuoted ok []
  rw [List.append_nil, Token.wordsNil] at alone
  have spelled : (Piece.text ("\"" ++ content ++ "\"")).chars = Layout.quoted content := by
    simp only [Piece.chars, Piece.string, String.toList_append]
    rfl
  rw [Layout.quotedText, Layout.wordsOfCons, Layout.wordsOfNil, List.append_nil, Piece.words, spelled, alone]

structure IsParamReread (p : AttributeParam) : Prop where
  quotable : ∀ content, p = .string content → isQuotable content
  reread : ∀ e, p = .expr e → IsReread e
  plain : ∀ e, p = .expr e → opensWithString e = false

section Parameters

variable {p : AttributeParam} {ps : List AttributeParam} {rest : List Word}

theorem readsParam (h : IsParamReread p) (ends : endsExpr (headKind rest)) :
    Reads (wordsOf (Layout.attributeParam p)) rest (Alike p) (attributeParam expression) := by
  cases p with
  | string content =>
    have read (t : Token) (same : Token.word t = ⟨.string, Layout.quoted content⟩) :
        Literal.stringContent t.text = content := by
      have spelled : t.text.toList = Layout.quoted content := congrArg Word.text same
      rw [← String.ofList_toList (s := t.text), spelled, Layout.contentOfQuoted]
    rw [Layout.attributeParam, quotedWords (h.quotable content rfl)]
    refine .ifYes rfl (.advance fun t same => .pure ?_)
    rw [read t same]
    rfl
  | expr e =>
    have ofE := h.reread e rfl
    have other : headKind (wordsOf (Layout.expr e) ++ rest) ≠ .string := by
      obtain ⟨w, more, same, _⟩ := exprOpens ofE
      have opening := ofE.opening
      rw [h.plain e rfl, same] at opening
      rw [same]
      exact fun string => absurd (opening.mp string) nofun
    refine .ifNo (beq_eq_false_iff_ne.mpr other) (.last (readsExpr ofE ends) fun a same => .pure ?_)
    simpa [Alike, bare] using same

theorem paramOpens (h : IsParamReread p) :
    ∃ w more, wordsOf (Layout.attributeParam p) = w :: more ∧ exprStart.contains w.kind = true := by
  cases p with
  | string content => exact ⟨_, _, quotedWords (h.quotable content rfl), (by decide : exprStart.contains .string = true)⟩
  | expr e => exact exprOpens (h.reread e rfl)

theorem readsParams (each : ∀ p ∈ ps, IsParamReread p) :
    Reads (wordsOf (commaList (ps.map Layout.attributeParam))) (Word.of .rightBrace :: rest) (Alike ps)
      (ifNext (checkAny exprStart) (commaSeparated (attributeParam expression)) (pure [])) := by
  cases ps with
  | nil => exact .ifNo (by decide : exprStart.contains .rightBrace = false) (.pure .nil)
  | cons p ps =>
    have starts := commaStarts (paramOpens (each p List.mem_cons_self)) ps (Word.of .rightBrace :: rest)
    have list : Reads (wordsOf (commaList ((p :: ps).map Layout.attributeParam))) (Word.of .rightBrace :: rest)
        (List.Forall₂ Alike (p :: ps)) (commaSeparated (attributeParam expression)) :=
      readsComma (List.cons_ne_nil p ps) (fun p mem rest ends => readsParam (each p mem) ends)
        (by decide : endsExpr .comma) (by decide : Kind.rightBrace ≠ .comma) (by decide : endsExpr .rightBrace)
    exact .ifYes starts (list.weaken fun _ => alikeOfForall)

end Parameters

section Groups

variable {span : Span} {rest : List Word}

theorem wordsBraced {key : String} (named : isWritten key) (ps : List AttributeParam) :
    wordsOf (Layout.braced ⟨key, ps, span⟩) = Word.of .leftBrace :: Word.of .colon :: nameWord key ::
      (wordsOf (commaList (ps.map Layout.attributeParam)) ++ [Word.of .rightBrace]) := by
  rw [Layout.braced, Layout.attributeParamsMap]
  cases ps with
  | nil => simp [nameWords named, textWords, Terminals.row, Spelling.kinds]
  | cons p ps => simp [nameWords named, textWords, Terminals.row, Spelling.kinds]

theorem readsBraced {key : String} (named : isWritten key) (other : key ≠ "nopats") {ps : List AttributeParam}
    (each : ∀ p ∈ ps, IsParamReread p) :
    Reads (wordsOf (Layout.braced ⟨key, ps, span⟩)) rest (Alike (.keyed ⟨key, ps, span⟩)) (braced expression) := by
  rw [wordsBraced named]
  refine .look fun start => .expect rfl (.eatYes rfl (readsNamed named fun _ => ?_))
  refine .bind (readsParams each) fun ps' same => .expectLast rfl (.spanFrom fun span' => ?_)
  simp only [beq_iff_eq, other, if_false]
  refine .pure ?_
  simpa [Alike, bare] using same

theorem negativeKeyWritten : isWritten "nopats" := by
  rw [isWritten]
  rfl

theorem negativeWords : (Piece.text "\x7b:nopats ").words = [Word.of .leftBrace, Word.of .colon, nameWord "nopats"] := by
  have named : wordsOf [Piece.text "nopats"] = [nameWord "nopats"] := nameWords (n := "nopats") negativeKeyWritten
  rw [Layout.wordsOfCons, Layout.wordsOfNil, List.append_nil] at named
  rw [Layout.Flows.wordsJoined Layout.negativeChars Layout.flowsNegativeFront]
  simp [Layout.negativeFront, named, textWords, Terminals.row, Spelling.kinds]

theorem readsTrigger {es : List Expr} (filled : es ≠ []) (each : ∀ e ∈ es, IsReread e) :
    Reads (wordsOf (Layout.trigger ⟨true, es, span⟩)) rest (Alike (.trigger ⟨true, es, span⟩)) (braced expression) := by
  have words : wordsOf (Layout.trigger ⟨true, es, span⟩) =
      Word.of .leftBrace :: (wordsOf (commaList (es.map Layout.expr)) ++ [Word.of .rightBrace]) := by
    simp [Layout.trigger, Layout.exprsMap, textWords, Terminals.row, Spelling.kinds]
  obtain ⟨e, es, rfl⟩ := List.exists_cons_of_ne_nil filled
  have starts := commaStarts (exprOpens (each e List.mem_cons_self)) es ([Word.of .rightBrace] ++ rest)
  rw [← List.append_assoc] at starts
  have noColon : headKind (wordsOf (commaList ((e :: es).map Layout.expr)) ++ [Word.of .rightBrace] ++ rest) ≠ .colon := by
    intro same
    rw [same] at starts
    exact absurd starts (by decide)
  rw [words]
  refine .look fun start => .expect rfl (.eatNo noColon (.ifYes starts ?_))
  refine .bind (readsExprs filled each (by decide : endsExpr .rightBrace) (by decide : Kind.rightBrace ≠ .comma))
    fun es' same => .expectLast rfl (.spanFrom fun span' => .pure ?_)
  simpa [Alike, bare] using same

theorem wordsNegative (e : Expr) :
    wordsOf (Layout.trigger ⟨false, [e], span⟩) = wordsOf (Layout.braced ⟨"nopats", [.expr e], span⟩) := by
  rw [wordsBraced negativeKeyWritten]
  simp [Layout.trigger, Layout.exprs, Layout.attributeParam, negativeWords, textWords, Terminals.row, Spelling.kinds]

theorem readsNegative {e : Expr} (ofE : IsReread e) (plain : opensWithString e = false) :
    Reads (wordsOf (Layout.trigger ⟨false, [e], span⟩)) rest (Alike (.trigger ⟨false, [e], span⟩)) (braced expression) := by
  have each : ∀ p ∈ [AttributeParam.expr e], IsParamReread p := by
    rintro p mem
    rw [List.mem_singleton.mp mem]
    exact ⟨nofun, fun _ same => AttributeParam.expr.inj same ▸ ofE, fun _ same => AttributeParam.expr.inj same ▸ plain⟩
  rw [wordsNegative, wordsBraced negativeKeyWritten]
  refine .look fun start => .expect rfl (.eatYes rfl (readsNamed negativeKeyWritten fun _ => ?_))
  refine .bind (readsParams each) fun ps' same => .expectLast rfl (.spanFrom fun span' => ?_)
  obtain ⟨e', rfl, ofE'⟩ := Like.onlyExpr (c := none) same
  have ofE' : Alike e e' := ofE'
  refine .pure ?_
  simpa [Alike, bare] using ofE'

end Groups

def IsAttributeReread (a : Attribute) : Prop :=
  ReadsBack (fun a => wordsOf (Layout.braced a)) (fun _ => True) (fun a found => Alike (Braced.keyed a) found)
    (braced expression) a

def IsTriggerReread (t : Trigger) : Prop :=
  ReadsBack (fun t => wordsOf (Layout.trigger t)) (fun _ => True) (fun t found => Alike (Braced.trigger t) found)
    (braced expression) t

theorem rereadAttribute {key : String} {ps : List AttributeParam} {span : Span} (here : printable.attr ⟨key, ps, span⟩)
    (named : isWritten key) (ofParams : ∀ e, .expr e ∈ ps → IsReread e) : IsAttributeReread ⟨key, ps, span⟩ := by
  obtain ⟨other, quotable, plain⟩ := here
  have each (p : AttributeParam) (mem : p ∈ ps) : IsParamReread p :=
    ⟨fun content same => quotable content (same ▸ mem), fun e same => ofParams e (same ▸ mem),
      fun e same => plain e (same ▸ mem)⟩
  exact fun rest _ => readsBraced named other each

theorem rereadTrigger {positive : Bool} {es : List Expr} {span : Span} (shaped : Trigger.isShaped ⟨positive, es, span⟩)
    (plain : Layout.isTriggerPlain ⟨positive, es, span⟩) (each : ∀ e ∈ es, IsReread e) :
    IsTriggerReread ⟨positive, es, span⟩ := by
  intro rest _
  cases positive with
  | true => exact readsTrigger shaped each
  | false =>
    obtain ⟨e, rfl⟩ := List.length_eq_one_iff.mp shaped
    exact readsNegative (each e (by simp)) (plain rfl e (by simp))

theorem alikeKeyed {a : Attribute} {found : Braced} (h : Alike (Braced.keyed a) found) :
    ∃ a', found = .keyed a' ∧ Alike a a' := by
  cases found with
  | keyed a' => exact ⟨a', rfl, by simpa [Alike, bare] using h⟩
  | trigger t => simp [Alike, bare] at h
  | mistake => exact absurd h nofun

theorem alikeSomes {α : Type} [Spanned α] {as : List α} {found : List (Option α)}
    (h : List.Forall₂ (fun a o => Alike (some a) o) as found) : Alike as (found.filterMap id) := by
  induction h with
  | nil => exact .nil
  | @cons a o as found one _ ih =>
    cases o with
    | none => exact absurd one nofun
    | some a' => exact .cons (Option.some.inj one) ih

section Lists

variable {as : List Attribute} {ts : List Trigger} {rest : List Word}

theorem wordsOfText {s : String} [l : Terminals s] {k : Kind} {ks : List Kind} (row : Spelling.kinds l.row = k :: ks)
    (ps : List Piece) : wordsOf (.text s :: ps) = Word.of k :: (ks.map Word.of ++ wordsOf ps) := by
  rw [Layout.wordsOfCons, textWords, row]
  rfl

theorem bracedOpens (a : Attribute) :
    ∃ w more, wordsOf (Layout.braced a) = w :: more ∧ (w.kind == .leftBrace) = true ∧ True := by
  obtain ⟨key, ps, span⟩ := a
  rw [Layout.braced]
  exact ⟨_, _, wordsOfText rfl _, rfl, trivial⟩

theorem triggerOpens (t : Trigger) :
    ∃ w more, wordsOf (Layout.trigger t) = w :: more ∧ (w.kind == .leftBrace) = true ∧ True := by
  obtain ⟨positive, es, span⟩ := t
  cases positive with
  | true => exact ⟨_, _, wordsOfText (s := "\x7b") rfl _, rfl, trivial⟩
  | false =>
    refine ⟨Word.of .leftBrace, [Word.of .colon, nameWord "nopats"] ++
      wordsOf (commaList (Layout.exprs es) ++ [.text "\x7d"]), ?_, rfl, trivial⟩
    simp [Layout.trigger, negativeWords]

theorem readsAttributeOnly {a : Attribute} (h : IsAttributeReread a) :
    Reads (wordsOf (Layout.braced a)) rest (fun found => Alike (some a) found) (attributeOnly expression) := by
  refine .last (h rest trivial) fun found same => ?_
  obtain ⟨a', rfl, alike⟩ := alikeKeyed same
  exact .unreported (.pure (congrArg some alike))

theorem readsAttributes (each : ∀ a ∈ as, IsAttributeReread a) (stops : headKind rest ≠ .leftBrace) :
    Reads (wordsOf (Layout.attributes as)) rest (Alike as) (attributes expression) := by
  rw [Layout.attributesSpaced, wordsSpaced]
  have moves : Progresses (fun k => (k == .leftBrace) = true) (attributeOnly expression) := .first .braced
  have one (a : Attribute) (mem : a ∈ as) : ReadsBack (fun a => wordsOf (Layout.braced a)) (fun _ => True)
      (fun a found => Alike (some a) found) (attributeOnly expression) a := fun _ _ => readsAttributeOnly (each a mem)
  exact .last (readsMany moves one (fun a _ => bracedOpens a) (beq_eq_false_iff_ne.mpr stops) trivial)
    fun found same => .pure (alikeSomes same)

def bodyGroups (as : List Attribute) (ts : List Trigger) : List Braced := as.map .keyed ++ ts.map .trigger

def printGroup : Braced → List Piece
  | .keyed a => Layout.braced a
  | .trigger t => Layout.trigger t
  | .mistake => []

theorem wordsGroups : wordsOf (Layout.attributes as ++ Layout.triggers ts) =
    (bodyGroups as ts).flatMap fun g => wordsOf (printGroup g) := by
  rw [Layout.wordsOfAppend, Layout.attributesSpaced, Layout.triggersSpaced, wordsSpaced, wordsSpaced, bodyGroups,
    List.flatMap_append, List.flatMap_map, List.flatMap_map]
  rfl

theorem readsGroups (ofAs : ∀ a ∈ as, IsAttributeReread a) (ofTs : ∀ t ∈ ts, IsTriggerReread t)
    (stops : headKind rest ≠ .leftBrace) :
    Reads (wordsOf (Layout.attributes as ++ Layout.triggers ts)) rest (Alike (as, ts)) (bracedGroups expression) := by
  have each : ∀ g ∈ bodyGroups as ts,
      ReadsBack (fun g => wordsOf (printGroup g)) (fun _ => True) Alike (braced expression) g := by
    refine List.forall_mem_append.mpr ⟨?_, ?_⟩
    · exact List.forall_mem_map.mpr fun a mem => ofAs a mem
    · exact List.forall_mem_map.mpr fun t mem => ofTs t mem
  have opens : ∀ g ∈ bodyGroups as ts,
      ∃ w more, wordsOf (printGroup g) = w :: more ∧ (w.kind == .leftBrace) = true ∧ True := by
    refine List.forall_mem_append.mpr ⟨?_, ?_⟩
    · exact List.forall_mem_map.mpr fun a _ => bracedOpens a
    · exact List.forall_mem_map.mpr fun t _ => triggerOpens t
  have keyed : (bodyGroups as ts).filterMap Braced.keyed? = as := by
    simp [bodyGroups, List.filterMap_append, Function.comp_def, Braced.keyed?]
  have triggers : (bodyGroups as ts).filterMap Braced.trigger? = ts := by
    simp [bodyGroups, List.filterMap_append, Function.comp_def, Braced.trigger?]
  rw [wordsGroups]
  refine .last (readsMany .braced each opens (beq_eq_false_iff_ne.mpr stops) trivial) fun found forall₂ => .pure ?_
  have same := alikeOfForall forall₂
  have ofKeyed := Alike.filterMap respanKeyed same
  have ofTriggers := Alike.filterMap respanTrigger same
  rw [keyed] at ofKeyed
  rw [triggers] at ofTriggers
  exact Prod.ext ofKeyed ofTriggers

end Lists

def endsGroup (k : Kind) : Prop := endsType k ∧ endsExpr k ∧ k ≠ .kwWhere

instance : DecidablePred endsGroup := fun k =>
  inferInstanceAs (Decidable (endsType k ∧ endsExpr k ∧ k ≠ .kwWhere))

section Variables

variable {n : String} {type : Ty} {whereClause : Option Expr} {as : List Attribute} {span : Span} {role : GroupRole}
  {rest : List Word}

theorem readsWhere (allowed : whereClause ≠ none → role.allowsWhere = true) (ofWhere : ∀ e ∈ whereClause, IsReread e)
    (ends : endsGroup (headKind rest)) :
    Reads (wordsOf (Layout.optionalWhere whereClause)) rest (Alike whereClause) (optionalWhere expression role) := by
  cases whereClause with
  | none => exact .eatNo ends.2.2 (.pure rfl)
  | some e =>
    have words : wordsOf (Layout.optionalWhere (some e)) = Word.of .kwWhere :: wordsOf (Layout.expr e) := by
      simp [Layout.optionalWhere, textWords, Terminals.row, Spelling.kinds]
    rw [words]
    refine .eatYes rfl (.last (readsExpr (ofWhere e rfl) ends.2.1) fun a same => ?_)
    rw [if_pos (allowed (Option.some_ne_none e))]
    exact .pure (congrArg some same)

def typedWords (n : String) (type : Ty) (whereClause : Option Expr) : List Word :=
  nameWord n :: Word.of .colon :: (wordsOf (Layout.ty type) ++ wordsOf (Layout.optionalWhere whereClause))

theorem endsTypeWhere (ends : endsGroup (headKind rest)) :
    endsType (headKind (wordsOf (Layout.optionalWhere whereClause) ++ rest)) := by
  cases whereClause with
  | none => exact ends.1
  | some e =>
    rw [Layout.optionalWhere, wordsOfText rfl]
    exact (by decide : endsType .kwWhere)

theorem readsTypedGroup {found : List Attribute} (alike : Alike as found) (named : isWritten n)
    (ofType : every printable type) (allowed : whereClause ≠ none → role.allowsWhere = true)
    (ofWhere : ∀ e ∈ whereClause, IsReread e) (ends : endsGroup (headKind rest)) :
    Reads (typedWords n type whereClause) rest (Alike [⟨n, type, whereClause, as, span⟩])
      (typedGroup expression role found) := by
  refine readsOneName named span nofun fun ids same => .expect rfl (.bind (readsTy type ofType _ (endsTypeWhere ends))
    fun type' ofType' => .last (readsWhere allowed ofWhere ends) fun where' ofWhere' => .pure ?_)
  have each (id id' : Ident) (ofId : Alike id id') : Alike (⟨id.name, type, whereClause, as, id.span⟩ : Variable)
      ⟨id'.name, type', where', found, id'.span⟩ := by
    simp_all [Alike, bare, ofId.nameEq]
  exact Alike.map each same

theorem readsAttributedGroup (ofAs : ∀ a ∈ as, IsAttributeReread a) (taken : role.allowsAttributes = true ∨ as = [])
    (named : isWritten n) (ofType : every printable type) (allowed : whereClause ≠ none → role.allowsWhere = true)
    (ofWhere : ∀ e ∈ whereClause, IsReread e) (ends : endsGroup (headKind rest)) :
    Reads (wordsOf (Layout.attributes as) ++ typedWords n type whereClause) rest
      (Alike [⟨n, type, whereClause, as, span⟩]) (attributedGroup expression role) := by
  refine .bind (readsAttributes ofAs (by decide : Kind.identifier ≠ .leftBrace)) fun found same => ?_
  have fine : (!role.allowsAttributes && !found.isEmpty) = false := by
    rcases taken with takes | rfl
    · simp [takes]
    · simp [← same.isEmptyEq]
  rw [fine]
  exact readsTypedGroup same named ofType allowed ofWhere ends

theorem readsVariableDecl (ofAs : ∀ a ∈ as, IsAttributeReread a) (named : isWritten n) (ofType : every printable type)
    (allowed : role.allowsWhere = true) (ofWhere : ∀ e ∈ whereClause, IsReread e) :
    Reads (wordsOf (Layout.variableDecl ⟨n, type, whereClause, as, span⟩)) rest
      (Alike [⟨n, type, whereClause, as, span⟩]) (variableDecl expression role) := by
  have words : wordsOf (Layout.variableDecl ⟨n, type, whereClause, as, span⟩) = Word.of .kwVar ::
      (wordsOf (Layout.attributes as) ++ (typedWords n type whereClause ++ [Word.of .semicolon])) := by
    simp [Layout.variableDecl, typedWords, nameWords named, textWords, Terminals.row, Spelling.kinds]
  rw [words]
  refine .expect rfl (.bind (readsAttributes ofAs (by decide : Kind.identifier ≠ .leftBrace)) fun found same => ?_)
  have group : Reads (typedWords n type whereClause) (Word.of .semicolon :: rest)
      (Alike [⟨n, type, whereClause, as, span⟩]) (typedGroup expression role found) :=
    readsTypedGroup same named ofType (fun _ => allowed) ofWhere (by decide : endsGroup .semicolon)
  refine .bind (.one group (by decide : Kind.semicolon ≠ .comma)) ?_
  rintro _ ⟨vs, _, rfl, ofVs, rfl⟩
  refine .expectLast rfl (.pure ?_)
  simpa using ofVs

structure IsVariableReread (v : Variable) : Prop where
  opens : ∃ w more, wordsOf (Layout.boundVariable v) = w :: more ∧ groupStart.contains w.kind = true
  bound : v.whereClause = none → ReadsBack (fun v => wordsOf (Layout.boundVariable v)) endsGroup (fun v vs => Alike [v] vs)
    (attributedGroup expression .boundVariables) v
  declared : ∀ role : GroupRole, role.allowsWhere = true →
    ReadsBack (fun v => wordsOf (Layout.variableDecl v)) (fun _ => True) (fun v vs => Alike [v] vs)
      (variableDecl expression role) v

theorem wordsBoundVariable (named : isWritten n) : wordsOf (Layout.boundVariable ⟨n, type, whereClause, as, span⟩) =
    wordsOf (Layout.attributes as) ++ typedWords n type none := by
  simp [Layout.boundVariable, Layout.optionalWhere, typedWords, nameWords named, textWords, Terminals.row, Spelling.kinds]

theorem attributesOpen {p : Kind → Bool} {ws : List Word} (brace : p .leftBrace = true)
    (behind : ∃ w more, ws = w :: more ∧ p w.kind = true) :
    ∃ w more, wordsOf (Layout.attributes as) ++ ws = w :: more ∧ p w.kind = true := by
  cases as with
  | nil => exact behind
  | cons a as =>
    obtain ⟨w, more, same, opened, _⟩ := bracedOpens a
    refine ⟨w, more ++ wordsOf (Layout.attributes as) ++ ws, ?_, ?_⟩
    · simp [Layout.attributes, same]
    · rw [beq_iff_eq.mp opened, brace]

theorem rereadVariable (named : isWritten n) (ofType : every printable type) (ofWhere : ∀ e ∈ whereClause, IsReread e)
    (ofAs : ∀ a ∈ as, IsAttributeReread a) : IsVariableReread ⟨n, type, whereClause, as, span⟩ where
  opens := by
    rw [wordsBoundVariable named]
    exact attributesOpen (by decide) ⟨_, _, rfl, (by decide : groupStart.contains .identifier = true)⟩
  bound := by
    rintro rfl rest ends
    dsimp only
    rw [wordsBoundVariable named]
    exact readsAttributedGroup ofAs (.inl rfl) named ofType (absurd rfl) (by simp) ends
  declared _ allowed _ _ := readsVariableDecl ofAs named ofType allowed ofWhere

end Variables

theorem alikeJoined {α : Type} [Spanned α] {as : List α} {found : List (List α)}
    (h : List.Forall₂ (fun a bs => Alike [a] bs) as found) : Alike as found.flatten := by
  induction h with
  | nil => exact .nil
  | cons one _ ih => exact Alike.append one ih

section Lists

variable {vs : List Variable} {rest : List Word}

theorem readsBoundVariables (filled : vs ≠ []) (each : ∀ v ∈ vs, IsVariableReread v)
    (plain : ∀ v ∈ vs, v.whereClause = none) (ends : endsGroup (headKind rest)) (stops : headKind rest ≠ .comma) :
    Reads (wordsOf (commaList (vs.map Layout.boundVariable))) rest (Alike vs)
      (attributedGroups expression .boundVariables) :=
  .commute (readsComma filled (fun v mem => (each v mem).bound (plain v mem)) (by decide : endsGroup .comma) stops ends)
    fun _ => alikeJoined

theorem readsLocals (each : ∀ v ∈ vs, IsVariableReread v) (stops : headKind rest ≠ .kwVar) :
    Reads (vs.flatMap fun v => wordsOf (Layout.variableDecl v)) rest (Alike vs) (localVariables expression) := by
  have opens (v : Variable) (_ : v ∈ vs) :
      ∃ w more, wordsOf (Layout.variableDecl v) = w :: more ∧ (w.kind == .kwVar) = true ∧ True := by
    obtain ⟨n, type, whereClause, as, span⟩ := v
    rw [Layout.variableDecl]
    exact ⟨_, _, wordsOfText rfl _, rfl, trivial⟩
  have declared (v : Variable) (mem : v ∈ vs) := (each v mem).declared .localVariables rfl
  exact .commute (readsMany .variableDecl declared opens (beq_eq_false_iff_ne.mpr stops) trivial) fun _ => alikeJoined

end Lists

end Boogie.Grammar
