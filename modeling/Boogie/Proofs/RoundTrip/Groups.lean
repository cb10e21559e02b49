import Boogie.Proofs.RoundTrip.Program

/-! Attributes and negative triggers, printed and read again. A parameter is read as a string where its first token is
one, and an expression may be printed with a string first: so a group is read back just if no expression among its
parameters is. -/
namespace Boogie

open Token (Kind Word scan)
open Layout (wordsOf commaList printable isWritten nameWord opensWithString isAttributePlain isTriggerPlain isQuotable)

namespace Grammar

/-! What is found at given words, whatever is behind them and wherever the reading ends. -/

def State.before (ws : List Word) : State :=
  let finish : Token := ⟨.endOfText, "", .nowhere, ⟨0, 0⟩⟩
  ⟨⟨finish, ws.map fun w => ⟨w.kind, String.ofList w.text, .nowhere, ⟨0, 0⟩⟩, finish, 0, []⟩, .ofText [], .empty "", 0⟩

theorem State.wordsBefore (ws : List Word) : (before ws).words = ws := by
  have each : (Token.word ∘ fun w : Word => ⟨w.kind, String.ofList w.text, .nowhere, ⟨0, 0⟩⟩) = id := by
    funext w
    simp [Token.word]
  simp [State.words, before, each]

def Leads {α : Type} (ws : List Word) (V : α → Prop) (m : Production α) : Prop :=
  ∀ s rest, s.isClosed → s.words = ws ++ rest → V (m.run s).1

namespace Leads

variable {α β : Type} {ws ws' : List Word} {w : Word} {k : Kind} {V : α → Prop} {W : β → Prop} {m : Production α}
  {f : α → Production β}

theorem bind (step : ∀ rest, Reads ws (ws' ++ rest) V m) (next : ∀ a, V a → Leads ws' W (f a)) :
    Leads (ws ++ ws') W (m >>= f) := by
  intro s rest closed words
  obtain ⟨found, after, _⟩ := step rest s closed (words.trans (List.append_assoc ws ws' rest))
  exact next _ found _ rest ((m.reaches s).isClosed closed) after

theorem more (h : Leads ws V m) : Leads (ws ++ ws') V m := fun s rest closed words =>
  h s (ws' ++ rest) closed (words.trans (List.append_assoc ws ws' rest))

theorem behind (step : Leads ws V m) (next : ∀ a, V a → ∀ s, W ((f a).run s).1) : Leads ws W (m >>= f) :=
  fun s rest closed words => next _ (step s rest closed words) _

theorem look {view : State → α} (next : ∀ a, Leads ws W (f a)) : Leads ws W (Production.read view >>= f) :=
  fun s rest closed words => next _ s rest closed words

theorem eatYes {f : Bool → Production β} (kind : w.kind = k) (next : Leads ws W (f true)) :
    Leads (w :: ws) W (Grammar.eat k >>= f) := by
  intro s rest closed words
  have here : s.kind = k := (State.kindOfWords closed words).trans kind
  rw [Production.runBind, runEatYes here]
  exact next _ rest closed (State.wordsCons words).2

theorem expect {f : Unit → Production β} (kind : w.kind = k) (next : Leads ws W (f ())) :
    Leads (w :: ws) W (Grammar.expect k >>= f) := by
  have step (rest : List Word) : Reads [w] rest (fun _ => True) (Grammar.expect k) := .eatYes kind (.pure trivial)
  exact bind (fun rest => step (ws ++ rest)) fun _ _ => next

theorem named {n : String} (written : isWritten n) {f : Ident → Production β} (next : ∀ span, Leads ws W (f ⟨n, span⟩)) :
    Leads (nameWord n :: ws) W (ident >>= f) := by
  have step (rest : List Word) : Reads [nameWord n] rest (fun id => ∃ span, id = ⟨n, span⟩) (ident >>= Pure.pure) :=
    readsNamed written fun span => .pure ⟨span, rfl⟩
  rw [bind_pure] at step
  refine bind (fun rest => step (ws ++ rest)) ?_
  rintro _ ⟨span, rfl⟩
  exact next span

theorem ifYes {p : Kind → Bool} {yes no : Production α} (holds : ∀ rest, p (headKind (ws ++ rest)) = true)
    (next : Leads ws V yes) : Leads ws V (nextIs p >>= fun b => if b = true then yes else no) := by
  intro s rest closed words
  have here : p s.kind = true := by
    rw [State.kindOfWords closed words]
    exact holds rest
  simpa [here] using next s rest closed words

theorem meets {V' : α → Prop} (leads : Leads ws V m) (reads : Reads ws [] V' m) : ∃ a, V a ∧ V' a := by
  have closed : (State.before ws).isClosed := rfl
  have words : (State.before ws).words = ws ++ [] := by rw [State.wordsBefore, List.append_nil]
  exact ⟨_, leads _ [] closed words, (reads _ closed words).1⟩

end Leads

section Parameters

variable {e : Expr} {pre post : List AttributeParam}

theorem leadsString {w : Word} (string : w.kind = .string) (ws : List Word) :
    Leads (w :: ws) (fun p => ∃ content, p = .string content) (attributeParam expression) := by
  intro s rest closed words
  have here : s.kind = .string := (State.kindOfWords closed words).trans string
  simp [attributeParam, check, nextIs, here]

theorem wordsCommaBehind {p : AttributeParam} {ps : List AttributeParam} (filled : ps ≠ []) :
    wordsOf (commaList ((p :: ps).map Layout.attributeParam)) =
      wordsOf (Layout.attributeParam p) ++ Word.of .comma :: wordsOf (commaList (ps.map Layout.attributeParam)) := by
  cases ps with
  | nil => contradiction
  | cons q ps => rw [wordsComma, wordsComma, List.flatMap_cons, List.cons_append]

theorem leadsParams (each : ∀ p ∈ pre, IsParamReread p) (ofE : IsReread e) (opens : opensWithString e = true) :
    Leads (wordsOf (commaList ((pre ++ .expr e :: post).map Layout.attributeParam)))
      (fun ps => ∃ content, ps[pre.length]? = some (.string content)) (commaSeparated (attributeParam expression)) := by
  induction pre with
  | nil =>
    obtain ⟨w, more, same, _⟩ := exprOpens ofE
    have string : w.kind = .string := by
      have head := ofE.opening.mpr opens
      rwa [same] at head
    rw [List.nil_append, wordsComma, Layout.attributeParam, same]
    refine (leadsString string _).behind ?_
    rintro p ⟨content, found⟩ s
    exact ⟨content, by simp [found]⟩
  | cons p pre ih =>
    obtain ⟨first, others⟩ := List.forall_mem_cons.mp each
    have filled : pre ++ AttributeParam.expr e :: post ≠ [] := List.append_ne_nil_of_right_ne_nil _ (List.cons_ne_nil _ _)
    rw [List.cons_append, wordsCommaBehind filled]
    refine .bind (fun rest => readsParam first (by decide : endsExpr .comma)) fun p' _ => ?_
    have more : Leads (Word.of .comma :: wordsOf (commaList ((pre ++ .expr e :: post).map Layout.attributeParam)))
        (fun ps => ∃ content, ps[pre.length]? = some (.string content)) (many (eat .comma) (attributeParam expression)) := by
      intro s rest closed words
      have here : s.kind = .comma := State.kindOfWords closed words
      rw [manyAtMark (by decide) closed here]
      exact ih others s.advance rest closed (State.wordsCons words).2
    refine more.behind ?_
    rintro ps ⟨content, found⟩ s
    exact ⟨content, by simpa using found⟩

theorem leadsBraced {key : String} {span : Span} (named : isWritten key) (each : ∀ p ∈ pre, IsParamReread p)
    (ofE : IsReread e) (opens : opensWithString e = true) :
    Leads (wordsOf (Layout.braced ⟨key, pre ++ .expr e :: post, span⟩)) (fun found => (∀ t, found ≠ .trigger t) ∧
      ∀ a, found = .keyed a → ∃ content, a.params[pre.length]? = some (.string content)) (braced expression) := by
  have starts (rest : List Word) : exprStart.contains (headKind (wordsOf
      (commaList ((pre ++ .expr e :: post).map Layout.attributeParam)) ++ [Word.of .rightBrace] ++ rest)) = true := by
    rw [List.append_assoc]
    cases pre with
    | nil =>
      have first : ∃ w more, wordsOf (Layout.attributeParam (.expr e)) = w :: more ∧ exprStart.contains w.kind = true :=
        exprOpens ofE
      exact commaStarts first post _
    | cons p pre => exact commaStarts (paramOpens (each p List.mem_cons_self)) (pre ++ .expr e :: post) _
  rw [wordsBraced named]
  refine .look fun start => .expect rfl (.eatYes rfl (.named named fun span' => ?_))
  refine .behind (.ifYes starts (leadsParams each ofE opens).more) ?_
  rintro ps ⟨content, found⟩ s
  simp only [Production.runBind]
  split
  · split
    · cases pre <;> simp at found
    · exact ⟨nofun, nofun⟩
  · refine ⟨nofun, fun a same => ⟨content, ?_⟩⟩
    cases same
    exact found

end Parameters

section Groups

variable {key : String} {params : List AttributeParam} {span : Span}

def beginsWithString : AttributeParam → Bool
  | .string _ => false
  | .expr e => opensWithString e

theorem splitParam (mixed : ¬ isAttributePlain ⟨key, params, span⟩) : ∃ pre e post, params = pre ++ .expr e :: post ∧
    opensWithString e = true ∧ ∀ x, .expr x ∈ pre → opensWithString x = false := by
  obtain ⟨x, mem, opens⟩ : ∃ x, .expr x ∈ params ∧ opensWithString x = true := by
    simpa [isAttributePlain] using mixed
  have begun : beginsWithString (.expr x) = true := opens
  obtain ⟨p, first⟩ := Option.isSome_iff_exists.mp (List.find?_isSome.mpr ⟨_, mem, begun⟩)
  obtain ⟨begins, pre, post, whole, before⟩ := List.find?_eq_some_iff_append.mp first
  cases p with
  | string content => exact absurd begins nofun
  | expr e => exact ⟨pre, e, post, whole, begins, fun y inside => by simpa [beginsWithString] using before _ inside⟩

theorem paramKept {a a' : Attribute} (same : Alike a a') {i : Nat} {e : Expr} (found : a.params[i]? = some (.expr e))
    (content : String) : a'.params[i]? ≠ some (.string content) := by
  obtain ⟨key, params, span⟩ := a
  obtain ⟨key', params', span'⟩ := a'
  have parts : bare params = bare params' := by
    simp only [Alike, bare, Attribute.respanMk] at same
    exact congrArg Attribute.params same
  intro other
  have at_ := congrArg (·[i]?) parts
  simp [bare, respanList, found, other] at at_

theorem attributeRereadIff (shaped : Attribute.isShaped ⟨key, params, span⟩) (named : isWritten key)
    (quotable : ∀ content, .string content ∈ params → isQuotable content) (ofParams : ∀ e, .expr e ∈ params → IsReread e) :
    IsAttributeReread ⟨key, params, span⟩ ↔ isAttributePlain ⟨key, params, span⟩ := by
  refine ⟨fun reread => ?_, fun plain => rereadAttribute ⟨shaped, quotable, plain⟩ named ofParams⟩
  by_contra mixed
  obtain ⟨pre, e, post, rfl, opens, before⟩ := splitParam mixed
  have each (p : AttributeParam) (mem : p ∈ pre) : IsParamReread p :=
    ⟨fun content same => quotable content (same ▸ List.mem_append_left _ mem),
      fun x same => ofParams x (same ▸ List.mem_append_left _ mem), fun x same => before x (same ▸ mem)⟩
  have ofE : IsReread e := ofParams e (List.mem_append_right _ List.mem_cons_self)
  obtain ⟨found, ⟨_, keyed⟩, same⟩ := (leadsBraced named each ofE opens).meets (reread [] trivial)
  obtain ⟨a', rfl, alike⟩ := alikeKeyed same
  obtain ⟨content, other⟩ := keyed a' rfl
  have here : (pre ++ AttributeParam.expr e :: post)[pre.length]? = some (.expr e) := by simp
  exact paramKept alike here content other

theorem alikeTrigger {t : Trigger} {found : Braced} (h : Alike (Braced.trigger t) found) : ∃ t', found = .trigger t' := by
  cases found with
  | trigger t' => exact ⟨t', rfl⟩
  | keyed a => simp [Alike, bare] at h
  | mistake => exact absurd h nofun

theorem triggerRereadIff {e : Expr} (ofE : IsReread e) :
    IsTriggerReread ⟨false, [e], span⟩ ↔ isTriggerPlain ⟨false, [e], span⟩ := by
  have each : ∀ x ∈ [e], IsReread x := fun x mem => List.mem_singleton.mp mem ▸ ofE
  refine ⟨fun reread => ?_, fun plain => rereadTrigger List.length_singleton plain each⟩
  rintro - x mem
  rw [List.mem_singleton.mp mem]
  by_contra begins
  have opens : opensWithString e = true := by simpa using begins
  have none : ∀ p ∈ ([] : List AttributeParam), IsParamReread p := nofun
  have leads : Leads (wordsOf (Layout.braced ⟨"nopats", [] ++ .expr e :: [], span⟩)) _ _ :=
    leadsBraced negativeKeyWritten none ofE opens
  rw [List.nil_append, ← wordsNegative] at leads
  obtain ⟨found, ⟨other, _⟩, same⟩ := leads.meets (reread [] trivial)
  obtain ⟨t', rfl⟩ := alikeTrigger same
  exact other t' rfl

end Groups

end Grammar

open Grammar (Scope IsAttributeReread IsTriggerReread IsReread)

/-- A group is read back just if it is read as what it is, given that those within it are. -/
def groupsTold : Checks where
  name _ := True
  ty _ := True
  expr _ := True
  attr a := (∀ e, .expr e ∈ a.params → every plain e) → (IsAttributeReread a ↔ isAttributePlain a)
  trigger t := t.positive = false → (∀ e ∈ t.exprs, every plain e) → (IsTriggerReread t ↔ isTriggerPlain t)
  cmd _ := True
  block _ := True
  tail _ := True
  stmtList _ := True
  decl _ := True

theorem exprReread {text : List Char} (short : text.length < Text.wordCount 31) {e : Expr}
    (built : every (Scope.built ⟨(scan text).terminals, True⟩) e) (apart : every plain e) : IsReread e :=
  Grammar.rereadExpr (Expr.both (builtAndPlainImplyPrintable short) e built apart)

theorem builtImpliesGroupsTold {text : List Char} (short : text.length < Text.wordCount 31) :
    (Scope.built ⟨(scan text).terminals, True⟩).Together (Scope.built ⟨(scan text).terminals, True⟩) groupsTold where
  name _ _ _ := trivial
  ty _ _ _ _ := trivial
  expr _ _ _ _ := trivial
  attr := by
    rintro ⟨key, params, span⟩ ⟨⟨shaped, read⟩, named, inside⟩ - apart
    refine Grammar.attributeRereadIff shaped (Layout.writtenOfNamed (named trivial)) (fun content mem => ?_) fun e mem => ?_
    · obtain ⟨t, inText, kind, rfl⟩ := read _ mem
      exact Layout.quotableOfToken inText kind
    · exact exprReread short ((AttributeParam.allPassIff _ params).mp inside _ mem) (apart e mem)
  trigger := by
    rintro ⟨positive, exprs, span⟩ ⟨shaped, inside⟩ - negative apart
    cases negative
    obtain ⟨e, rfl⟩ := List.length_eq_one_iff.mp shaped
    exact Grammar.triggerRereadIff (exprReread short inside.1 (apart e List.mem_cons_self))
  cmd _ _ _ := trivial
  block _ _ _ := trivial
  tail _ _ _ := trivial
  stmtList _ _ _ := trivial
  decl _ _ _ := trivial

/-- In a program that is given, an attribute or a negative trigger is read back wherever it stands just if none of its
expressions is printed with a string first; where none of any group is, every group is read back in its place. -/
theorem groupsSurvive {file source : String} {defines : List String} {p : Program}
    (short : byteLength source.toList < Text.wordCount 31) (found : p ∈ (Reading.ofSource file source defines).program) :
    every groupsTold p ∧ (every plain p.printed → ∀ log, (scan p.text.toList).faulty = [] ∧
      ∃ p', Reading.ofTokens (scan p.text.toList) p.text.toList log = (p', log) ∧ bare p' = bare p.printed) := by
  have inside : (Reading.selected source defines).text.length < Text.wordCount 31 :=
    Nat.lt_of_le_of_lt (Reading.selectedLength source defines) short
  have built := builtOfAccepted found
  refine ⟨p.both (builtImpliesGroupsTold inside) built built, fun apart log => ?_⟩
  obtain ⟨clean, p', read, same, _⟩ := acceptedReread short found apart log
  exact ⟨clean, p', read, same⟩

theorem attributedFormalSurvives : ∃ p ∈ (Reading.ofSource "" attributedFormal []).program,
    byteLength attributedFormal.toList < Text.wordCount 31 ∧ every groupsTold p ∧ every plain p.printed ∧
      (scan p.text.toList).faulty = [] ∧
        ∃ p', Reading.ofTokens (scan p.text.toList) p.text.toList (.empty "") = (p', .empty "") ∧
          bare p' = bare p.printed := by
  obtain ⟨p, found, shape⟩ := attributedFormalRead
  have short : byteLength attributedFormal.toList < Text.wordCount 31 := by decide
  have apart : every stringsApart p.printed := everyPrinted (fun _ _ => trivial) (attributedFormalApart shape)
  have ofGroups : every plain p.printed := Program.imp stringsApartImpliesPlain _ apart
  obtain ⟨told, reread⟩ := groupsSurvive short found
  exact ⟨p, found, short, told, ofGroups, reread ofGroups (.empty "")⟩

/-- An expression that is printed with a string first, where it was written in parentheses. -/
def stringCompared : String := "axiom \x7b:a (\"x\" == y)\x7d true;"

theorem comparedStringLost : ∃ p ∈ (Reading.ofSource "" stringCompared []).program,
    (Reading.ofTokens (scan p.text.toList) p.text.toList (.empty "")).2.hasErrors = true := by
  have lost : ((Reading.ofSource "" stringCompared []).program.any fun p =>
    (Reading.ofTokens (scan p.text.toList) p.text.toList (.empty "")).2.hasErrors) = true := by decide +kernel
  exact (Option.any_eq_true _ _).mp lost

end Boogie
