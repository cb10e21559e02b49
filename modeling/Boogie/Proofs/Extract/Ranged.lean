import Boogie.Proofs.Derived.Ty
import Boogie.Proofs.Extract.Tree
import Boogie.Proofs.Reread.Operands

/-! Where bit ranges stand. In words that are read without a mistake a colon in front of digits is that of the
bounds of an extract, which stand between brackets alone; what is found holds an extract for each of them.
Each rule here takes that through one step of a production. -/
namespace Boogie.Grammar

open Token (Kind Word)

/-- The words are those of bounds, each between brackets, and of others among which no colon stands in front of
digits. -/
inductive Ranged : List Word → Multiset (Nat × Nat) → Prop
  | nil : Ranged [] 0
  | word {w ws ranges} (other : w.kind ≠ .colon) (more : Ranged ws ranges) : Ranged (w :: ws) ranges
  | colon {text w ws ranges} (other : w.kind ≠ .digits) (more : Ranged (w :: ws) ranges) :
      Ranged (⟨.colon, text⟩ :: w :: ws) ranges
  | bracket {opened inner closed ws ranges upper lower} (bounds : IsRange inner upper lower)
      (more : Ranged ws ranges) :
      Ranged (⟨.leftBracket, opened⟩ :: (inner ++ ⟨.rightBracket, closed⟩ :: ws)) ((upper, lower) ::ₘ ranges)

namespace Ranged

variable {ws ws' : List Word} {w : Word} {ranges ranges' : Multiset (Nat × Nat)}

theorem append (h : Ranged ws ranges) (h' : Ranged ws' ranges') : Ranged (ws ++ ws') (ranges + ranges') := by
  induction h with
  | nil => simpa using h'
  | word other _ ih => exact .word other ih
  | colon other _ ih => exact .colon other ih
  | bracket bounds _ ih =>
    rw [Multiset.cons_add, List.cons_append, List.append_assoc]
    exact .bracket bounds ih

theorem one (other : w.kind ≠ .colon) : Ranged [w] 0 := .word other .nil

theorem plain (other : ∀ w ∈ ws, w.kind ≠ .colon) : Ranged ws 0 := by
  induction ws with
  | nil => exact .nil
  | cons w ws ih => exact .word (other w List.mem_cons_self) (ih fun x mem => other x (.tail _ mem))

end Ranged

theorem IsNumber.noColon {ws : List Word} {n : Nat} (h : IsNumber ws n) : ∀ w ∈ ws, w.kind ≠ .colon := by
  induction h with
  | digits => simp
  | paren _ ih => simpa [or_imp, forall_and] using ih

theorem IsRange.split {inner before after : List Word} {upper lower : Nat} (h : IsRange inner upper lower) {colon : Word}
    (is : colon.kind = .colon) (whole : inner = before ++ colon :: after) :
    ∃ digits, after = [digits] ∧ digits.kind = .digits ∧ IsNumber before upper := by
  obtain @⟨number, _, text, digits, _, first, _, _, _⟩ := h
  have plain := first.noColon
  obtain ⟨more, rfl, rest⟩ | ⟨more, rfl, rest⟩ := List.append_eq_append_iff.mp whole
  · cases more with
    | nil =>
      obtain ⟨_, rfl⟩ := List.cons.inj rest
      exact ⟨_, rfl, rfl, by simpa using first⟩
    | cons w more =>
      obtain ⟨_, last⟩ := List.cons.inj rest
      cases more with
      | nil =>
        obtain ⟨rfl, _⟩ := List.cons.inj last
        exact absurd is nofun
      | cons w more => simp at last
  · cases more with
    | nil =>
      obtain ⟨_, rfl⟩ := List.cons.inj rest
      exact ⟨_, rfl, rfl, by simpa using first⟩
    | cons w more =>
      obtain ⟨rfl, _⟩ := List.cons.inj rest
      exact absurd is (plain _ (by simp))

theorem Ranged.around {before after : List Word} {colon digits : Word} {ranges : Multiset (Nat × Nat)}
    (isColon : colon.kind = .colon) (isDigits : digits.kind = .digits)
    (h : Ranged (before ++ colon :: digits :: after) ranges) :
    ∃ before' opened number closed after' upper lower, before = before' ++ ⟨.leftBracket, opened⟩ :: number ∧
      after = ⟨.rightBracket, closed⟩ :: after' ∧ IsRange (number ++ [colon, digits]) upper lower ∧
      (upper, lower) ∈ ranges := by
  generalize whole : before ++ colon :: digits :: after = ws at h
  induction h generalizing before with
  | nil => simp at whole
  | word other _ ih =>
    cases before with
    | nil =>
      obtain ⟨rfl, _⟩ := List.cons.inj whole
      exact absurd isColon other
    | cons w before =>
      obtain ⟨rfl, rest⟩ := List.cons.inj whole
      obtain ⟨before', opened, number, closed, after', upper, lower, rfl, found⟩ := ih rest
      exact ⟨w :: before', opened, number, closed, after', upper, lower, rfl, found⟩
  | colon other _ ih =>
    cases before with
    | nil =>
      obtain ⟨_, rest⟩ := List.cons.inj whole
      obtain ⟨rfl, _⟩ := List.cons.inj rest
      exact absurd isDigits other
    | cons w before =>
      obtain ⟨rfl, rest⟩ := List.cons.inj whole
      obtain ⟨before', opened, number, closed, after', upper, lower, rfl, found⟩ := ih rest
      exact ⟨_ :: before', opened, number, closed, after', upper, lower, rfl, found⟩
  | @bracket opened inner closed ws ranges upper lower bounds _ ih =>
    cases before with
    | nil =>
      obtain ⟨rfl, _⟩ := List.cons.inj whole
      exact absurd isColon nofun
    | cons w before =>
      obtain ⟨rfl, rest⟩ := List.cons.inj whole
      obtain ⟨more, rfl, tail⟩ | ⟨more, rfl, tail⟩ := List.append_eq_append_iff.mp rest
      · -- the colon is that of these bounds
        cases more with
        | nil =>
          obtain ⟨rfl, _⟩ := List.cons.inj tail
          exact absurd isColon nofun
        | cons w more =>
          obtain ⟨rfl, others⟩ := List.cons.inj tail
          obtain ⟨last, rfl, _, number⟩ := bounds.split isColon rfl
          obtain ⟨rfl, behind⟩ := List.cons.inj others
          exact ⟨[], opened, before, closed, ws, upper, lower, rfl, behind, bounds, Multiset.mem_cons_self _ _⟩
      · cases more with
        | nil =>
          obtain ⟨rfl, _⟩ := List.cons.inj tail
          exact absurd isColon nofun
        | cons w more =>
          obtain ⟨rfl, others⟩ := List.cons.inj tail
          obtain ⟨before', opened', number, closed', after', upper', lower', rfl, same, range, mem⟩ := ih others.symm
          exact ⟨⟨.leftBracket, opened⟩ :: (inner ++ ⟨.rightBracket, closed⟩ :: before'), opened', number, closed',
            after', upper', lower', by simp, same, range, Multiset.mem_cons_of_mem mem⟩

namespace DerivesType

variable {p : TypePhrase} {ws : List Word} {tree : p.Tree}

theorem noColon (h : DerivesType p ws tree) : ∀ w ∈ ws, w.kind ≠ .colon := by
  induction h <;> simp_all [or_imp]

theorem ranged (h : DerivesType p ws tree) : Ranged ws 0 := .plain h.noColon

theorem colonRanged {text : List Char} {t : Ty} (h : DerivesType .type ws t) : Ranged (⟨.colon, text⟩ :: ws) 0 := by
  obtain ⟨w, more, rfl, first⟩ := h.begins.resolve_left nofun
  refine .colon ?_ h.ranged
  rintro same
  rw [same] at first
  exact absurd first (by decide)

end DerivesType

def Loose (ws : List Word) (ranges : Multiset (Nat × Nat)) : Prop :=
  ∀ ws' ranges', Opens (· != .digits) ws' → Ranged ws' ranges' →
    Opens (· != .digits) (ws ++ ws') ∧ Ranged (ws ++ ws') (ranges + ranges')

namespace Loose

variable {ws ws' : List Word} {ranges ranges' : Multiset (Nat × Nat)}

theorem nil : Loose [] 0 := fun _ _ opens h => ⟨opens, by simpa using h⟩

theorem append (h : Loose ws ranges) (h' : Loose ws' ranges') : Loose (ws ++ ws') (ranges + ranges') := by
  intro ws'' ranges'' opens more
  obtain ⟨opens', more'⟩ := h' ws'' ranges'' opens more
  rw [List.append_assoc, add_assoc]
  exact h _ _ opens' more'

theorem ofRanged (h : Ranged ws ranges) (head : headKind ws ≠ .digits) : Loose ws ranges := by
  intro ws' ranges' opens h'
  refine ⟨?_, h.append h'⟩
  cases ws with
  | nil => exact opens
  | cons w ws => exact ⟨w, _, rfl, by simpa using head⟩

theorem label {name colon : List Char} : Loose [⟨.identifier, name⟩, ⟨.colon, colon⟩] 0 := by
  rintro _ ranges' ⟨w, ws', rfl, other⟩ h'
  rw [zero_add]
  exact ⟨⟨_, _, rfl, rfl⟩, .word nofun (.colon (by simpa using other) h')⟩

end Loose

section Rules

variable {α β : Type} [Extracting α] [Extracting β] {n : Nat} {sort : Kind → Prop}
  {kept kept' : Multiset (Nat × Nat)} {ws ws' : List Word}

def Within (kept : Multiset (Nat × Nat)) (ws : List Word) (a : α) : Prop :=
  ∃ ranges, Ranged ws ranges ∧ kept + ranges ≤ extracts a

theorem Within.nil {a : α} (enough : kept ≤ extracts a) : Within kept [] a := ⟨0, .nil, by simpa using enough⟩

theorem Within.less {a : α} (h : Within kept ws a) (fewer : kept' ≤ kept) : Within kept' ws a := by
  obtain ⟨ranges, ranged, enough⟩ := h
  exact ⟨ranges, ranged, le_trans (add_le_add_left fewer ranges) enough⟩

theorem Within.put {ranges : Multiset (Nat × Nat)} {a : α} (first : Ranged ws ranges)
    (h : Within (kept + ranges) ws' a) : Within kept (ws ++ ws') a := by
  obtain ⟨ranges', ranged, enough⟩ := h
  exact ⟨_, first.append ranged, by rwa [← add_assoc]⟩

theorem Within.behind {a : α} (first : Ranged ws 0) (h : Within kept ws' a) : Within kept (ws ++ ws') a :=
  .put first (by rwa [add_zero])

theorem Within.word {w : Word} {a : α} (other : w.kind ≠ .colon) (h : Within kept ws a) :
    Within kept (w :: ws) a := .behind (.one other) h

def Tells (n : Nat) (sort : Kind → Prop) (kept : Multiset (Nat × Nat)) (m : Production α) : Prop :=
  Finds anywhere n sort (Within kept) m

namespace Tells

variable {m : Production α} {f : α → Production β}

theorem pure {a : α} (enough : kept ≤ extracts a) : Tells n sort kept (Pure.pure a) := Finds.pure (.nil enough)

theorem always (h : Tells n anywhere kept m) : Tells n sort kept m := Finds.always h

theorem look {γ : Type} {view : State → γ} {f : γ → Production β} (rest : ∀ a, Tells n sort kept (f a)) :
    Tells n sort kept (.read view >>= f) := Finds.look rest

theorem spanFrom {start : Span} {f : Span → Production β} (rest : ∀ span, Tells n sort kept (f span)) :
    Tells n sort kept (Grammar.spanFrom start >>= f) := Finds.spanFrom rest

theorem byKind {f : Kind → Production β} (h : ∀ x, sort x → Tells n (· = x) kept (f x)) :
    Tells n sort kept (currentKind >>= f) := Finds.byKind h

theorem ifNext {p : Kind → Bool} {yes no : Production β} (holds : Tells n (fun x => sort x ∧ p x = true) kept yes)
    (fails : Tells n (fun x => sort x ∧ p x = false) kept no) :
    Tells n sort kept (nextIs p >>= fun b => if b = true then yes else no) := Finds.ifNext holds fails

theorem fault {report : Production Unit} {f : Unit → Production β} (h : Faults report) :
    Tells n sort kept (report >>= f) := Finds.fault h

theorem given {report : Production Unit} {found : Bool} {f : Unit → Production β} (h : Faults report)
    (rest : found = false → Tells n sort kept (f ())) : Tells n sort kept (Grammar.given found report >>= f) :=
  Finds.given h rest

theorem less (h : Tells n sort kept m) (fewer : kept' ≤ kept) : Tells n sort kept' m :=
  Finds.weaken h fun _ _ found => found.less fewer

theorem bindSuch {P : α → Prop} (step : Finds anywhere n sort (fun ws a => Within 0 ws a ∧ P a) m)
    (rest : ∀ a, P a → Tells n anywhere (kept + extracts a) (f a)) : Tells n sort kept (m >>= f) := by
  refine Finds.bind step fun ws a ⟨⟨ranges, ranged, enough⟩, ofA⟩ => Finds.weaken (rest a ofA) fun ws' b found => ?_
  rw [zero_add] at enough
  exact .put ranged (found.less (add_le_add_right enough kept))

theorem bind (step : Tells n sort 0 m) (rest : ∀ a, Tells n anywhere (kept + extracts a) (f a)) :
    Tells n sort kept (m >>= f) := bindSuch (Finds.both step .any) fun a _ => rest a

theorem carry (step : Tells n sort kept m) (rest : ∀ a, Tells n anywhere (extracts a) (f a)) :
    Tells n sort kept (m >>= f) := by
  refine Finds.bind step fun ws a ⟨ranges, ranged, enough⟩ => Finds.weaken (rest a) fun ws' b found => ?_
  exact .put ranged (found.less enough)

theorem last {g : α → β} (step : Tells n sort 0 m) (enough : ∀ a, kept + extracts a ≤ extracts (g a)) :
    Tells n sort kept (do return g (← m)) := bind step fun a => pure (enough a)

theorem expect {x : Kind} {f : Unit → Production β} (mark : x ≠ .endOfText ∧ x ≠ .colon)
    (rest : Tells n anywhere kept (f ())) : Tells n sort kept (Grammar.expect x >>= f) :=
  Finds.expect mark.1 fun _ => Finds.weaken rest fun _ _ => .word mark.2

theorem expectThen {x : Kind} {f : Unit → Production β} (mark : x ≠ .endOfText ∧ x ≠ .colon)
    (rest : Tells n anywhere kept (f ())) : Tells (n + 1) sort kept (Grammar.expect x >>= f) :=
  Finds.expectThen mark.1 fun _ => Finds.weaken rest fun _ _ => .word mark.2

theorem eatAny {x : Kind} {f : Bool → Production β} (mark : x ≠ .endOfText ∧ x ≠ .colon)
    (rest : ∀ b, Tells n anywhere kept (f b)) : Tells n sort kept (Grammar.eat x >>= f) :=
  Finds.eat (k := n) mark.1 (fun _ => Finds.weaken (rest true) fun _ _ => .word mark.2) (rest false).always
    (Nat.le_succ n)

theorem ifEats {x : Kind} {yes no : Production β} (mark : x ≠ .endOfText ∧ x ≠ .colon)
    (holds : Tells n anywhere kept yes) (fails : Tells n anywhere kept no) :
    Tells n sort kept (Grammar.eat x >>= fun b => if b = true then yes else no) :=
  eatAny mark fun b => by cases b <;> assumption

theorem token {x : Kind} {f : Token → Production β} (mark : x ≠ .endOfText ∧ x ≠ .colon)
    (rest : ∀ t, Tells n anywhere kept (f t)) : Tells (n + 1) (· = x) kept (Grammar.advance >>= f) :=
  Finds.token (k := n) mark.1 (fun t _ => Finds.weaken (rest t) fun _ _ => .word mark.2) (Nat.le_refl _)

theorem identThen {f : Ident → Production β} (rest : ∀ id, Tells n anywhere kept (f id)) :
    Tells (n + 1) sort kept (Grammar.ident >>= f) :=
  Finds.ident fun _ span => Finds.weaken (rest ⟨_, span⟩) fun _ _ => .word nofun

theorem ident {f : Ident → Production β} (rest : ∀ id, Tells n anywhere kept (f id)) :
    Tells n sort kept (Grammar.ident >>= f) := Finds.mono (identThen rest) (fun _ h => h) (Nat.le_succ n)

theorem name : Tells n sort 0 Grammar.ident :=
  Finds.weaken findsIdent fun _ _ ⟨_, same, _⟩ => same ▸ .word nofun (.nil le_rfl)

theorem advance {f : Token → Production β} (mark : ∀ x, sort x → x ≠ .endOfText ∧ x ≠ .colon)
    (rest : ∀ t, sort t.kind → Tells n anywhere kept (f t)) : Tells n sort kept (Grammar.advance >>= f) := by
  refine Finds.bind (.advance fun x first => (mark x first).1) fun ws t ⟨same, first⟩ => ?_
  exact Finds.weaken (rest t first) fun _ _ found => by
    rw [same]
    exact .word (mark _ first).2 found

theorem word {x : Kind} {f : Token → Production β} (mark : x ≠ .endOfText ∧ x ≠ .colon)
    (rest : ∀ t, Tells n anywhere kept (f t)) : Tells n (· = x) kept (Grammar.advance >>= f) :=
  advance (fun _ is => is ▸ mark) fun t _ => rest t

theorem idents {f : List Ident → Production β} (rest : ∀ ids, ids ≠ [] → Tells n anywhere kept (f ids)) :
    Tells n sort kept (Grammar.idents >>= f) := by
  refine Finds.bind findsNames fun ws ids named => ?_
  have some : ids ≠ [] := by
    rintro rfl
    cases named
  exact Finds.weaken (rest ids some) fun _ _ found => found.behind named.ranged

theorem optionalTypeParams {f : List Ident → Production β} (rest : ∀ ids, Tells n anywhere kept (f ids)) :
    Tells n sort kept (Grammar.optionalTypeParams >>= f) :=
  Finds.bind findsParams fun _ ids named =>
    Finds.weaken (rest ids) fun _ _ found => found.behind named.ranged

theorem type {f : Ty → Production β} (rest : ∀ t, Tells n anywhere kept (f t)) :
    Tells n sort kept (Grammar.type >>= f) :=
  Finds.bind findsType fun _ t derived =>
    Finds.weaken (rest t) fun _ _ found => found.behind derived.ranged

theorem colonType {text : List Char} {f : Ty → Production β} (rest : ∀ t, Tells n anywhere kept (f t)) :
    Finds anywhere n sort (fun ws => Within kept (⟨.colon, text⟩ :: ws)) (Grammar.type >>= f) :=
  Finds.bind findsType fun _ t derived =>
    Finds.weaken (rest t) fun _ _ found => found.behind derived.colonRanged

theorem colonIdent {text : List Char} {f : Ident → Production β} (rest : ∀ id, Tells n anywhere kept (f id)) :
    Finds anywhere n sort (fun ws => Within kept (⟨.colon, text⟩ :: ws)) (Grammar.ident >>= f) := by
  refine Finds.bind findsIdent fun ws id ⟨name, same, _⟩ => Finds.weaken (rest id) fun ws' b found => ?_
  rw [same]
  have colon : Ranged [⟨.colon, text⟩, ⟨.identifier, name⟩] 0 := .colon nofun (.one nofun)
  exact found.behind colon

theorem expectType {f : Ty → Production β} (rest : ∀ t, Tells n anywhere kept (f t)) :
    Tells n sort kept (Grammar.expect .colon >>= fun _ => Grammar.type >>= f) :=
  Finds.expect (by decide) fun _ => colonType rest

section Joined

variable {R : List Word → Multiset (Nat × Nat) → Prop}
  (join : ∀ {ws ws' ranges ranges'}, R ws ranges → R ws' ranges' → R (ws ++ ws') (ranges + ranges'))

include join

theorem heldByCons {a : α} {as : List α} (first : ∃ ranges, R ws ranges ∧ 0 + ranges ≤ extracts a)
    (more : ∃ ranges, R ws' ranges ∧ 0 + ranges ≤ extracts as) :
    ∃ ranges, R (ws ++ ws') ranges ∧ 0 + ranges ≤ extracts (a :: as) := by
  obtain ⟨ranges, inFirst, enough⟩ := first
  obtain ⟨ranges', inMore, enough'⟩ := more
  refine ⟨ranges + ranges', join inFirst inMore, ?_⟩
  rw [zero_add] at enough enough' ⊢
  rw [extractsCons]
  exact add_le_add enough enough'

theorem heldByRow (nil : R [] 0) {as : List α}
    (row : Finds.Row (fun ws a => ∃ ranges, R ws ranges ∧ 0 + ranges ≤ extracts a) ws as) :
    ∃ ranges, R ws ranges ∧ 0 + ranges ≤ extracts as := by
  induction row with
  | nil => exact ⟨0, nil, le_rfl⟩
  | cons first _ ih => exact heldByCons join first ih

end Joined

theorem withinItems {x : Kind} (other : x ≠ .colon) {as : List α} (h : Finds.Items x (Within 0) ws as) :
    Within 0 ws as := by
  induction h with
  | nil => exact .nil le_rfl
  | cons first _ ih => exact .word other (heldByCons Ranged.append first ih)

theorem manyEats {x : Kind} (mark : x ≠ .endOfText ∧ x ≠ .colon) (item : Tells n anywhere 0 m) :
    Tells n sort 0 (many (Grammar.eat x) m) :=
  (Finds.manyEats mark.1 item).weaken fun _ _ => withinItems mark.2

theorem manyNext {p : Kind → Bool} (item : Tells n (fun x => p x = true) 0 m) :
    Tells n sort 0 (many (nextIs p) m) := (Finds.manyNext item).weaken fun _ _ => heldByRow Ranged.append .nil

theorem commaSeparated (item : Tells n anywhere kept m) : Tells n sort kept (Grammar.commaSeparated m) := by
  refine Finds.bind item.always fun ws a ⟨ranges, ranged, enough⟩ => ?_
  have more : Tells n anywhere (kept + ranges) (do return a :: (← many (Grammar.eat .comma) m)) := by
    refine last (manyEats (by decide) (item.less (Multiset.zero_le kept))) fun rest => ?_
    rw [extractsCons]
    exact add_le_add_left enough (extracts rest)
  exact more.weaken fun _ _ found => found.put ranged

theorem whileEats {x : Kind} (mark : x ≠ .endOfText ∧ x ≠ .colon) {body : α → Production α}
    (round : ∀ a, Tells n anywhere (extracts a) (body a)) {a : α} :
    Tells n sort (extracts a) (whileHolds (Grammar.eat x) body a) := by
  have loop : Finds anywhere n sort
      (fun ws b => ∃ j, j = extracts b ∧ ∃ ranges, Ranged ws ranges ∧ extracts a + ranges ≤ j)
      (whileHolds (Grammar.eat x) body a) := by
    refine Finds.whileEats (Q := fun i b => i = extracts b)
      (T := fun i ws j => ∃ ranges, Ranged ws ranges ∧ i + ranges ≤ j) mark.1 (fun i => ⟨0, .nil, by simp⟩) ?_ rfl
    rintro _ b text rfl
    refine Finds.weaken (round b) fun ws c ⟨ranges, ranged, enough⟩ => ⟨_, rfl, ?_⟩
    rintro ws' l ⟨ranges', ranged', enough'⟩
    refine ⟨ranges + ranges', .word mark.2 (ranged.append ranged'), ?_⟩
    rw [← add_assoc]
    exact le_trans (add_le_add_left enough ranges') enough'
  refine loop.weaken ?_
  rintro ws b ⟨_, rfl, found⟩
  exact found

end Tells

def LooselyWithin (kept : Multiset (Nat × Nat)) (ws : List Word) (a : α) : Prop :=
  ∃ ranges, Loose ws ranges ∧ kept + ranges ≤ extracts a

def BegunWithin (kept : Multiset (Nat × Nat)) (ws : List Word) (a : α) : Prop :=
  Opens (· != .digits) ws ∧ Within kept ws a

theorem Within.loose {a : α} (h : Within kept ws a) (head : headKind ws ≠ .digits) : LooselyWithin kept ws a := by
  obtain ⟨ranges, ranged, enough⟩ := h
  exact ⟨ranges, .ofRanged ranged head, enough⟩

theorem BegunWithin.put {ranges : Multiset (Nat × Nat)} {a : α} (first : Loose ws ranges)
    (h : BegunWithin (kept + ranges) ws' a) : BegunWithin kept (ws ++ ws') a := by
  obtain ⟨opens, ranges', ranged, enough⟩ := h
  obtain ⟨opens', ranged'⟩ := first ws' ranges' opens ranged
  exact ⟨opens', _, ranged', by rwa [← add_assoc]⟩

theorem BegunWithin.less {a : α} (h : BegunWithin kept ws a) (fewer : kept' ≤ kept) : BegunWithin kept' ws a :=
  ⟨h.1, h.2.less fewer⟩

variable {m : Production α} {f : α → Production β}

theorem Tells.loosely (h : Tells n sort kept m) (other : ∀ k, sort k → k ≠ .digits) :
    Finds anywhere n sort (LooselyWithin kept) m := by
  refine (Finds.heads h).weaken fun ws a ⟨found, head⟩ => found.loose ?_
  rcases head with rfl | first
  · nofun
  · exact other _ first

theorem findsLoosely (step : Finds anywhere n sort (LooselyWithin 0) m)
    (rest : ∀ a, Finds anywhere n anywhere (BegunWithin (kept + extracts a)) (f a)) :
    Finds anywhere n sort (BegunWithin kept) (m >>= f) := by
  refine Finds.bind step fun ws a ⟨ranges, loose, enough⟩ => Finds.weaken (rest a) fun ws' b found => ?_
  rw [zero_add] at enough
  exact .put loose (found.less (add_le_add_right enough kept))

theorem findsBegun (step : Finds anywhere n sort (BegunWithin 0) m)
    (rest : ∀ a, Tells n anywhere (kept + extracts a) (f a)) :
    Finds anywhere n sort (BegunWithin kept) (m >>= f) := by
  refine Finds.bind step fun ws a ⟨opens, ranges, ranged, enough⟩ => Finds.weaken (rest a) fun ws' b found => ?_
  rw [zero_add] at enough
  exact ⟨opens.append ws', .put ranged (found.less (add_le_add_right enough kept))⟩

theorem manyLoosely {p : Kind → Bool} (item : Finds anywhere n (fun x => p x = true) (LooselyWithin 0) m) :
    Finds anywhere n sort (LooselyWithin 0) (many (nextIs p) m) :=
  (Finds.manyNext item).weaken fun _ _ => Tells.heldByRow Loose.append .nil

theorem whileLoosely {p : Kind → Bool} {body : α → Production α}
    (round : ∀ a, Finds anywhere n (fun x => p x = true) (LooselyWithin (extracts a)) (body a)) {a : α} :
    Finds anywhere n sort (LooselyWithin (extracts a)) (whileHolds (nextIs p) body a) := by
  have loop : Finds anywhere n sort
      (fun ws b => ∃ j, j = extracts b ∧ ∃ ranges, Loose ws ranges ∧ extracts a + ranges ≤ j)
      (whileHolds (nextIs p) body a) := by
    refine Finds.whileNext (Q := fun i b => i = extracts b)
      (T := fun i ws j => ∃ ranges, Loose ws ranges ∧ i + ranges ≤ j) (fun i => ⟨0, .nil, by simp⟩) ?_ rfl
    rintro _ b rfl
    refine Finds.weaken (round b) fun ws c ⟨ranges, loose, enough⟩ => ⟨_, rfl, ?_⟩
    rintro ws' l ⟨ranges', loose', enough'⟩
    refine ⟨ranges + ranges', loose.append loose', ?_⟩
    rw [← add_assoc]
    exact le_trans (add_le_add_left enough ranges') enough'
  refine loop.weaken ?_
  rintro ws b ⟨_, rfl, found⟩
  exact found

end Rules

end Boogie.Grammar
