import Boogie.Proofs.Blocks
import Boogie.Proofs.Stray.Items

/-! Where the items of statement lists begin: each of them at the token that is next when the loop comes to it. -/
namespace Boogie

open Token (Kind Word)

def BigBlock.starts (b : BigBlock) : List Nat :=
  b.span.start :: (b.cmds.map fun c => c.span.start) ++ (b.tail.map fun t => t.span.start).toList

def StmtList.starts (l : StmtList) : List Nat := l.blocks.flatMap BigBlock.starts ++ [l.closing.start]

def startsOf (ls : List StmtList) : List Nat := ls.flatMap StmtList.starts

@[simp] theorem startsOfNil : startsOf [] = [] := rfl

@[simp] theorem startsOfAppend (ls ls' : List StmtList) : startsOf (ls ++ ls') = startsOf ls ++ startsOf ls' :=
  List.flatMap_append

@[simp] theorem startsOfCons (l : StmtList) (ls : List StmtList) : startsOf (l :: ls) = l.starts ++ startsOf ls := rfl

namespace Grammar

def OpenBlock.starts (b : OpenBlock) : List Nat := b.span.start :: b.cmds.map fun c => c.span.start

def Gathered.starts (g : Gathered) : List Nat :=
  (g.closed.flatMap fun b => b.starts ++ startsOf b.lists) ++ g.opened.toList.flatMap OpenBlock.starts

theorem startsClose (b : OpenBlock) (tail : Option Tail) (x : Nat) :
    x ∈ (b.close tail).starts ↔ x ∈ b.starts ∨ x ∈ (tail.map fun t => t.span.start).toList := by
  simp [OpenBlock.close, BigBlock.starts, OpenBlock.starts, or_assoc]

theorem startsAddCmd {g : Gathered} {c : Cmd} {x : Nat} (mem : x ∈ (g.addCmd c).starts) :
    x ∈ g.starts ∨ x = c.span.start := by
  obtain ⟨closed, _ | b⟩ := g
  · simpa [Gathered.addCmd, Gathered.starts, OpenBlock.starts] using mem
  · simp only [Gathered.addCmd, Gathered.starts, OpenBlock.starts, List.mem_append, Option.toList_some,
      List.flatMap_singleton, List.map_cons, List.mem_cons] at mem ⊢
    tauto

theorem startsAddLabel {g : Gathered} {id : Ident} {x : Nat} (mem : x ∈ (g.addLabel id).starts) :
    x ∈ g.starts ∨ x = id.span.start := by
  obtain ⟨closed, _ | b⟩ := g
  · simpa [Gathered.addLabel, Gathered.starts, OpenBlock.starts] using mem
  · have none : (b.close none).lists = [] := rfl
    simp only [Gathered.addLabel, Gathered.starts, List.flatMap_cons, none, startsOfNil, List.append_nil,
      List.mem_append, startsClose, Option.map_none, Option.toList_none, List.not_mem_nil, or_false,
      Option.toList_some, List.flatMap_cons, List.flatMap_nil] at mem ⊢
    simp only [OpenBlock.starts, List.map_nil, List.mem_cons] at mem ⊢
    tauto

theorem startsAddTail {g : Gathered} {t : Tail} {x : Nat} (mem : x ∈ (g.addTail t).starts) :
    x ∈ g.starts ∨ x = t.span.start ∨ x ∈ startsOf t.lists := by
  obtain ⟨closed, opened⟩ := g
  have lists (b : OpenBlock) : (b.close (some t)).lists = t.lists := rfl
  simp only [Gathered.addTail, Gathered.starts, List.flatMap_cons, lists, List.mem_append, startsClose,
    Option.map_some, Option.toList_some, List.mem_singleton, Option.toList_none, List.flatMap_nil,
    List.not_mem_nil, or_false] at mem ⊢
  cases opened with
  | none =>
    simp only [Option.getD_none, OpenBlock.starts, List.map_nil, List.mem_singleton] at mem
    tauto
  | some b =>
    simp only [Option.getD_some, Option.toList_some, List.flatMap_singleton] at mem ⊢
    tauto

theorem memStarts {blocks : List BigBlock} {closing : Span} {x : Nat} :
    x ∈ startsOf (StmtList.lists ⟨blocks, closing⟩) ↔
      x ∈ (blocks.flatMap fun b => b.starts ++ startsOf b.lists) ∨ x = closing.start := by
  have inside : x ∈ (blocks.flatMap fun b => b.starts ++ startsOf b.lists) ↔
      x ∈ blocks.flatMap BigBlock.starts ∨ x ∈ startsOf (blocks.flatMap BigBlock.lists) := by
    induction blocks with
    | nil => simp
    | cons b rest ih =>
      simp only [List.flatMap_cons, List.mem_append, startsOfAppend, ih]
      tauto
  rw [StmtList.lists, startsOfCons, StmtList.starts, BigBlock.allListsEq, List.mem_append, List.mem_append,
    List.mem_singleton, inside]
  tauto

theorem startsFinish {g : Gathered} {closing : Span} {x : Nat}
    (mem : x ∈ startsOf (StmtList.lists ⟨g.finish closing, closing⟩)) : x ∈ g.starts ∨ x = closing.start := by
  have lists (b : OpenBlock) : (b.close none).lists = [] := rfl
  obtain ⟨closed, _ | b⟩ := g
  · rcases memStarts.mp mem with inside | brace
    · simp only [Gathered.finish] at inside
      split at inside
      · right
        simpa [BigBlock.starts, BigBlock.lists, Tail.lists?] using inside
      · left
        simpa [Gathered.starts, List.mem_flatMap] using inside
    · exact .inr brace
  · rcases memStarts.mp mem with inside | brace
    · left
      simp only [Gathered.finish, List.mem_flatMap, List.mem_reverse, List.mem_cons, List.mem_append] at inside
      simp only [Gathered.starts, Option.toList_some, List.flatMap_cons, List.flatMap_nil, List.append_nil,
        List.mem_append, List.mem_flatMap]
      obtain ⟨b', rfl | listed, found⟩ := inside
      · simp only [lists, startsOfNil, List.not_mem_nil, or_false, startsClose, Option.map_none,
          Option.toList_none] at found
        exact .inr found
      · exact .inl ⟨b', listed, found⟩
    · exact .inr brace

theorem State.Reaches.previousRead {s t : State} (row : s.Reaches t) (read : t.left < s.left) :
    t.cursor.previous ∈ s.cursor.ahead ∨ t.cursor.previous = s.cursor.finish := by
  have all : t.left = s.left ∨ t.cursor.previous ∈ s.cursor.ahead ∨ t.cursor.previous = s.cursor.finish := by
    induction row with
    | refl => exact .inl rfl
    | @step t u before last ih =>
      cases last with
      | advance =>
        right
        show t.cursor.current ∈ _ ∨ t.cursor.current = _
        cases ahead : t.cursor.ahead with
        | nil => exact .inr ((Cursor.currentOfNil ahead).trans before.finishEq)
        | cons u rest =>
          rw [Cursor.currentOfCons ahead]
          exact .inl (before.aheadSuffix.subset (ahead ▸ List.mem_cons_self))
      | syntaxError => exact ih read
      | broken => exact ih read
      | brokenAt => exact ih read
  exact all.resolve_left (Nat.ne_of_lt read)

theorem Placed.spanTo {pt : Point} {s t : State} (h : Placed pt s) (row : s.Reaches t) (read : t.left < s.left) :
    (s.cursor.current.span.merge t.cursor.previous.span).start = pt.offset (pt.total - s.left) := by
  have later : pt.offset (pt.total - s.left) ≤ t.cursor.previous.span.start := by
    rcases row.previousRead read with ahead | finish
    · have mem : t.cursor.previous.span.start ∈ (List.range' (pt.total - s.left) s.left).map pt.offset :=
        h.starts ▸ List.mem_map_of_mem ahead
      obtain ⟨i, within, same⟩ := List.mem_map.mp mem
      have bounds := List.mem_range'_1.mp within
      have bound := h.bound
      exact same ▸ pt.offsetLe bounds.1 (by omega)
    · rw [finish, h.finish]
      exact pt.offsetLe (Nat.sub_le _ _) (Nat.le_refl _)
  show min _ _ = _
  rw [h.current]
  exact Nat.min_eq_left later

theorem Placed.here {pt : Point} {s : State} (h : Placed pt s)
    (same : pt.start = pt.offset (pt.total - s.left)) : pt.total = pt.place + s.left := by
  have place : pt.place = pt.total - s.left := pt.placeOfStart (Nat.sub_le _ _) same
  have bound := h.bound
  omega

def Closes {α : Type} (P : Span → α → Prop) (m : Production α) : Prop :=
  ∀ s, P (m.run s).2.cursor.previous.span (m.run s).1

def Spanning (sort : Kind → Prop) {α : Type} (P : Span → Span → α → Prop) (m : Production α) : Prop :=
  ∀ s, sort s.kind → P s.cursor.current.span (m.run s).2.cursor.previous.span (m.run s).1

namespace Closes

variable {α β : Type} {P : Span → β → Prop} {m : Production α} {f : α → Production β}

theorem pure {b : β} (h : ∀ last, P last b) : Closes P (Pure.pure b) := fun _ => h _

theorem behind (rest : ∀ a, Closes P (f a)) : Closes P (m >>= f) := fun s => rest _ (m.run s).2

theorem spanFrom {start : Span} {g : Span → β} (h : ∀ last, P last (g (start.merge last))) :
    Closes P (do return g (← Grammar.spanFrom start)) := fun s => h s.cursor.previous.span

theorem either {condition : Production Bool} {yes no : Production β} (holds : Closes P yes) (fails : Closes P no) :
    Closes P (condition >>= fun b => if b = true then yes else no) := by
  refine behind fun b => ?_
  cases b
  · exact fails
  · exact holds

end Closes

namespace Spanning

variable {sort : Kind → Prop} {α β : Type} {P : Span → Span → β → Prop}

theorem advance {f : Token → Production β} (rest : ∀ t, Closes (P t.span) (f t)) :
    Spanning sort P (Grammar.advance >>= f) := fun s _ => rest s.cursor.current s.advance

theorem currentSpan {f : Span → Production β} (rest : ∀ start, Closes (P start) (f start)) :
    Spanning sort P (Grammar.currentSpan >>= f) := fun s _ => rest s.cursor.current.span s

theorem ident {f : Ident → Production β} (rest : ∀ name span, Closes (P span) (f ⟨name, span⟩)) :
    Spanning (· = .identifier) P (Grammar.ident >>= f) := by
  intro s named
  have name : Grammar.ident.run s = (⟨Name.unescape s.cursor.current.text, s.cursor.current.span⟩, s.advance) := by
    simp [Grammar.ident, identWritten, check, named, Grammar.advance]
  rw [Production.runBind, name]
  exact rest _ _ s.advance

theorem byKind {f : Kind → Production β} (h : ∀ k, Spanning (· = k) P (f k)) :
    Spanning sort P (currentKind >>= f) := fun s _ => h s.kind s rfl

theorem ifNext {q : Kind → Bool} {yes no : Production β} (holds : Spanning (fun k => sort k ∧ q k = true) P yes)
    (fails : Spanning (fun k => sort k ∧ q k = false) P no) :
    Spanning sort P (nextIs q >>= fun b => if b = true then yes else no) := by
  intro s first
  cases h : q s.kind
  · simpa [h] using fails s ⟨first, h⟩
  · simpa [h] using holds s ⟨first, h⟩

theorem mono {wide : Kind → Prop} {m : Production β} (h : Spanning wide P m) (narrow : ∀ k, sort k → wide k) :
    Spanning sort P m := fun s first => h s (narrow _ first)

theorem map {m : Production α} {P' : Span → Span → α → Prop} {g : α → β} (h : Spanning sort P' m)
    (imp : ∀ start last a, P' start last a → P start last (g a)) : Spanning sort P (do return g (← m)) :=
  fun s first => imp _ _ _ (h s first)

theorem nest {ι : Type} {placeholder : ι → Production β} {level : (ι → Production β) → ι → Production β} {i : ι}
    (h : ∀ nested, Spanning sort P (level nested i)) :
    Spanning sort P (ahead >>= fun tokens => Grammar.nest placeholder level tokens i) := by
  intro s first
  have whole (tokens : List Token) : Spanning sort P (Grammar.nest placeholder level tokens i) := by
    cases tokens <;> exact h _
  exact whole s.cursor.ahead s first

end Spanning

def IsPlaced (start last : Span) : LabelOrCmd → Prop
  | .label id => id.span = start
  | .cmd c => c.span = start.merge last
  | .mistake => True

section Placed

variable {sort : Kind → Prop}

theorem placesConditionCmd {make : Span → List Attribute → Expr → Cmd}
    (place : ∀ span as e, (make span as e).span = span) : Spanning sort IsPlaced (conditionCmd expression make) :=
  .advance fun _ => .behind fun _ => .behind fun _ => .behind fun _ => .spanFrom fun _ => place _ _ _

theorem placesWordCmd : Spanning sort IsPlaced (wordCmd expression) := by
  have call {sort : Kind → Prop} : Spanning sort IsPlaced (callCmd expression) :=
    .currentSpan fun _ => .behind fun _ => .behind fun _ => .spanFrom fun _ => rfl
  refine .byKind fun k => ?_
  split
  · exact placesConditionCmd fun _ _ _ => rfl
  · exact placesConditionCmd fun _ _ _ => rfl
  · exact .advance fun _ => .behind fun _ => .behind fun _ => .spanFrom fun _ => rfl
  · exact call
  · exact call
  · exact call
  · exact .currentSpan fun _ => .behind fun _ => .behind fun _ => .spanFrom fun _ => rfl
  · exact .advance fun _ => .behind fun _ => .spanFrom fun _ => rfl
  · exact fun _ _ => trivial

theorem placesLabelOrCmd : Spanning sort IsPlaced (labelOrCmd expression) := by
  refine .ifNext (.mono (.ident fun name span => ?_) ?_) placesWordCmd
  · refine .either (.pure fun _ => rfl) (.either ?_ (.behind fun _ => .pure fun _ => trivial))
    exact .behind fun _ => .behind fun _ => .behind fun _ => .behind fun _ => .behind fun _ => .spanFrom fun _ => rfl
  · exact fun k h => by simpa using h.2

theorem placesTail {stmts : Production StmtList} :
    Spanning sort (fun start last t => ∀ x ∈ t, Tail.span x = start.merge last) (blockTail stmts) := by
  have tail {α : Type} (span : α → Span) {m : Production α} (make : α → Tail) (same : ∀ x, (make x).span = span x)
      {sort : Kind → Prop} (h : Spanning sort (fun start last x => span x = start.merge last) m) :
      Spanning sort (fun start last t => ∀ x ∈ t, Tail.span x = start.merge last) (do return some (make (← m))) := by
    refine .map h fun start last x place => ?_
    rintro _ ⟨⟩
    rw [same, place]
  have transfer {sort : Kind → Prop} :
      Spanning sort (fun start last x => Transfer.span x = start.merge last) transferCmd :=
    .currentSpan fun _ => .either (.behind fun _ => .behind fun _ => .spanFrom fun _ => rfl)
      (.behind fun _ => .behind fun _ => .spanFrom fun _ => rfl)
  refine .byKind fun k => ?_
  split
  · refine tail IfCmd.span .branch (fun _ => rfl) (.nest fun next => .currentSpan fun _ => ?_)
    exact .behind fun _ => .behind fun _ => .behind fun _ => .behind fun _ => .behind fun _ => .spanFrom fun _ => rfl
  · refine tail WhileCmd.span .loop (fun _ => rfl) (.advance fun _ => ?_)
    exact .behind fun _ => .behind fun _ => .behind fun _ => .behind fun _ => .spanFrom fun _ => rfl
  · refine tail Tail.span id (fun _ => rfl) (.advance fun _ => ?_)
    exact .behind fun _ => .behind fun _ => .spanFrom fun _ => rfl
  · exact tail Transfer.span .transfer (fun _ => rfl) transfer
  · exact tail Transfer.span .transfer (fun _ => rfl) transfer
  · rintro s _ _ ⟨⟩

end Placed

end Grammar

end Boogie
