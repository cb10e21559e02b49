import Boogie.Conditional
import Boogie.Proofs.Text.Lines
import Mathlib.Tactic.Tauto

/-! What the directives of a text select, told by their nesting. A region is open at a line when it was
opened before and, of the regions opened since, no more were closed than there were; its branches begin
where no region within it is open. Reading the lines one by one keeps a stack of the regions that are open,
which tells of each whether a branch was selected and whether its last one is. -/
namespace Boogie.Conditional

def isSense (c : Char) : Bool := c == '!' || Text.isBlank c

def conditionTurns (condition : List Char) : Nat := (condition.takeWhile isSense).count '!'

def conditionName (condition : List Char) : String := String.ofList (condition.dropWhile isSense)

def conditionHolds (defines : List String) (condition : List Char) : Prop :=
  conditionName condition ∈ defines ↔ conditionTurns condition % 2 = 0

theorem senseOfBlank {c : Char} (blank : Text.isBlank c = true) : isSense c = true := by
  simp [isSense, blank]

theorem turnsTrimmed (text : List Char) :
    conditionTurns (Text.trimStart text) = conditionTurns text ∧
      conditionName (Text.trimStart text) = conditionName text := by
  induction text with
  | nil => exact ⟨rfl, rfl⟩
  | cons c rest ih =>
    cases blank : Text.isBlank c with
    | false => simp [Text.trimStart, blank]
    | true =>
      have sense := senseOfBlank blank
      have other : c ≠ '!' := by
        rintro rfl
        exact absurd blank (by decide)
      have trimmed : Text.trimStart (c :: rest) = Text.trimStart rest := by simp [Text.trimStart, blank]
      rw [trimmed, ih.1, ih.2]
      simp [conditionTurns, conditionName, sense, List.count_cons_of_ne other]

theorem turnsNot (rest : List Char) :
    conditionTurns ('!' :: rest) = conditionTurns rest + 1 ∧ conditionName ('!' :: rest) = conditionName rest := by
  have sense : isSense '!' = true := by decide
  simp [conditionTurns, conditionName, sense]

theorem turnsNone {text : List Char} (plain : text.head?.all (!isSense ·) = true) :
    conditionTurns text = 0 ∧ conditionName text = String.ofList text := by
  cases text with
  | nil => exact ⟨rfl, rfl⟩
  | cons c rest =>
    have other : isSense c = false := by simpa using plain
    simp [conditionTurns, conditionName, other]

theorem containsOfString (defines : List String) (name : List Char) :
    (defines.map String.toList).contains name = true ↔ String.ofList name ∈ defines := by
  rw [List.contains_iff_mem, List.mem_map]
  constructor
  · rintro ⟨define, mem, rfl⟩
    rwa [String.ofList_toList]
  · exact fun mem => ⟨_, mem, String.toList_ofList⟩

def isTrimmed (text : List Char) : Prop := ∀ c rest, text = c :: rest → Text.isBlank c = false

theorem trimmedStart (text : List Char) : isTrimmed (Text.trimStart text) := by
  intro c rest same
  induction text with
  | nil => simp [Text.trimStart] at same
  | cons d more ih =>
    cases blank : Text.isBlank d with
    | true => exact ih (by simpa [Text.trimStart, blank] using same)
    | false =>
      have whole : d :: more = c :: rest := by simpa [Text.trimStart, blank] using same
      exact (List.cons.inj whole).1 ▸ blank

theorem trimmedTrim (text : List Char) : isTrimmed (Text.trim text) := by
  intro c rest same
  obtain ⟨back, whole⟩ : Text.trim text <+: Text.trimStart text := by
    rw [Text.trim, Text.trimEnd, ← List.reverse_suffix, List.reverse_reverse]
    exact List.dropWhile_suffix _
  rw [same, List.cons_append] at whole
  exact trimmedStart text c _ whole.symm

theorem holdsIff (defines : List String) {condition : List Char} (trimmed : isTrimmed condition) :
    holds (defines.map String.toList) condition = true ↔ conditionHolds defines condition := by
  fun_induction holds (defines.map String.toList) condition with
  | case1 rest ih =>
    have later := ih (trimmedStart rest)
    rw [conditionHolds, (turnsTrimmed rest).1, (turnsTrimmed rest).2] at later
    rw [Bool.not_eq_true', ← Bool.not_eq_true, later, conditionHolds, (turnsNot rest).1, (turnsNot rest).2]
    have turned : (conditionTurns rest + 1) % 2 = 0 ↔ ¬ conditionTurns rest % 2 = 0 := by omega
    rw [turned]
    tauto
  | case2 name other =>
    have plain : conditionTurns name = 0 ∧ conditionName name = String.ofList name := by
      cases name with
      | nil => exact ⟨rfl, rfl⟩
      | cons c rest =>
        have first : c ≠ '!' := fun same => other rest (by rw [same])
        refine turnsNone ?_
        simp [isSense, first, trimmed c rest rfl]
    rw [containsOfString, conditionHolds, plain.1, plain.2]
    simp

variable (lines : List (List Char))

def mark (line : Nat) : Option Directive := lines[line]?.bind directive

def isOpening : Option Directive → Bool
  | some (.opens _) => true
  | _ => false

def isClosing : Option Directive → Bool
  | some .closes => true
  | _ => false

def openings (i j : Nat) : Nat := (List.range' (i + 1) (j - (i + 1))).countP fun k => isOpening (mark lines k)

def closings (i j : Nat) : Nat := (List.range' (i + 1) (j - (i + 1))).countP fun k => isClosing (mark lines k)

/-- The region opened on line `i` is open at line `j`: up to there, no more regions were closed than were
opened within it. -/
structure OpenAt (i j : Nat) : Prop where
  before : i < j
  opened : isOpening (mark lines i) = true
  inside : ∀ k, i < k → k ≤ j → closings lines i k ≤ openings lines i k

inductive BranchAt (i : Nat) : Nat → Prop where
  | first (opened : isOpening (mark lines i) = true) : BranchAt i i
  | next {b} (inside : OpenAt lines i b) (level : closings lines i b = openings lines i b)
      (other : (∃ condition, mark lines b = some (.otherwiseIf condition)) ∨ mark lines b = some .otherwise) :
      BranchAt i b

variable (defines : List String)

def holdsAt (line : Nat) : Prop :=
  match mark lines line with
  | some (.opens condition) => conditionHolds defines condition
  | some (.otherwiseIf condition) => conditionHolds defines condition
  | some .otherwise => True
  | _ => False

structure Selected (i b : Nat) : Prop where
  branch : BranchAt lines i b
  holds : holdsAt lines defines b
  first : ∀ a, BranchAt lines i a → a < b → ¬ holdsAt lines defines a

structure Within (i b j : Nat) : Prop where
  branch : BranchAt lines i b
  before : b < j
  last : ∀ a, BranchAt lines i a → a < j → a ≤ b

def InSelected (i j : Nat) : Prop := ∃ b, Selected lines defines i b ∧ Within lines i b j

/-- A line is kept: it is no directive, and of every region that is open there it is in the selected
branch. -/
structure Kept (j : Nat) : Prop where
  plain : mark lines j = none
  selected : ∀ i, OpenAt lines i j → InSelected lines defines i j

def loneWarning : Directive → Option Warning
  | .opens _ => none
  | .otherwiseIf _ => some .loneOtherwiseIf
  | .otherwise => some .loneOtherwise
  | .closes => some .loneClose

/-- On line `j` a region is to be closed or cut where none is open. -/
structure LoneAt (j : Nat) (w : Warning) : Prop where
  wrong : (mark lines j).bind loneWarning = some w
  outside : ∀ i, ¬ OpenAt lines i j

/-- The warnings are those that `p` tells of, each of them once, in the order of the lines. -/
structure Lists (warnings : List (Nat × Warning)) (p : Nat → Warning → Prop) : Prop where
  ordered : warnings.Pairwise fun a b => a.1 < b.1
  listed : ∀ line w, (line, w) ∈ warnings ↔ ∃ j, line = j + 1 ∧ p j w

theorem openingNotClosing {d : Option Directive} (closing : isClosing d = true) : isOpening d = false := by
  unfold isClosing at closing
  split at closing
  · rfl
  · contradiction

section Line

variable {lines : List (List Char)} {defines : List String} {i n : Nat}

theorem rangeSucc (less : i < n) :
    List.range' (i + 1) (n + 1 - (i + 1)) = List.range' (i + 1) (n - (i + 1)) ++ [n] := by
  have count : n + 1 - (i + 1) = n - (i + 1) + 1 := by omega
  have last : i + 1 + (n - (i + 1)) = n := by omega
  rw [count, List.range'_1_concat, last]

theorem openingsSucc (less : i < n) :
    openings lines i (n + 1) = openings lines i n + if isOpening (mark lines n) then 1 else 0 := by
  rw [openings, openings, rangeSucc less, List.countP_append, List.countP_singleton]

theorem closingsSucc (less : i < n) :
    closings lines i (n + 1) = closings lines i n + if isClosing (mark lines n) then 1 else 0 := by
  rw [closings, closings, rangeSucc less, List.countP_append, List.countP_singleton]

theorem openAtSucc (less : i < n) :
    OpenAt lines i (n + 1) ↔ OpenAt lines i n ∧ closings lines i (n + 1) ≤ openings lines i (n + 1) := by
  constructor
  · intro h
    exact ⟨⟨less, h.opened, fun k before behind => h.inside k before (by omega)⟩, h.inside _ (by omega) (Nat.le_refl _)⟩
  · rintro ⟨h, last⟩
    refine ⟨by omega, h.opened, fun k before behind => ?_⟩
    rcases Nat.lt_or_eq_of_le behind with earlier | rfl
    · exact h.inside k before (by omega)
    · exact last

theorem openAtOpening : OpenAt lines n (n + 1) ↔ isOpening (mark lines n) = true := by
  refine ⟨fun h => h.opened, fun opened => ⟨Nat.lt_succ_self n, opened, fun k before behind => ?_⟩⟩
  obtain rfl : k = n + 1 := by omega
  simp [closings]

def inner (lines : List (List Char)) (i n : Nat) : Nat := openings lines i n - closings lines i n

theorem innerOpening : inner lines n (n + 1) = 0 := by simp [inner, openings]

theorem innerSucc (inside : OpenAt lines i n) (kept : isClosing (mark lines n) = true → 0 < inner lines i n) :
    inner lines i (n + 1) = inner lines i n + (if isOpening (mark lines n) then 1 else 0) -
      (if isClosing (mark lines n) then 1 else 0) := by
  have fewer := inside.inside n inside.before (Nat.le_refl n)
  simp only [inner] at kept ⊢
  rw [openingsSucc inside.before, closingsSucc inside.before]
  cases closing : isClosing (mark lines n) with
  | false => simp only [Bool.false_eq_true, if_false]; omega
  | true =>
    have some := kept closing
    simp only [openingNotClosing closing, Bool.false_eq_true, if_false, if_true]
    omega

theorem openAtNext : OpenAt lines i (n + 1) ↔
    (i = n ∧ isOpening (mark lines n) = true) ∨
      (OpenAt lines i n ∧ (isClosing (mark lines n) = true → 0 < inner lines i n)) := by
  rcases Nat.lt_trichotomy i n with less | rfl | more
  · have other : ¬ (i = n ∧ isOpening (mark lines n) = true) := by omega
    rw [openAtSucc less, openingsSucc less, closingsSucc less, or_iff_right other]
    refine and_congr_right fun inside => ?_
    have fewer := inside.inside n less (Nat.le_refl n)
    rw [inner]
    cases closing : isClosing (mark lines n) with
    | false =>
      simp only [Bool.false_eq_true, if_false, false_implies, iff_true]
      omega
    | true =>
      simp only [openingNotClosing closing, Bool.false_eq_true, if_false, if_true, true_implies]
      omega
  · have other : ¬ OpenAt lines i i := fun h => Nat.lt_irrefl _ h.before
    rw [openAtOpening]
    simp [other]
  · have other : ¬ OpenAt lines i n := fun h => absurd h.before (by omega)
    have other' : ¬ OpenAt lines i (n + 1) := fun h => absurd h.before (by omega)
    have differs : i ≠ n := by omega
    simp [other, other', differs]

theorem levelIff (inside : OpenAt lines i n) : closings lines i n = openings lines i n ↔ inner lines i n = 0 := by
  have := inside.inside n inside.before (Nat.le_refl n)
  rw [inner]
  omega

theorem branchAtIff (less : i < n) : BranchAt lines i n ↔ OpenAt lines i n ∧ inner lines i n = 0 ∧
    ((∃ condition, mark lines n = some (.otherwiseIf condition)) ∨ mark lines n = some .otherwise) := by
  constructor
  · rintro (_ | ⟨inside, level, other⟩)
    · exact absurd less (Nat.lt_irrefl _)
    · exact ⟨inside, (levelIff inside).mp level, other⟩
  · rintro ⟨inside, level, other⟩
    exact .next inside ((levelIff inside).mpr level) other

theorem branchFrom {b : Nat} (branch : BranchAt lines i b) : i ≤ b := by
  cases branch with
  | first => exact Nat.le_refl i
  | next inside => exact Nat.le_of_lt inside.before

def Taken (lines : List (List Char)) (defines : List String) (i n : Nat) : Prop :=
  ∃ b < n, BranchAt lines i b ∧ holdsAt lines defines b

theorem takenSucc : Taken lines defines i (n + 1) ↔
    Taken lines defines i n ∨ (BranchAt lines i n ∧ holdsAt lines defines n) := by
  simp only [Taken, Nat.lt_succ_iff_lt_or_eq]
  constructor
  · rintro ⟨b, before | rfl, branch, holds⟩
    · exact .inl ⟨b, before, branch, holds⟩
    · exact .inr ⟨branch, holds⟩
  · rintro (⟨b, before, branch, holds⟩ | ⟨branch, holds⟩)
    · exact ⟨b, .inl before, branch, holds⟩
    · exact ⟨n, .inr rfl, branch, holds⟩

theorem inSelectedKeep (other : ¬ BranchAt lines i n) :
    InSelected lines defines i (n + 1) ↔ InSelected lines defines i n := by
  have same (b : Nat) : Within lines i b (n + 1) ↔ Within lines i b n := by
    constructor
    · intro ⟨branch, before, last⟩
      refine ⟨branch, ?_, fun a ofA less => last a ofA (by omega)⟩
      rcases Nat.lt_succ_iff_lt_or_eq.mp before with less | rfl
      · exact less
      · exact absurd branch other
    · intro ⟨branch, before, last⟩
      refine ⟨branch, by omega, fun a ofA less => ?_⟩
      rcases Nat.lt_succ_iff_lt_or_eq.mp less with less | rfl
      · exact last a ofA less
      · exact absurd ofA other
  simp only [InSelected, same]

theorem inSelectedBranch (branch : BranchAt lines i n) :
    InSelected lines defines i (n + 1) ↔ ¬ Taken lines defines i n ∧ holdsAt lines defines n := by
  constructor
  · rintro ⟨b, selected, within⟩
    have last := within.last n branch (Nat.lt_succ_self n)
    obtain rfl : n = b := Nat.le_antisymm last (Nat.lt_succ_iff.mp within.before)
    exact ⟨fun ⟨a, before, ofA, holds⟩ => selected.first a ofA before holds, selected.holds⟩
  · rintro ⟨untaken, holds⟩
    exact ⟨n, ⟨branch, holds, fun a ofA before holds => untaken ⟨a, before, ofA, holds⟩⟩,
      ⟨branch, Nat.lt_succ_self n, fun a _ less => Nat.lt_succ_iff.mp less⟩⟩

end Line

section Stack

variable {lines : List (List Char)} {defines : List String} {i n : Nat} {r : Region} {s : State}

structure Tells (lines : List (List Char)) (defines : List String) (i n : Nat) (r : Region) : Prop where
  openedAt : r.openedAt = i + 1
  inside : OpenAt lines i n
  taken : r.taken = true ↔ Taken lines defines i n
  active : r.active = true ↔ InSelected lines defines i n

theorem Tells.keep (h : Tells lines defines i n r) (inside : OpenAt lines i (n + 1)) (other : ¬ BranchAt lines i n) :
    Tells lines defines i (n + 1) r where
  openedAt := h.openedAt
  inside := inside
  taken := by rw [h.taken, takenSucc, or_iff_left (fun h => other h.1)]
  active := by rw [h.active, inSelectedKeep other]

theorem Tells.branch (h : Tells lines defines i n r) (inside : OpenAt lines i (n + 1)) (branch : BranchAt lines i n)
    {condition : Bool} (same : condition = true ↔ holdsAt lines defines n) :
    Tells lines defines i (n + 1)
      { r with active := !r.taken && condition, taken := r.taken || (!r.taken && condition) } where
  openedAt := h.openedAt
  inside := inside
  taken := by
    rw [takenSucc, ← h.taken, ← same, and_iff_right branch]
    cases r.taken <;> simp
  active := by
    rw [inSelectedBranch branch, ← h.taken, ← same]
    cases r.taken <;> simp

theorem Tells.opens (opened : isOpening (mark lines n) = true) {condition : Bool}
    (same : condition = true ↔ holdsAt lines defines n) : Tells lines defines n (n + 1) ⟨n + 1, condition, condition⟩ := by
  have fresh : ¬ Taken lines defines n n := fun ⟨b, before, branch, _⟩ => absurd (branchFrom branch) (by omega)
  have branch : BranchAt lines n n := .first opened
  refine ⟨rfl, openAtOpening.mpr opened, ?_, ?_⟩
  · rw [takenSucc, or_iff_right fresh, and_iff_right branch]
    exact same
  · rw [inSelectedBranch branch, and_iff_right fresh]
    exact same

structure Stands (lines : List (List Char)) (defines : List String) (n : Nat) (s : State) : Prop where
  known : ∀ t r, s.regions[t]? = some r → ∃ i, inner lines i n = t ∧ Tells lines defines i n r
  complete : ∀ i, OpenAt lines i n → ∃ r, s.regions[inner lines i n]? = some r ∧ Tells lines defines i n r
  nested : s.regions.Pairwise fun a b => b.openedAt < a.openedAt
  warned : Lists s.warnings.reverse fun j w => j < n ∧ LoneAt lines j w

namespace Stands

theorem start : Stands lines defines 0 .start where
  known t r found := by simp [State.start] at found
  complete i inside := absurd inside.before (Nat.not_lt_zero i)
  nested := .nil
  warned := ⟨.nil, fun line w => by simp [State.start]⟩

theorem keepsIff (h : Stands lines defines n s) :
    s.keeps = true ↔ ∀ i, OpenAt lines i n → InSelected lines defines i n := by
  rw [State.keeps, List.all_eq_true]
  constructor
  · intro active i inside
    obtain ⟨r, found, tells⟩ := h.complete i inside
    exact tells.active.mp (active r (List.mem_of_getElem? found))
  · intro selected r mem
    obtain ⟨t, found⟩ := List.getElem?_of_mem mem
    obtain ⟨i, _, tells⟩ := h.known t r found
    exact tells.active.mpr (selected i tells.inside)

theorem outside (h : Stands lines defines n s) (none : s.regions = []) (i : Nat) : ¬ OpenAt lines i n := by
  intro inside
  obtain ⟨r, found, _⟩ := h.complete i inside
  simp [none] at found

theorem warnedKeep (h : Stands lines defines n s) (fine : ∀ w, ¬ LoneAt lines n w) :
    Lists s.warnings.reverse fun j w => j < n + 1 ∧ LoneAt lines j w := by
  refine ⟨h.warned.ordered, fun line w => ?_⟩
  rw [h.warned.listed]
  refine exists_congr fun j => and_congr_right fun _ => ⟨fun ⟨less, lone⟩ => ⟨by omega, lone⟩, ?_⟩
  rintro ⟨less, lone⟩
  rcases Nat.lt_succ_iff_lt_or_eq.mp less with less | rfl
  · exact ⟨less, lone⟩
  · exact absurd lone (fine w)

theorem warnedMore (h : Stands lines defines n s) {w : Warning} (lone : LoneAt lines n w) :
    Lists ((n + 1, w) :: s.warnings).reverse fun j w => j < n + 1 ∧ LoneAt lines j w := by
  constructor
  · rw [List.reverse_cons, List.pairwise_append]
    refine ⟨h.warned.ordered, List.pairwise_singleton _ _, fun a mem b last => ?_⟩
    obtain ⟨j, same, less, _⟩ := (h.warned.listed a.1 a.2).mp mem
    rw [List.mem_singleton.mp last, same]
    exact Nat.succ_lt_succ less
  · intro line v
    rw [List.reverse_cons, List.mem_append, h.warned.listed, List.mem_singleton, Prod.mk.injEq]
    constructor
    · rintro (⟨j, same, less, ofJ⟩ | ⟨rfl, rfl⟩)
      · exact ⟨j, same, by omega, ofJ⟩
      · exact ⟨n, rfl, Nat.lt_succ_self n, lone⟩
    · rintro ⟨j, same, less, ofJ⟩
      rcases Nat.lt_succ_iff_lt_or_eq.mp less with less | rfl
      · exact .inl ⟨j, same, less, ofJ⟩
      · exact .inr ⟨same, Option.some.inj (ofJ.wrong.symm.trans lone.wrong)⟩

theorem flatNext (opening : isOpening (mark lines n) = false) (closing : isClosing (mark lines n) = false) :
    (OpenAt lines i (n + 1) ↔ OpenAt lines i n) ∧ (OpenAt lines i n → inner lines i (n + 1) = inner lines i n) := by
  refine ⟨by rw [openAtNext]; simp [opening, closing], fun inside => ?_⟩
  rw [innerSucc inside (by simp [closing])]
  simp [opening, closing]

theorem plain (h : Stands lines defines n s) (none : mark lines n = none) : Stands lines defines (n + 1) s where
  known t r found := by
    obtain ⟨i, level, tells⟩ := h.known t r found
    have ⟨stays, same⟩ := flatNext (i := i) (congrArg isOpening none) (congrArg isClosing none)
    refine ⟨i, (same tells.inside).trans level, tells.keep (stays.mpr tells.inside) fun branch => ?_⟩
    simp [branchAtIff tells.inside.before, none] at branch
  complete i inside := by
    have ⟨stays, same⟩ := flatNext (i := i) (congrArg isOpening none) (congrArg isClosing none)
    have before := stays.mp inside
    obtain ⟨r, found, tells⟩ := h.complete i before
    refine ⟨r, by rwa [same before], tells.keep inside fun branch => ?_⟩
    simp [branchAtIff before.before, none] at branch
  nested := h.nested
  warned := h.warnedKeep fun w lone => by simpa [none] using lone.wrong

theorem opens (h : Stands lines defines n s) {condition : List Char} (opened : mark lines n = some (.opens condition))
    {active : Bool} (same : active = true ↔ holdsAt lines defines n) :
    Stands lines defines (n + 1) { s with regions := ⟨n + 1, active, active⟩ :: s.regions } := by
  have opening : isOpening (mark lines n) = true := by rw [opened]; rfl
  have closing : isClosing (mark lines n) = false := by rw [opened]; rfl
  have later {i : Nat} (inside : OpenAt lines i n) :
      OpenAt lines i (n + 1) ∧ inner lines i (n + 1) = inner lines i n + 1 ∧ ¬ BranchAt lines i n := by
    refine ⟨openAtNext.mpr (.inr ⟨inside, by simp [closing]⟩), ?_, fun branch => ?_⟩
    · rw [innerSucc inside (by simp [closing])]
      simp [opening, closing]
    · simp [branchAtIff inside.before, opened] at branch
  refine ⟨fun t r found => ?_, fun i inside => ?_, ?_, ?_⟩
  · cases t with
    | zero =>
      obtain rfl : ⟨n + 1, active, active⟩ = r := by simpa using found
      exact ⟨n, innerOpening, .opens opening same⟩
    | succ t =>
      obtain ⟨i, level, tells⟩ := h.known t r (by simpa using found)
      obtain ⟨inside, deeper, other⟩ := later tells.inside
      exact ⟨i, by rw [deeper, level], tells.keep inside other⟩
  · rcases openAtNext.mp inside with ⟨rfl, _⟩ | ⟨before, _⟩
    · exact ⟨_, by rw [innerOpening]; rfl, .opens opening same⟩
    · obtain ⟨r, found, tells⟩ := h.complete i before
      obtain ⟨_, deeper, other⟩ := later before
      exact ⟨r, by rw [deeper]; exact found, tells.keep inside other⟩
  · refine List.pairwise_cons.mpr ⟨fun r mem => ?_, h.nested⟩
    obtain ⟨t, found⟩ := List.getElem?_of_mem mem
    obtain ⟨i, _, tells⟩ := h.known t r found
    rw [tells.openedAt]
    exact Nat.succ_lt_succ tells.inside.before
  · exact h.warnedKeep fun w lone => by simpa [opened, loneWarning] using lone.wrong

theorem closes (h : Stands lines defines n s) (closed : mark lines n = some .closes) :
    Stands lines defines (n + 1) (s.apply (defines.map String.toList) (n + 1) .closes) := by
  have opening : isOpening (mark lines n) = false := by rw [closed]; rfl
  have closing : isClosing (mark lines n) = true := by rw [closed]; rfl
  have earlier {i : Nat} (inside : OpenAt lines i (n + 1)) : OpenAt lines i n ∧ inner lines i n = inner lines i (n + 1) + 1 := by
    obtain ⟨before, some⟩ : OpenAt lines i n ∧ 0 < inner lines i n := by
      simpa [openAtNext, opening, closing] using inside
    refine ⟨before, ?_⟩
    rw [innerSucc before fun _ => some]
    simp only [opening, closing, Bool.false_eq_true, if_false, if_true]
    omega
  have other {i : Nat} (inside : OpenAt lines i n) : ¬ BranchAt lines i n := fun branch => by
    simp [branchAtIff inside.before, closed] at branch
  obtain ⟨regions, warnings⟩ := s
  cases regions with
  | nil =>
    have lone : LoneAt lines n .loneClose := ⟨by rw [closed]; rfl, h.outside rfl⟩
    exact ⟨fun t r found => by simp [State.apply] at found,
      fun i inside => absurd (earlier inside).1 (h.outside rfl i), .nil, h.warnedMore lone⟩
  | cons top outer =>
    refine ⟨fun t r found => ?_, fun i inside => ?_, (List.pairwise_cons.mp h.nested).2, ?_⟩
    · obtain ⟨i, level, tells⟩ := h.known (t + 1) r found
      have inside : OpenAt lines i (n + 1) := openAtNext.mpr (.inr ⟨tells.inside, fun _ => by omega⟩)
      have := (earlier inside).2
      exact ⟨i, by omega, tells.keep inside (other tells.inside)⟩
    · obtain ⟨before, deeper⟩ := earlier inside
      obtain ⟨r, found, tells⟩ := h.complete i before
      rw [deeper] at found
      exact ⟨r, found, tells.keep inside (other before)⟩
    · refine h.warnedKeep fun w lone => ?_
      obtain ⟨i, _, tells⟩ := h.known 0 top rfl
      exact lone.outside i tells.inside

theorem branch (h : Stands lines defines n s)
    (cut : (∃ condition, mark lines n = some (.otherwiseIf condition)) ∨ mark lines n = some .otherwise)
    {condition : Bool} (same : condition = true ↔ holdsAt lines defines n) {lone : Warning}
    (wrong : (mark lines n).bind loneWarning = some lone) :
    Stands lines defines (n + 1) (s.branch (n + 1) condition lone) := by
  have opening : isOpening (mark lines n) = false := by
    rcases cut with ⟨_, cut⟩ | cut <;> rw [cut] <;> rfl
  have closing : isClosing (mark lines n) = false := by
    rcases cut with ⟨_, cut⟩ | cut <;> rw [cut] <;> rfl
  obtain ⟨regions, warnings⟩ := s
  cases regions with
  | nil =>
    exact ⟨fun t r found => by simp [State.branch] at found,
      fun i inside => absurd ((flatNext opening closing).1.mp inside) (h.outside rfl i), .nil,
      h.warnedMore ⟨wrong, h.outside rfl⟩⟩
  | cons top outer =>
    have moved {i : Nat} (inside : OpenAt lines i n) : OpenAt lines i (n + 1) ∧ inner lines i (n + 1) = inner lines i n ∧
        (BranchAt lines i n ↔ inner lines i n = 0) := by
      have ⟨stays, level⟩ := flatNext (i := i) opening closing
      refine ⟨stays.mpr inside, level inside, ?_⟩
      rw [branchAtIff inside.before, and_iff_right inside, and_iff_left cut]
    refine ⟨fun t r found => ?_, fun i inside => ?_, List.pairwise_cons.mpr (List.pairwise_cons.mp h.nested), ?_⟩
    · cases t with
      | zero =>
        obtain ⟨i, level, tells⟩ := h.known 0 top rfl
        obtain ⟨inside, same', branch⟩ := moved tells.inside
        exact ⟨i, by rw [same', level], Option.some.inj found ▸ tells.branch inside (branch.mpr level) same⟩
      | succ t =>
        obtain ⟨i, level, tells⟩ := h.known (t + 1) r found
        obtain ⟨inside, same', branch⟩ := moved tells.inside
        exact ⟨i, by rw [same', level], tells.keep inside (by rw [branch, level]; exact Nat.succ_ne_zero t)⟩
    · have before := (flatNext opening closing).1.mp inside
      obtain ⟨r, found, tells⟩ := h.complete i before
      obtain ⟨_, same', branch⟩ := moved before
      rw [same']
      cases level : inner lines i n with
      | zero =>
        rw [level] at found
        obtain rfl := Option.some.inj found
        exact ⟨_, rfl, tells.branch inside (branch.mpr level) same⟩
      | succ t =>
        rw [level] at found
        exact ⟨r, found, tells.keep inside (by rw [branch, level]; exact Nat.succ_ne_zero t)⟩
    · refine h.warnedKeep fun w lone => ?_
      obtain ⟨i, _, tells⟩ := h.known 0 top rfl
      exact lone.outside i tells.inside

theorem directiveTrimmed {line : List Char} {d : Directive} (found : directive line = some d) :
    ∀ condition, d = .opens condition ∨ d = .otherwiseIf condition → isTrimmed condition := by
  intro condition same
  simp only [directive] at found
  split at found
  · split at found
    · contradiction
    · split at found <;> grind [trimmedTrim]
  · contradiction

theorem next (h : Stands lines defines n s) {d : Directive} (found : mark lines n = some d) :
    Stands lines defines (n + 1) (s.apply (defines.map String.toList) (n + 1) d) := by
  obtain ⟨line, _, ofLine⟩ := Option.bind_eq_some_iff.mp found
  have trimmed := directiveTrimmed ofLine
  cases d with
  | opens condition =>
    refine h.opens found ?_
    rw [holdsIff defines (trimmed condition (.inl rfl)), holdsAt, found]
  | otherwiseIf condition =>
    refine h.branch (.inl ⟨condition, found⟩) ?_ (by rw [found]; rfl)
    rw [holdsIff defines (trimmed condition (.inr rfl)), holdsAt, found]
  | otherwise =>
    refine h.branch (.inr found) ?_ (by rw [found]; rfl)
    simp [holdsAt, found]
  | closes => exact h.closes found

end Stands

end Stack

structure Shows (lines : List (List Char)) (defines : List String) (n : Nat) (shown : List (List Char)) : Prop where
  length : shown.length = n
  kept : ∀ j < n, Kept lines defines j → shown[j]? = lines[j]?
  blank : ∀ j < n, ¬ Kept lines defines j → shown[j]? = some []

theorem Shows.snoc {lines : List (List Char)} {defines : List String} {n : Nat} {shown : List (List Char)}
    (h : Shows lines defines n shown) {line : List Char} (kept : Kept lines defines n → lines[n]? = some line)
    (blank : ¬ Kept lines defines n → line = []) : Shows lines defines (n + 1) (shown ++ [line]) := by
  have last : (shown ++ [line])[n]? = some line := by simp [← h.length]
  have front {j : Nat} (less : j < n) : (shown ++ [line])[j]? = shown[j]? :=
    List.getElem?_append_left (by rw [h.length]; exact less)
  refine ⟨by simp [h.length], fun j less ofJ => ?_, fun j less other => ?_⟩
  · rcases Nat.lt_succ_iff_lt_or_eq.mp less with less | rfl
    · rw [front less, h.kept j less ofJ]
    · rw [last, kept ofJ]
  · rcases Nat.lt_succ_iff_lt_or_eq.mp less with less | rfl
    · rw [front less, h.blank j less other]
    · rw [last, blank other]

theorem Shows.filled {lines : List (List Char)} {defines : List String} {shown : List (List Char)}
    (h : Shows lines defines lines.length shown) (some : lines ≠ []) : shown ≠ [] := by
  rw [← List.length_pos_iff, h.length]
  exact List.length_pos_iff.mpr some

theorem Shows.plain {lines : List (List Char)} {defines : List String} {shown : List (List Char)}
    (h : Shows lines defines lines.length shown) (plain : ∀ line ∈ lines, '\n' ∉ line) :
    ∀ line ∈ shown, '\n' ∉ line := by
  intro line mem
  obtain ⟨j, found⟩ := List.getElem?_of_mem mem
  have less : j < lines.length := h.length ▸ (List.getElem?_eq_some_iff.mp found).1
  by_cases kept : Kept lines defines j
  · exact plain line (List.mem_of_getElem? ((h.kept j less kept).symm.trans found))
  · obtain rfl := Option.some.inj ((h.blank j less kept).symm.trans found)
    exact List.not_mem_nil

theorem Lists.within {lines : List (List Char)} {warnings : List (Nat × Warning)}
    (h : Lists warnings fun j w => j < lines.length ∧ LoneAt lines j w) : Lists warnings (LoneAt lines) := by
  refine ⟨h.ordered, fun line w => (h.listed line w).trans (exists_congr fun j => and_congr_right fun _ => ?_)⟩
  refine and_iff_right_of_imp fun lone => ?_
  obtain ⟨d, found, _⟩ := Option.bind_eq_some_iff.mp lone.wrong
  obtain ⟨line, there, _⟩ := Option.bind_eq_some_iff.mp found
  exact (List.getElem?_eq_some_iff.mp there).1

theorem selectLinesShows (defines : List String) (before rest : List (List Char)) {s : State}
    (stack : Stands (before ++ rest) defines before.length s) {shown : List (List Char)}
    (shows : Shows (before ++ rest) defines before.length shown.reverse) :
    let result := selectLines (defines.map String.toList) s shown (rest.zipIdx (before.length + 1))
    Shows (before ++ rest) defines (before ++ rest).length result.1 ∧
      Stands (before ++ rest) defines (before ++ rest).length result.2 := by
  induction rest generalizing before s shown with
  | nil =>
    rw [List.append_nil] at shows stack ⊢
    exact ⟨shows, stack⟩
  | cons line rest ih =>
    have whole : before ++ line :: rest = (before ++ [line]) ++ rest := by simp
    have count : (before ++ [line]).length = before.length + 1 := by simp
    have here : (before ++ line :: rest)[before.length]? = some line := by simp
    have ofLine : mark (before ++ line :: rest) before.length = directive line := by rw [mark, here]; rfl
    rw [List.zipIdx_cons]
    simp only [selectLines]
    split
    · rename_i d found
      have shown' : Shows (before ++ line :: rest) defines (before.length + 1) (([] :: shown).reverse) := by
        rw [List.reverse_cons]
        refine shows.snoc (fun kept => ?_) fun _ => rfl
        have := kept.plain
        rw [ofLine, found] at this
        contradiction
      have stack' := stack.next (ofLine.trans found)
      rw [whole] at shown' stack' ⊢
      rw [← count] at shown' stack' ⊢
      exact ih (before ++ [line]) stack' shown'
    · rename_i none
      have kept : s.keeps = true ↔ Kept (before ++ line :: rest) defines before.length := by
        rw [stack.keepsIff]
        exact ⟨fun selected => ⟨ofLine.trans none, selected⟩, fun kept => kept.selected⟩
      have shown' : Shows (before ++ line :: rest) defines (before.length + 1)
          (((if s.keeps then line else []) :: shown).reverse) := by
        rw [List.reverse_cons]
        refine shows.snoc (fun ofLine => ?_) fun other => ?_
        · rw [if_pos (kept.mpr ofLine), here]
        · rw [if_neg (fun keeps => other (kept.mp keeps))]
      have stack' := stack.plain (ofLine.trans none)
      rw [whole] at shown' stack' ⊢
      rw [← count] at shown' stack' ⊢
      exact ih (before ++ [line]) stack' shown'

theorem allLinesShow (defines : List String) (lines : List (List Char)) :
    let result := selectLines (defines.map String.toList) .start [] (lines.zipIdx 1)
    Shows lines defines lines.length result.1 ∧ Stands lines defines lines.length result.2 :=
  selectLinesShows defines [] lines Stands.start
    ⟨rfl, fun j less => absurd less (Nat.not_lt_zero j), fun j less => absurd less (Nat.not_lt_zero j)⟩

theorem neverClosedLists {lines : List (List Char)} {defines : List String} {s : State} {n : Nat}
    (h : Stands lines defines n s) :
    Lists (s.regions.map fun r => (r.openedAt, Warning.neverClosed)).reverse
      fun i w => w = .neverClosed ∧ OpenAt lines i n := by
  constructor
  · rw [List.pairwise_reverse, List.pairwise_map]
    exact h.nested
  · intro line w
    simp only [List.mem_reverse, List.mem_map, Prod.mk.injEq]
    constructor
    · rintro ⟨r, mem, rfl, rfl⟩
      obtain ⟨t, found⟩ := List.getElem?_of_mem mem
      obtain ⟨i, _, tells⟩ := h.known t r found
      exact ⟨i, tells.openedAt, rfl, tells.inside⟩
    · rintro ⟨i, rfl, rfl, inside⟩
      obtain ⟨r, found, tells⟩ := h.complete i inside
      exact ⟨r, List.mem_of_getElem? found, tells.openedAt, rfl⟩

open Classical in
theorem Shows.eq {lines : List (List Char)} {defines : List String} {shown : List (List Char)}
    (h : Shows lines defines lines.length shown) :
    shown = lines.mapIdx fun j line => if Kept lines defines j then line else [] := by
  refine List.ext_getElem? fun j => ?_
  rw [List.getElem?_mapIdx]
  by_cases less : j < lines.length
  · rw [List.getElem?_eq_getElem less, Option.map_some]
    split
    · rename_i kept
      rw [h.kept j less kept, List.getElem?_eq_getElem less]
    · rename_i other
      exact h.blank j less other
  · have beyond : lines.length ≤ j := Nat.le_of_not_lt less
    rw [List.getElem?_eq_none (Nat.le_trans (Nat.le_of_eq h.length) beyond), List.getElem?_eq_none beyond, Option.map_none]

theorem selectLinesPlain (defines : List (List Char)) {s : State} (keeps : s.keeps = true)
    (kept : List (List Char)) {lines : List (List Char × Nat)} (plain : ∀ line ∈ lines, directive line.1 = none) :
    selectLines defines s kept lines = (kept.reverse ++ lines.map Prod.fst, s) := by
  induction lines generalizing kept with
  | nil => simp [selectLines]
  | cons line rest ih =>
    obtain ⟨first, others⟩ := List.forall_mem_cons.mp plain
    rw [selectLines, first]
    simp [keeps, ih _ others]

theorem selectPlain (defines : List String) {text : List Char}
    (plain : ∀ line ∈ splitLines text, directive line = none) : select defines text = ⟨text, []⟩ := by
  have plain : ∀ line ∈ numberedLines text, directive line.1 = none := fun line mem =>
    plain line.1 (numberedLinesFst text ▸ List.mem_map_of_mem mem)
  have all := selectLinesPlain (defines.map String.toList) (s := .start) rfl [] plain
  have whole : Text.join '\n' (splitLines text) = text := Text.joinSplit '\n' text
  rw [select, all]
  simp only [List.reverse_nil, List.nil_append, numberedLinesFst, whole]
  rfl

def State.renumbered (f : Nat → Nat) (s : State) : State :=
  ⟨s.regions.map fun r => { r with openedAt := f r.openedAt }, s.warnings.map (Prod.map f id)⟩

section Renumbered

variable (f : Nat → Nat)

theorem keepsRenumbered (s : State) : (s.renumbered f).keeps = s.keeps := by
  simp [State.keeps, State.renumbered, Function.comp_def]

theorem branchRenumbered (s : State) (line : Nat) (condition : Bool) (lone : Warning) :
    (s.renumbered f).branch (f line) condition lone = (s.branch line condition lone).renumbered f := by
  obtain ⟨regions, warnings⟩ := s
  cases regions <;> rfl

theorem applyRenumbered (defines : List (List Char)) (s : State) (line : Nat) (d : Directive) :
    (s.renumbered f).apply defines (f line) d = (s.apply defines line d).renumbered f := by
  cases d with
  | opens condition => rfl
  | otherwiseIf condition => exact branchRenumbered f s line _ _
  | otherwise => exact branchRenumbered f s line _ _
  | closes =>
    obtain ⟨regions, warnings⟩ := s
    cases regions <;> rfl

theorem selectLinesRenumbered (defines : List (List Char)) (s : State) (kept : List (List Char))
    (lines : List (List Char × Nat)) :
    selectLines defines (s.renumbered f) kept (lines.map (Prod.map id f)) =
      Prod.map id (State.renumbered f) (selectLines defines s kept lines) := by
  induction lines generalizing s kept with
  | nil => rfl
  | cons line rest ih =>
    obtain ⟨line, number⟩ := line
    simp only [List.map_cons, Prod.map_apply, id_eq, selectLines, keepsRenumbered, applyRenumbered]
    cases directive line with
    | some d => exact ih _ _
    | none => exact ih _ _

theorem allWarningsRenumbered (s : State) :
    (s.renumbered f).allWarnings = s.allWarnings.map (Prod.map f id) := by
  simp [State.allWarnings, State.renumbered, Function.comp_def]

end Renumbered

/-- The number of a line, which is no larger than 32 bits can tell. -/
def heldNumber (number : Nat) : Nat := min number Position.maxNumber

theorem selectCounted (defines : List String) (source : List Char) :
    let result := selectLines (defines.map String.toList) .start [] ((splitLines source).zipIdx 1)
    select defines source = ⟨Text.join '\n' result.1, result.2.allWarnings.map (Prod.map heldNumber id)⟩ := by
  intro result
  have numbered : numberedLines source = ((splitLines source).zipIdx 1).map (Prod.map id heldNumber) := rfl
  have same := selectLinesRenumbered heldNumber (defines.map String.toList) .start [] ((splitLines source).zipIdx 1)
  have start : State.start.renumbered heldNumber = .start := rfl
  rw [start, ← numbered] at same
  simp only [select, same, Prod.map_fst, Prod.map_snd, id_eq, allWarningsRenumbered, result]

open Classical in
/-- A line is kept where it is no directive and is in the selected branch of every region that is open
there, and is empty anywhere else. What is warned of are the directives that no region is open at, and
then the regions that are never closed; a line with a number larger than 32 bits can tell is given the largest
number. -/
theorem selectsBranches (defines : List String) (source : List Char) :
    splitLines (select defines source).text =
        (splitLines source).mapIdx (fun j line => if Kept (splitLines source) defines j then line else []) ∧
      ∃ lone unclosed, (select defines source).warnings = (lone ++ unclosed).map (Prod.map heldNumber id) ∧
        Lists lone (LoneAt (splitLines source)) ∧
        Lists unclosed fun i w => w = .neverClosed ∧ OpenAt (splitLines source) i (splitLines source).length := by
  obtain ⟨shows, stack⟩ := allLinesShow defines (splitLines source)
  have lines := Text.splitJoin (shows.filled (splitLinesNe source)) (shows.plain fun line mem => linePlain mem)
  rw [selectCounted]
  exact ⟨lines.trans shows.eq, _, _, rfl, stack.warned.within, neverClosedLists stack⟩

theorem numbersHeld {defines : List String} {source : List Char} {warning : Nat × Warning}
    (mem : warning ∈ (select defines source).warnings) : warning.1 ≤ Position.maxNumber := by
  rw [selectCounted] at mem
  obtain ⟨counted, _, rfl⟩ := List.mem_map.mp mem
  exact Nat.min_le_right _ _

theorem loneBehindBlank (n : Nat) :
    LoneAt (splitLines (List.replicate n '\n' ++ "#else".toList)) n .loneOtherwise := by
  have lines : splitLines (List.replicate n '\n' ++ "#else".toList) = List.replicate n [] ++ ["#else".toList] := by
    induction n with
    | zero => rfl
    | succ n ih => rw [List.replicate_succ, List.cons_append, splitLines, Text.splitMark, ← splitLines, ih]; rfl
  have last : (List.replicate n [] ++ ["#else".toList])[n]? = some "#else".toList := by
    rw [List.getElem?_append_right (by simp)]
    simp
  rw [lines]
  refine ⟨by rw [mark, last]; rfl, fun i inside => ?_⟩
  have blank : (List.replicate n [] ++ ["#else".toList])[i]? = some [] := by
    rw [List.getElem?_append_left (by simpa using inside.before)]
    simp [inside.before]
  have opened := inside.opened
  rw [mark, blank] at opened
  contradiction

/-- Behind as many lines as 32 bits can number the directive that is warned of is not the one that is named. -/
theorem farDirectiveMisnamed :
    let source := List.replicate Position.maxNumber '\n' ++ "#else".toList
    ¬ ∃ lone unclosed, (select [] source).warnings = lone ++ unclosed ∧ Lists lone (LoneAt (splitLines source)) ∧
      Lists unclosed fun i w => w = .neverClosed ∧ OpenAt (splitLines source) i (splitLines source).length := by
  rintro source ⟨lone, unclosed, warnings, listed, _⟩
  have named : (Position.maxNumber + 1, Warning.loneOtherwise) ∈ lone :=
    (listed.listed _ _).mpr ⟨_, rfl, loneBehindBlank Position.maxNumber⟩
  have held := numbersHeld (warnings ▸ List.mem_append_left unclosed named)
  exact absurd held (Nat.not_succ_le_self _)

end Boogie.Conditional
