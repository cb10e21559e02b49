import Boogie.Proofs.Source.Places
import Boogie.Proofs.Token.Layout

/-! Where a comment ends. Behind its opening mark, a text is a row of marks that open and marks that close, with other
characters in between, and no character belongs to two marks. The comment ends with the shortest part in which one mark
more closes than opens; if there is no such part it takes all that there is. Reading bytes and counting the comments
that are open comes to the same, between two characters, and never closes what is not open. -/
namespace Boogie.Token

inductive Mark where
  | opening
  | closing
  deriving DecidableEq, Repr

def marks : List Char → List Mark
  | '/' :: '*' :: rest => .opening :: marks rest
  | '*' :: '/' :: rest => .closing :: marks rest
  | _ :: rest => marks rest
  | [] => []

def Surplus (depth : Nat) (text : List Char) : Prop :=
  (marks text).count .closing = (marks text).count .opening + depth

structure Shortest (depth : Nat) (text : List Char) (n : Nat) : Prop where
  within : n ≤ text.length
  surplus : Surplus depth (text.take n)
  first (m : Nat) (less : m < n) : ¬ Surplus depth (text.take m)

structure Leads (depth : Nat) (text : List Char) (size due : Nat) (rest : List Char) : Prop where
  length : text.length = rest.length + size
  inside (m : Nat) (less : m < size) : ¬ Surplus depth (text.take m)
  behind (m : Nat) : Surplus depth (text.take (m + size)) ↔ Surplus due (rest.take m)

namespace Leads

variable {depth size due : Nat} {text rest : List Char}

theorem shortest (h : Leads depth text size due rest) {n : Nat} (shortest : Shortest due rest n) :
    Shortest depth text (n + size) where
  within := by
    have := h.length
    have := shortest.within
    omega
  surplus := (h.behind n).mpr shortest.surplus
  first m less := by
    by_cases inside : m < size
    · exact h.inside m inside
    · have split : m = m - size + size := by omega
      rw [split, h.behind]
      exact shortest.first _ (by omega)

theorem never (h : Leads depth text size due rest) (none : ∀ n, ¬ Surplus due (rest.take n)) (n : Nat) :
    ¬ Surplus depth (text.take n) := by
  by_cases inside : n < size
  · exact h.inside n inside
  · have split : n = n - size + size := by omega
    rw [split, h.behind]
    exact none _

end Leads

theorem surplusMark {depth m : Nat} (a b : Char) (rest : List Char) (less : m < 2) :
    ¬ Surplus (depth + 1) ((a :: b :: rest).take m) := by
  have single : marks [a] = [] := by
    rw [marks] <;> simp [marks]
  match m with
  | 0 => simp [Surplus, marks]
  | 1 => simp [Surplus, single]

theorem leadsOpening (depth : Nat) (rest : List Char) :
    Leads (depth + 1) ('/' :: '*' :: rest) 2 (depth + 2) rest where
  length := rfl
  inside _ less := surplusMark _ _ _ less
  behind m := by
    simp only [Surplus, List.take_succ_cons, marks, List.count_cons]
    simp
    omega

theorem leadsClosing (depth : Nat) (rest : List Char) :
    Leads (depth + 1) ('*' :: '/' :: rest) 2 depth rest where
  length := rfl
  inside _ less := surplusMark _ _ _ less
  behind m := by
    simp only [Surplus, List.take_succ_cons, marks, List.count_cons]
    simp
    omega

theorem takeCons {m : Nat} {c : Char} {rest tail : List Char} (h : rest.take m = c :: tail) :
    ∃ tail, rest = c :: tail :=
  ⟨tail ++ rest.drop m, by rw [← List.cons_append, ← h, List.take_append_drop]⟩

theorem leadsOther {depth : Nat} {c : Char} {rest : List Char}
    (outer : ∀ tail, c = '/' → rest = '*' :: tail → False) (inner : ∀ tail, c = '*' → rest = '/' :: tail → False) :
    Leads (depth + 1) (c :: rest) 1 (depth + 1) rest where
  length := rfl
  inside m less := by
    obtain rfl : m = 0 := by omega
    simp [Surplus, marks]
  behind m := by
    have skipped : marks (c :: rest.take m) = marks (rest.take m) := by
      rw [marks]
      · exact fun _ same part => (takeCons part).elim (outer · same)
      · exact fun _ same part => (takeCons part).elim (inner · same)
    rw [List.take_succ_cons, Surplus, skipped, Surplus]

theorem surplusNone (text : List Char) : Shortest 0 text 0 :=
  ⟨Nat.zero_le _, rfl, fun _ less => absurd less (Nat.not_lt_zero _)⟩

theorem shortestOfLength {depth count n : Nat} {text : List Char} (h : commentLength depth count text = some n) :
    ∃ size, n = count + size ∧ Shortest (depth + 1) text size := by
  fun_induction commentLength depth count text with
  | case1 depth count rest ih =>
    obtain ⟨size, rfl, shortest⟩ := ih h
    exact ⟨size + 2, by omega, (leadsOpening _ _).shortest shortest⟩
  | case2 count rest =>
    cases h
    exact ⟨2, rfl, (leadsClosing _ _).shortest (surplusNone rest)⟩
  | case3 count rest depth ih =>
    obtain ⟨size, rfl, shortest⟩ := ih h
    exact ⟨size + 2, by omega, (leadsClosing _ _).shortest shortest⟩
  | case4 depth count c rest outer inner ih =>
    obtain ⟨size, rfl, shortest⟩ := ih h
    exact ⟨size + 1, by omega, (leadsOther outer inner).shortest shortest⟩
  | case5 => contradiction

theorem neverOfLength {depth count : Nat} {text : List Char} (h : commentLength depth count text = none) (n : Nat) :
    ¬ Surplus (depth + 1) (text.take n) := by
  fun_induction commentLength depth count text generalizing n with
  | case1 depth count rest ih => exact (leadsOpening _ _).never (ih h) n
  | case2 => contradiction
  | case3 count rest depth ih => exact (leadsClosing _ _).never (ih h) n
  | case4 depth count c rest outer inner ih => exact (leadsOther outer inner).never (ih h) n
  | case5 => simp [Surplus, marks]

def bytes (text : List Char) : List UInt8 := (String.ofList text).toUTF8.data.toList

theorem bytesEq (text : List Char) : bytes text = text.flatMap String.utf8EncodeChar :=
  List.toList_data_toByteArray

/-- How a comment comes out: it is closed when so many bytes are read, it is open when all of them are, or a mark closes
one too many. -/
inductive Ending where
  | closed (read : Nat)
  | unclosed (read : Nat)
  | underflow
  deriving DecidableEq, Repr

/-- Reads bytes, of which so many are read, with as many comments open. -/
def readComment (depth read : Nat) : List UInt8 → Ending
  | 0x2f :: 0x2a :: rest => readComment (depth + 1) (read + 2) rest
  | 0x2a :: 0x2f :: rest =>
    match depth with
    | 0 => .underflow
    | 1 => .closed (read + 2)
    | depth + 2 => readComment (depth + 1) (read + 2) rest
  | _ :: rest => readComment depth (read + 1) rest
  | [] => .unclosed read

@[simp] theorem bytesNil : bytes [] = [] := bytesEq []

@[simp] theorem bytesCons (c : Char) (rest : List Char) :
    bytes (c :: rest) = String.utf8EncodeChar c ++ bytes rest := by
  rw [bytesEq, bytesEq, List.flatMap_cons]

theorem byteNumber {n : Nat} (less : n < 0x100) : (UInt8.ofNat n).toNat = n := by
  rw [UInt8.toNat_ofNat', Nat.mod_eq_of_lt less]

theorem encoded (c : Char) :
    (c.toNat < 0x80 ∧ String.utf8EncodeChar c = [UInt8.ofNat c.toNat]) ∨
      ∀ b ∈ String.utf8EncodeChar c, 0x80 ≤ b.toNat := by
  unfold String.utf8EncodeChar
  by_cases ascii : c.val.toNat ≤ 127
  · exact .inl ⟨Nat.lt_succ_of_le ascii, by rw [if_pos ascii]; rfl⟩
  · right
    have high (n : Nat) (low : 0x80 ≤ n) (less : n < 0x100) : 0x80 ≤ (UInt8.ofNat n).toNat := by
      rwa [byteNumber less]
    simp only [if_neg ascii]
    intro b mem
    split at mem
    · simp only [List.mem_cons, List.not_mem_nil, or_false] at mem
      rcases mem with rfl | rfl <;> exact high _ (by omega) (by omega)
    · split at mem
      · simp only [List.mem_cons, List.not_mem_nil, or_false] at mem
        rcases mem with rfl | rfl | rfl <;> exact high _ (by omega) (by omega)
      · simp only [List.mem_cons, List.not_mem_nil, or_false] at mem
        rcases mem with rfl | rfl | rfl | rfl <;> exact high _ (by omega) (by omega)

theorem byteInj {c d : Char} (hc : c.toNat < 0x80) (hd : d.toNat < 0x80)
    (h : UInt8.ofNat c.toNat = UInt8.ofNat d.toNat) : c = d := by
  have numbers := congrArg UInt8.toNat h
  rw [byteNumber (by omega), byteNumber (by omega)] at numbers
  exact Char.toNat_inj.mp numbers

theorem bytesHead {c : Char} (ascii : c.toNat < 0x80) {text : List Char} {tail : List UInt8}
    (h : bytes text = UInt8.ofNat c.toNat :: tail) : ∃ rest, text = c :: rest := by
  cases text with
  | nil => simp at h
  | cons d rest =>
    rw [bytesCons] at h
    rcases encoded d with ⟨small, only⟩ | large
    · rw [only, List.singleton_append] at h
      exact ⟨rest, by rw [byteInj small ascii (List.cons.inj h).1]⟩
    · cases encode : String.utf8EncodeChar d with
      | nil => exact absurd encode (String.utf8EncodeChar_ne_nil)
      | cons b more =>
        rw [encode, List.cons_append] at h
        have := large b (encode ▸ List.mem_cons_self)
        rw [(List.cons.inj h).1, byteNumber (by omega)] at this
        omega

theorem readHigh {pre : List UInt8} (high : ∀ b ∈ pre, 0x80 ≤ b.toNat) (depth read : Nat) (rest : List UInt8) :
    readComment depth read (pre ++ rest) = readComment depth (read + pre.length) rest := by
  induction pre generalizing read with
  | nil => rfl
  | cons b pre ih =>
    obtain ⟨first, others⟩ := List.forall_mem_cons.mp high
    have other (mark : UInt8) (low : mark.toNat < 0x80) : b ≠ mark := by
      rintro rfl
      omega
    rw [List.cons_append, readComment, ih others]
    · rw [List.length_cons]
      congr 1
      omega
    · exact fun _ same => absurd same (other _ (by decide))
    · exact fun _ same => absurd same (other _ (by decide))

theorem readOther {c : Char} {rest : List Char} (outer : ∀ tail, c = '/' → rest = '*' :: tail → False)
    (inner : ∀ tail, c = '*' → rest = '/' :: tail → False) (depth read : Nat) :
    readComment depth read (bytes (c :: rest)) = readComment depth (read + c.utf8Size) (bytes rest) := by
  rw [bytesCons, ← String.length_utf8EncodeChar]
  rcases encoded c with ⟨ascii, only⟩ | high
  · rw [only, List.singleton_append, readComment]
    · rfl
    · intro tail first behind
      obtain ⟨_, rfl⟩ := bytesHead (c := '*') (by decide) behind
      exact outer _ (byteInj ascii (by decide) first) rfl
    · intro tail first behind
      obtain ⟨_, rfl⟩ := bytesHead (c := '/') (by decide) behind
      exact inner _ (byteInj ascii (by decide) first) rfl
  · exact readHigh high depth read _

theorem bytesOpening (rest : List Char) : bytes ('/' :: '*' :: rest) = 0x2f :: 0x2a :: bytes rest := by
  rw [bytesCons, bytesCons]
  rfl

theorem bytesClosing (rest : List Char) : bytes ('*' :: '/' :: rest) = 0x2a :: 0x2f :: bytes rest := by
  rw [bytesCons, bytesCons]
  rfl

theorem byteLengthMark (rest : List Char) :
    byteLength ('/' :: '*' :: rest) = 2 + byteLength rest ∧ byteLength ('*' :: '/' :: rest) = 2 + byteLength rest := by
  have slash : Char.utf8Size '/' = 1 := rfl
  have star : Char.utf8Size '*' = 1 := rfl
  simp only [byteLengthCons, slash, star]
  omega

theorem readClosed {depth count size : Nat} {text : List Char}
    (h : commentLength depth count text = some (count + size)) (read : Nat) :
    readComment (depth + 1) read (bytes text) = .closed (read + byteLength (text.take size)) := by
  fun_induction commentLength depth count text generalizing size read with
  | case1 depth count rest ih =>
    obtain ⟨more, same, -⟩ := shortestOfLength h
    obtain rfl : size = more + 2 := by omega
    rw [bytesOpening, readComment, ih (by rw [h]; congr 1)]
    simp only [List.take_succ_cons, (byteLengthMark _).1, Nat.add_assoc]
  | case2 count rest =>
    obtain rfl : size = 2 := by
      have := Option.some.inj h
      omega
    rw [bytesClosing, readComment]
    simp only [List.take_succ_cons, (byteLengthMark _).2, List.take_zero]
    rfl
  | case3 count rest depth ih =>
    obtain ⟨more, same, -⟩ := shortestOfLength h
    obtain rfl : size = more + 2 := by omega
    rw [bytesClosing, readComment, ih (by rw [h]; congr 1)]
    simp only [List.take_succ_cons, (byteLengthMark _).2, Nat.add_assoc]
  | case4 depth count c rest outer inner ih =>
    obtain ⟨more, same, -⟩ := shortestOfLength h
    obtain rfl : size = more + 1 := by omega
    rw [readOther outer inner, ih (by rw [h]; congr 1), List.take_succ_cons, byteLengthCons, Nat.add_assoc]
  | case5 => contradiction

theorem readUnclosed {depth count : Nat} {text : List Char} (h : commentLength depth count text = none) (read : Nat) :
    readComment (depth + 1) read (bytes text) = .unclosed (read + byteLength text) := by
  fun_induction commentLength depth count text generalizing read with
  | case1 depth count rest ih =>
    rw [bytesOpening, readComment, ih h, (byteLengthMark _).1, Nat.add_assoc]
  | case2 => contradiction
  | case3 count rest depth ih =>
    rw [bytesClosing, readComment, ih h, (byteLengthMark _).2, Nat.add_assoc]
  | case4 depth count c rest outer inner ih =>
    rw [readOther outer inner, ih h, byteLengthCons, Nat.add_assoc]
  | case5 =>
    rw [bytesNil, readComment]
    rfl

/-- How a comment behind its opening mark comes out, as a lexeme and over its bytes. -/
inductive Ends (text : List Char) : Lexeme → Ending → Prop
  | closed {n} (h : Shortest 1 text n) : Ends text ⟨.layout, n + 2⟩ (.closed (byteLength (text.take n)))
  | unclosed (never : ∀ n, ¬ Surplus 1 (text.take n)) :
      Ends text ⟨.token .invalid, text.length + 2⟩ (.unclosed (byteLength text))

theorem endsSomehow (text : List Char) : Ends text (lexeme '/' ('*' :: text)) (readComment 1 0 (bytes text)) := by
  rw [lexemeComment, blockComment]
  cases h : commentLength 0 2 text with
  | none =>
    rw [readUnclosed h, Nat.zero_add]
    exact .unclosed (neverOfLength h)
  | some n =>
    obtain ⟨size, rfl, shortest⟩ := shortestOfLength h
    rw [readClosed h, Nat.zero_add, Nat.add_comm]
    exact .closed shortest

theorem Shortest.unique {depth n m : Nat} {text : List Char} (hn : Shortest depth text n)
    (hm : Shortest depth text m) : n = m := by
  have notLess := mt (hm.first n) (Classical.not_not.mpr hn.surplus)
  have notMore := mt (hn.first m) (Classical.not_not.mpr hm.surplus)
  omega

theorem Ends.unique {text : List Char} {l l' : Lexeme} {e e' : Ending} (h : Ends text l e) (h' : Ends text l' e') :
    l = l' ∧ e = e' := by
  cases h with
  | closed h =>
    cases h' with
    | closed h' =>
      obtain rfl := h.unique h'
      exact ⟨rfl, rfl⟩
    | unclosed never => exact absurd h.surplus (never _)
  | unclosed never =>
    cases h' with
    | closed h' => exact absurd h'.surplus (never _)
    | unclosed => exact ⟨rfl, rfl⟩

/-- A comment is the shortest part that closes it, or all that is left if none does; and its bytes, read with a count of
the comments that are open, are those of the same characters. -/
theorem commentEnds (text : List Char) (l : Lexeme) (e : Ending) :
    lexeme '/' ('*' :: text) = l ∧ readComment 1 0 (bytes text) = e ↔ Ends text l e := by
  constructor
  · rintro ⟨rfl, rfl⟩
    exact endsSomehow text
  · exact (endsSomehow text).unique

-- the star of the second opening mark closes nothing with the slash behind it
example : lexeme '/' "*/*/é*/**/ x".toList = ⟨.layout, 11⟩ := by decide +kernel

end Boogie.Token
