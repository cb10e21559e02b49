import Boogie.Proofs.Token.Spelling

/-! Layout: white space, comments to the end of a line, and comments that nest and are closed. The scanner
drops exactly this. -/
namespace Boogie.Token

inductive Closes : Nat → List Char → Prop where
  | last : Closes 0 ['*', '/']
  | close {depth body} (more : Closes depth body) : Closes (depth + 1) ('*' :: '/' :: body)
  | opening {depth body} (more : Closes (depth + 1) body) : Closes depth ('/' :: '*' :: body)
  | skip {depth body} (c : Char) (outer : ¬ ['/', '*'] <+: c :: body) (inner : ¬ ['*', '/'] <+: c :: body)
      (more : Closes depth body) : Closes depth (c :: body)

theorem prefixAppend {pre text : List Char} (h : pre <+: text) (rest : List Char) : pre <+: text ++ rest :=
  h.trans (List.prefix_append text rest)

theorem closesOfLength {depth count n : Nat} {text : List Char} (h : commentLength depth count text = some n) :
    ∃ body rest, text = body ++ rest ∧ Closes depth body ∧ n = count + body.length := by
  fun_induction commentLength depth count text with
  | case1 depth count rest ih =>
    obtain ⟨body, more, rfl, closed, length⟩ := ih h
    exact ⟨_, more, rfl, .opening closed, by simp [length]; omega⟩
  | case2 count rest =>
    cases h
    exact ⟨['*', '/'], rest, rfl, .last, rfl⟩
  | case3 count rest depth ih =>
    obtain ⟨body, more, rfl, closed, length⟩ := ih h
    exact ⟨_, more, rfl, .close closed, by simp [length]; omega⟩
  | case4 depth count c rest outer inner ih =>
    obtain ⟨body, more, rfl, closed, length⟩ := ih h
    refine ⟨c :: body, more, rfl, .skip c ?_ ?_ closed, by simp [length]; omega⟩
    · intro opens
      obtain ⟨tail, same⟩ := prefixAppend opens more
      obtain ⟨rfl, behind⟩ := List.cons.inj same
      exact outer _ rfl behind.symm
    · intro closes
      obtain ⟨tail, same⟩ := prefixAppend closes more
      obtain ⟨rfl, behind⟩ := List.cons.inj same
      exact inner _ rfl behind.symm
  | case5 => contradiction

theorem twoPrefix {a b c : Char} {rest : List Char} (h : ¬ [a, b] <+: c :: rest) (same : c = a) :
    rest.head? ≠ some b := by
  subst same
  intro head
  cases rest with
  | nil => contradiction
  | cons d rest =>
    cases head
    exact h ⟨rest, rfl⟩

theorem closesNe {depth : Nat} {body : List Char} (h : Closes depth body) : body ≠ [] := by
  cases h <;> simp

theorem lengthOfCloses {depth : Nat} {body : List Char} (h : Closes depth body) (count : Nat) (rest : List Char) :
    commentLength depth count (body ++ rest) = some (count + body.length) := by
  induction h generalizing count with
  | last => rfl
  | close more ih =>
    rw [List.cons_append, List.cons_append, commentLength, ih]
    simp
    omega
  | opening more ih =>
    rw [List.cons_append, List.cons_append, commentLength, ih]
    simp
    omega
  | @skip depth body c outer inner more ih =>
    have head : (body ++ rest).head? = body.head? := by
      cases body with
      | nil => exact absurd rfl (closesNe more)
      | cons d body => rfl
    rw [List.cons_append, commentLength, ih]
    · simp
      omega
    · intro tail first same
      exact twoPrefix outer first (head ▸ same ▸ rfl)
    · intro tail first same
      exact twoPrefix inner first (head ▸ same ▸ rfl)

inductive LayoutPiece (rest : List Char) : List Char → Prop where
  | space {c} (h : isSpace c = true) : LayoutPiece rest [c]
  | line {body} (plain : '\n' ∉ body) (ends : startsWith (· == '\n') rest) :
      LayoutPiece rest ('/' :: '/' :: body)
  | block {body} (closed : Closes 0 body) : LayoutPiece rest ('/' :: '*' :: body)

theorem notNewlineRun (text : List Char) :
    '\n' ∉ text.takeWhile (· != '\n') ∧ startsWith (· == '\n') (text.dropWhile (· != '\n')) := by
  induction text with
  | nil => exact ⟨nofun, trivial⟩
  | cons c rest ih =>
    by_cases newline : c = '\n'
    · simp [newline, startsWith]
    · have other : '\n' ≠ c := fun same => newline same.symm
      simpa [newline, other] using ih

theorem dropRun (p : Char → Bool) (text : List Char) : text.drop (run p text) = text.dropWhile p := by
  induction text with
  | nil => rfl
  | cons c rest ih =>
    by_cases h : p c = true
    · simpa [run, h] using ih
    · simp [run, h]

theorem layoutOfLexeme {c : Char} {rest : List Char} (h : (lexeme c rest).role = .layout) :
    LayoutPiece (rest.drop ((lexeme c rest).length - 1)) (taken c rest) := by
  unfold taken
  unfold lexeme at h ⊢
  by_cases space : isSpace c = true
  · rw [if_pos space]
    exact .space space
  · rw [if_neg space] at h ⊢
    by_cases digit : Text.isDigit c = true
    · rw [if_pos digit] at h
      obtain ⟨kind, role, _⟩ := numberRole (c :: rest)
      rw [role] at h
      contradiction
    · rw [if_neg digit] at h ⊢
      by_cases name : isNameStart c = true
      · rw [if_pos name] at h
        contradiction
      · rw [if_neg name] at h ⊢
        split at h
        · rename_i more
          have ⟨plain, ends⟩ := notNewlineRun more
          have cut : more.take (run (· != '\n') more) = more.takeWhile (· != '\n') := takeRun _ _
          have left : more.drop (run (· != '\n') more) = more.dropWhile (· != '\n') := dropRun _ _
          simp only [Nat.add_sub_assoc, Nat.reduceLeDiff, Nat.reduceSub, List.take_succ_cons,
            List.drop_succ_cons, cut, left]
          exact .line plain ends
        · rename_i more
          split at h
          · rename_i n length
            obtain ⟨body, behind, rfl, closed, rfl⟩ := closesOfLength length
            have count : 2 + body.length - 1 = body.length + 1 := by omega
            simp only [count, List.take_succ_cons, List.take_left, List.drop_succ_cons]
            exact .block closed
          · contradiction
        · contradiction
        · split at h <;> contradiction
        · rcases symbolRole (c :: rest) with ⟨spelling, kind, _, _, same⟩ | same
          · rw [same] at h
            contradiction
          · rw [same] at h
            contradiction

inductive IsLayout : List Char → Prop where
  | nil : IsLayout []
  | space {c rest} (h : isSpace c = true) (more : IsLayout rest) : IsLayout (c :: rest)
  | line {body rest} (plain : '\n' ∉ body) (more : IsLayout rest) :
      IsLayout ('/' :: '/' :: (body ++ '\n' :: rest))
  | block {body rest} (closed : Closes 0 body) (more : IsLayout rest) :
      IsLayout ('/' :: '*' :: (body ++ rest))

theorem wordsLayoutPiece {c : Char} {piece rest : List Char}
    (h : lexeme c (piece ++ rest) = ⟨.layout, piece.length + 1⟩) : words (c :: (piece ++ rest)) = words rest := by
  rw [wordsCons, h]
  simp [Role.words]

theorem lexemeLine {body rest : List Char} (plain : '\n' ∉ body) (ends : startsWith (· == '\n') rest) :
    lexeme '/' ('/' :: (body ++ rest)) = ⟨.layout, body.length + 2⟩ := by
  have length : run (· != '\n') (body ++ rest) = body.length := by
    refine runEnds ?_ (startsWithMono (fun c newline => by simpa using newline) ends)
    rw [List.all_eq_true]
    intro c mem
    simp only [bne_iff_ne]
    rintro rfl
    exact plain mem
  show Lexeme.mk _ _ = _
  rw [length]

def blockComment (more : List Char) : Lexeme :=
  match commentLength 0 2 more with
  | some n => ⟨.layout, n⟩
  | none => ⟨.token .invalid, more.length + 2⟩

theorem lexemeComment (more : List Char) : lexeme '/' ('*' :: more) = blockComment more := rfl

theorem lexemeBlock {body : List Char} (closed : Closes 0 body) (rest : List Char) :
    lexeme '/' ('*' :: (body ++ rest)) = ⟨.layout, body.length + 2⟩ := by
  have length := lengthOfCloses closed 2 rest
  rw [lexemeComment, blockComment, length, Nat.add_comm]

theorem wordsSpaceAny {c : Char} (h : isSpace c = true) (rest : List Char) : words (c :: rest) = words rest := by
  have space : lexeme c ([] ++ rest) = ⟨.layout, 1⟩ := by
    unfold lexeme
    rw [if_pos h]
  exact wordsLayoutPiece space

theorem wordsBehind {layout : List Char} (h : IsLayout layout) (rest : List Char) :
    words (layout ++ rest) = words rest := by
  induction h with
  | nil => rfl
  | space h more ih => rw [List.cons_append, wordsSpaceAny h, ih]
  | @line body layout plain more ih =>
    have comment : words ('/' :: ('/' :: body ++ '\n' :: (layout ++ rest))) = _ :=
      wordsLayoutPiece (lexemeLine plain rfl)
    simp only [List.cons_append, List.append_assoc] at comment ⊢
    exact comment.trans ((wordsNewline _).trans ih)
  | @block body layout closed more ih =>
    have comment : words ('/' :: ('*' :: body ++ (layout ++ rest))) = _ :=
      wordsLayoutPiece (lexemeBlock closed (layout ++ rest))
    simp only [List.cons_append, List.append_assoc] at comment ⊢
    exact comment.trans ih

end Boogie.Token
