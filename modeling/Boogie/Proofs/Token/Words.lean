import Boogie.Name
import Boogie.Token.Scan

/-! The words of a text: its tokens without their places. A word is what the longest lexeme at some point
of the text makes of the characters there. -/
namespace Boogie.Token

structure Word where
  kind : Kind
  text : List Char
  deriving DecidableEq, Repr

def word (t : Token) : Word := ⟨t.kind, t.text.toList⟩

def taken (c : Char) (rest : List Char) : List Char := c :: rest.take ((lexeme c rest).length - 1)

def Role.words (text : List Char) : Role → List Word
  | .layout => []
  | .token kind => [⟨kind, text⟩]

def words : List Char → List Word
  | [] => []
  | c :: rest => (lexeme c rest).role.words (taken c rest) ++ words (rest.drop ((lexeme c rest).length - 1))
termination_by text => text.length
decreasing_by simp only [List.length_cons, List.length_drop]; omega

theorem wordsNil : words [] = [] := by rw [words]

theorem wordsCons (c : Char) (rest : List Char) :
    words (c :: rest) =
      (lexeme c rest).role.words (taken c rest) ++ words (rest.drop ((lexeme c rest).length - 1)) := by
  rw [words]

theorem scanFromWords (lines : LineTable) (offset : Nat) (found : Found) (text : List Char) :
    (scanFrom lines offset found text).tokens.reverse.map word = (found.tokens.map word).reverse ++ words text := by
  fun_induction scanFrom lines offset found text with
  | case1 offset found => simp [wordsNil]
  | case2 offset found c rest lex more piece next layout ih =>
    rw [ih, wordsCons]
    simp [Role.words, lex, more, layout]
  | case3 offset found c rest lex more piece next kind token span ih =>
    rw [ih, wordsCons]
    simp [Role.words, lex, more, token, word, Found.add, piece, taken]

theorem scanWords (text : List Char) : (scan text).body.map word = words text :=
  scanFromWords (.ofText text) 0 ⟨[], []⟩ text

def IsCut (text : List Char) (w : Word) : Prop :=
  ∃ c rest, c :: rest <:+ text ∧ (lexeme c rest).role = .token w.kind ∧ w.text = taken c rest

theorem wordsCut {text : List Char} {w : Word} (mem : w ∈ words text) : IsCut text w := by
  fun_induction words text with
  | case1 => exact absurd mem nofun
  | case2 c rest ih =>
    rcases List.mem_append.mp mem with here | later
    · cases role : (lexeme c rest).role with
      | layout => simp [role, Role.words] at here
      | token kind =>
        simp only [role, Role.words, List.mem_singleton] at here
        subst here
        exact ⟨c, rest, List.suffix_refl _, role, rfl⟩
    · obtain ⟨d, more, suffix, found⟩ := ih later
      exact ⟨d, more, suffix.trans ((List.drop_suffix _ rest).trans (List.suffix_cons c rest)), found⟩

theorem scanCut {text : List Char} {t : Token} (mem : t ∈ (scan text).body) : IsCut text (word t) := by
  refine wordsCut ?_
  rw [← scanWords]
  exact List.mem_map_of_mem mem

/-- The scanner makes one token of the text, which is of the kind, and there is nothing else. -/
structure ScansAs (kind : Kind) (text : List Char) (t : Token) : Prop where
  whole : (scan text).toList = [t, (scan text).finish]
  finish : (scan text).finish.kind = .endOfText
  kind : t.kind = kind
  text : t.text.toList = text

theorem scansAsIff {kind : Kind} {text : List Char} : (∃ t, ScansAs kind text t) ↔ words text = [⟨kind, text⟩] := by
  rw [← scanWords]
  constructor
  · rintro ⟨t, whole, _, ofKind, same⟩
    have body : (scan text).body = [t] := List.append_cancel_right whole
    rw [body, List.map_singleton, Token.word, ofKind, same]
  · intro one
    obtain ⟨t, body, word⟩ := List.map_eq_singleton_iff.mp one
    obtain ⟨ofKind, same⟩ := Token.Word.mk.inj word
    exact ⟨t, by rw [TokenList.toList, body]; rfl, rfl, ofKind, same⟩

end Boogie.Token
