import Boogie.Proofs.Source.Places
import Boogie.Proofs.Token.Layout
import Boogie.Reading

/-! Scanning loses nothing. A text is its tokens in their order, each at its place, with layout before,
between and behind them; what could not be classified is a token as well, and is reported where that stands. -/
namespace Boogie

open Token (Kind scan scanFrom scanErrors lexeme taken isSpace LayoutPiece Found)

namespace Token

theorem wordTableKinds : ∀ p ∈ wordTable, p.2 ≠ .endOfText := by decide

theorem symbolTableKinds : ∀ p ∈ symbolTable, p.2 ≠ .endOfText := by decide

theorem wordKindReal (word : List Char) : wordKind word ≠ .endOfText := by
  unfold wordKind
  cases found : wordTable.lookup word with
  | none => exact nofun
  | some kind =>
    have mem : (word, kind) ∈ wordTable := by
      obtain ⟨front, back, same, _⟩ := List.lookup_eq_some_iff.mp found
      rw [same]
      simp
    exact wordTableKinds _ mem

theorem symbolReal (text : List Char) : (symbol text).role ≠ .token .endOfText := by
  rcases symbolRole text with ⟨spelling, kind, mem, _, same⟩ | same
  · rw [same]
    exact fun ended => symbolTableKinds _ mem (by simpa using ended)
  · rw [same]
    exact nofun

theorem lexemeReal (c : Char) (rest : List Char) : (lexeme c rest).role ≠ .token .endOfText := by
  unfold lexeme
  split
  · exact nofun
  · split
    · obtain ⟨kind, role, numeral⟩ := numberRole (c :: rest)
      rw [role]
      rintro ended
      cases ended
      contradiction
    · split
      · exact fun ended => wordKindReal _ (by simpa using ended)
      · split
        · exact nofun
        · split <;> exact nofun
        · intro ended
          cases closed : (stringLength 1 rest).2 <;> simp [closed] at ended
        · split <;> exact nofun
        · exact symbolReal _

structure StandsBehind (whole before : List Char) (t : Token) : Prop where
  real : t.kind ≠ .endOfText
  some : t.text.toList ≠ []
  span : t.span = Span.ofRange (byteLength before) (byteLength (before ++ t.text.toList))
  position : t.position = (LineTable.ofText whole).position t.span.start

/-- What of a text stands behind `before` is made of tokens and layout. -/
inductive Spread (whole : List Char) : List Char → List Token → List Char → Prop where
  | finish {before} : Spread whole before [] []
  | layout {before piece ts rest} (h : LayoutPiece rest piece) (more : Spread whole (before ++ piece) ts rest) :
      Spread whole before ts (piece ++ rest)
  | token {before t ts rest} (h : StandsBehind whole before t)
      (more : Spread whole (before ++ t.text.toList) ts rest) :
      Spread whole before (t :: ts) (t.text.toList ++ rest)

theorem scanFromSpread (whole before text : List Char) (found : Found) :
    ∃ ts, (scanFrom (.ofText whole) (byteLength before) found text).tokens.reverse = found.tokens.reverse ++ ts ∧
      Spread whole before ts text := by
  generalize at_ : byteLength before = offset
  generalize table : LineTable.ofText whole = lines
  fun_induction scanFrom lines offset found text generalizing before with
  | case1 offset found => exact ⟨[], by simp, .finish⟩
  | case2 offset found c rest lex more piece next layout ih =>
    have cut : c :: rest = piece ++ rest.drop more := by simp [piece]
    obtain ⟨ts, body, spread⟩ := ih (before ++ piece) (by rw [byteLengthAppend, at_])
    rw [cut]
    exact ⟨ts, body, .layout (layoutOfLexeme layout) spread⟩
  | case3 offset found c rest lex more piece next kind token span ih =>
    have cut : c :: rest = piece ++ rest.drop more := by simp [piece]
    have size : byteLength (before ++ piece) = next := by rw [byteLengthAppend, at_]
    obtain ⟨ts, body, spread⟩ := ih (before ++ piece) size
    have real : kind ≠ .endOfText := by
      rintro rfl
      exact lexemeReal c rest token
    let t : Token := ⟨kind, String.ofList piece, span, lines.position span.start⟩
    have text : t.text.toList = piece := String.toList_ofList
    have stands : StandsBehind whole before t := by
      refine ⟨real, ?_, ?_, by rw [table]⟩
      · rw [text]
        exact List.cons_ne_nil _ _
      · rw [text, at_, size]
    refine ⟨t :: ts, by rw [body]; simp [Found.add, t], ?_⟩
    have spread : Spread whole (before ++ t.text.toList) ts (rest.drop more) := by rwa [text]
    have whole := Spread.token stands spread
    rwa [text, ← cut] at whole

theorem scanSpread (text : List Char) : Spread text [] (scan text).body text := by
  obtain ⟨ts, body, spread⟩ := scanFromSpread text [] text ⟨[], []⟩
  have body : (scan text).body = ts := body
  rwa [body]

section Spread

variable {whole before text : List Char} {t : Token} {ts : List Token}

theorem StandsBehind.place (h : StandsBehind whole before t) {rest : List Char} (cut : whole = before ++ rest)
    (held : t.span.start < Span.maxOffset) :
    t.span.start = byteLength before ∧ t.position = Position.behind before := by
  have start : t.span.start = min (byteLength before) Span.maxOffset := congrArg Span.start h.span
  have here : t.span.start = byteLength before := by omega
  refine ⟨here, ?_⟩
  rw [h.position, here, cut]
  exact LineTable.positionBehind before rest (here ▸ held)

theorem StandsBehind.extent (h : StandsBehind whole before t) {rest : List Char}
    (cut : whole = before ++ t.text.toList ++ rest) :
    t.span.start ≤ t.span.stop ∧ (t.span.start < byteLength whole ∧ t.span.stop ≤ byteLength whole) ∧
      (t.span.start < Span.maxOffset → t.span.start < t.span.stop) := by
  have some := byteLengthPos h.some
  rw [h.span, cut, byteLengthAppend _ rest, byteLengthAppend]
  dsimp only [Span.ofRange]
  omega

namespace Spread

theorem slice (h : Spread whole before ts text) :
    ∀ t ∈ ts, ∃ more back, text = more ++ t.text.toList ++ back ∧ StandsBehind whole (before ++ more) t := by
  induction h with
  | finish => exact nofun
  | @layout before piece ts rest h spread ih =>
    intro t mem
    obtain ⟨more, back, rfl, stands⟩ := ih t mem
    exact ⟨piece ++ more, back, by simp, by rwa [List.append_assoc] at stands⟩
  | @token before t ts rest h spread ih =>
    intro u mem
    rcases List.mem_cons.mp mem with rfl | behind
    · exact ⟨[], rest, rfl, by rwa [List.append_nil]⟩
    · obtain ⟨more, back, rfl, stands⟩ := ih u behind
      exact ⟨t.text.toList ++ more, back, by simp, by rwa [List.append_assoc] at stands⟩

theorem pairs (h : Spread whole before ts text) (cut : whole = before ++ text) :
    ts.Pairwise fun t u => ∃ front more back, whole = front ++ t.text.toList ++ more ++ u.text.toList ++ back ∧
      StandsBehind whole front t ∧ StandsBehind whole (front ++ t.text.toList ++ more) u := by
  induction h with
  | finish => exact .nil
  | layout h spread ih => exact ih (by rw [cut, List.append_assoc])
  | @token before t ts rest h spread ih =>
    refine .cons (fun u mem => ?_) (ih (by rw [cut, List.append_assoc]))
    obtain ⟨more, back, rfl, stands⟩ := spread.slice u mem
    exact ⟨before, more, back, by simp [cut], h, stands⟩

theorem ordered (h : Spread whole [] ts whole) : ts.Pairwise fun t u => t.span.stop ≤ u.span.start := by
  refine (h.pairs rfl).imp ?_
  rintro t u ⟨front, more, back, -, first, last⟩
  rw [first.span, last.span, byteLengthAppend _ more]
  dsimp only [Span.ofRange]
  omega

theorem rising (h : Spread whole [] ts whole) (short : byteLength whole < Span.maxOffset) :
    ts.Pairwise fun t u => t.position < u.position := by
  refine (h.pairs rfl).imp ?_
  rintro t u ⟨front, more, back, cut, first, last⟩
  have inFront : whole = front ++ (t.text.toList ++ (more ++ (u.text.toList ++ back))) := by simp [cut]
  have behind : whole = front ++ t.text.toList ++ more ++ (u.text.toList ++ back) := by simp [cut]
  have extents := (last.extent cut).2.1
  have whole' : whole = front ++ t.text.toList ++ (more ++ u.text.toList ++ back) := by simp [cut]
  have ends := (first.extent whole').2.1
  rw [(first.place inFront (by omega)).2, (last.place behind (by omega)).2, List.append_assoc]
  exact Position.behindLater _ _ (by simp [first.some])

end Spread

end Spread

theorem scanExtent {text : List Char} {t : Token} (mem : t ∈ (scan text).body) :
    t.span.start ≤ t.span.stop ∧ (t.span.start < byteLength text ∧ t.span.stop ≤ byteLength text) ∧
      (t.span.start < Span.maxOffset → t.span.start < t.span.stop) := by
  obtain ⟨front, back, cut, stands⟩ := (scanSpread text).slice t mem
  rw [List.nil_append] at stands
  exact stands.extent cut

theorem scanFromErrors (lines : LineTable) (offset : Nat) (found : Found) (text : List Char)
    (matched : found.errors = (found.tokens.filter fun t => !t.kind.isTerminal).map error) :
    (scanFrom lines offset found text).errors =
      ((scanFrom lines offset found text).tokens.filter fun t => !t.kind.isTerminal).map error := by
  fun_induction scanFrom lines offset found text with
  | case1 offset found => exact matched
  | case2 offset found c rest lex more piece next layout ih => exact ih matched
  | case3 offset found c rest lex more piece next kind token span ih =>
    refine ih ?_
    by_cases invalid : kind = .invalid
    · simp [Found.add, invalid, matched, error, fault, Kind.isTerminal]
    · simp [Found.add, invalid, matched, Kind.isTerminal]

theorem scanErrorsFaulty (text : List Char) : scanErrors text = (scan text).faulty.map error := by
  have matched := scanFromErrors (.ofText text) 0 ⟨[], []⟩ text rfl
  rw [scanErrors, scanAll, matched, TokenList.faulty, scan, scanAll, ← List.map_reverse, ← List.filter_reverse]

end Token

end Boogie
