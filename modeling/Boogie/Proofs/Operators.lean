import Boogie.Proofs.Derived.Found
import Boogie.Proofs.Recovery

/-! Expressions of operators, calls and maps are accepted exactly where they are derived, and as the tree that
is derived. -/
namespace Boogie

open Token (Kind Word)

namespace Grammar

theorem State.Reaches.silent {s t : State} (h : s.Reaches t) (clean : t.mistakes = s.mistakes) :
    t.log = s.log := by
  refine (h.keeps (P := fun t => s.mistakes ≤ t.mistakes ∧ (t.mistakes = s.mistakes → t.log = s.log)) ?_
    ⟨Nat.le_refl _, fun _ => rfl⟩).2 clean
  rintro t u last ⟨more, same⟩
  cases last with
  | advance => exact ⟨more, same⟩
  | syntaxError | broken | brokenAt =>
    exact ⟨Nat.le_succ_of_le more, fun none => absurd none (Nat.ne_of_gt (Nat.lt_succ_of_le more))⟩

theorem readsNoAttributes {expr : Production Expr} {rest : List Word} (other : headKind rest ≠ .leftBrace) :
    Reads [] rest (· = []) (attributes expr) :=
  .commute (.manyDone (by simpa using other)) fun _ isNil => by rw [isNil]; rfl

def axiomWords (opening : List Char) (ws : List Word) (closing : List Char) : List Word :=
  ⟨.kwAxiom, opening⟩ :: (ws ++ [⟨.semicolon, closing⟩])

def axiomTree (e : Expr) : Decl := .axiomatic ⟨e, [], .nowhere⟩

theorem readsAxiom {opening closing : List Char} {ws rest : List Word} {e : Expr}
    (derived : Derives .none (.expr .equivalence) ws e) :
    Reads (axiomWords opening ws closing) rest (fun ds => bare ds = [axiomTree e]) decl := by
  obtain ⟨w, more, same, first, _⟩ := derived.begins Extras.noneStarting
  have noBrace : headKind (ws ++ (⟨.semicolon, closing⟩ :: rest)) ≠ .leftBrace := by
    rw [same]
    rintro is
    rw [List.cons_append, headKindCons] at is
    rw [is] at first
    exact absurd first (by decide)
  refine .byKind rfl (.advance fun t _ => .stay (V := (· = [])) ?_ fun found none => ?_)
  · exact readsNoAttributes (by simpa using noBrace)
  · have whole := derived.accepted Extras.noneAccepted (⟨.semicolon, closing⟩ :: rest)
      (by decide : strength .semicolon < 1)
    refine .bind (readsExpression whole) fun a ofA => .expectLast rfl (.spanFrom fun span => .pure ?_)
    subst none ofA
    rfl

theorem findsAxiom {n : Nat} :
    Finds plain (n + 1) (· = .kwAxiom)
      (fun ws _ => ∃ opening inner closing e, ws = axiomWords opening inner closing ∧
        Derives .none (.expr .equivalence) inner e) decl := by
  refine .byKind fun k same => ?_
  subst same
  refine .token (k := n) (by decide) (fun t _ => ?_) (Nat.le_refl _)
  have never : ∀ x : Kind, plain x ∨ x = .endOfText → (x == .leftBrace) = false := by
    rintro x (known | rfl)
    · cases x <;> first | rfl | exact absurd known (by decide)
    · rfl
  have none : Finds plain n anywhere (fun ws as => ws = [] ∧ as = []) (attributes expression) :=
    .commute (.manyNever never) fun ws as ⟨unread, isNil⟩ => ⟨unread, by rw [isNil]; rfl⟩
  refine .bind none fun ws found ⟨unread, _⟩ => .bind findsWhole fun ws' e derived => ?_
  refine .expect (by decide) fun closing => .spanFrom fun span => .pure ?_
  exact ⟨t.text.toList, ws', closing, _, by rw [unread]; rfl, derived⟩

theorem rowsEqual {ws ws' rest : List Word} {w w' : Word} (same : ws ++ [w] = ws' ++ w' :: rest)
    (ends : w'.kind = .semicolon) (inner : ∀ x ∈ ws, x.kind ≠ .semicolon) : ws' = ws ∧ rest = [] := by
  induction ws generalizing ws' with
  | nil =>
    cases ws' with
    | nil => exact ⟨rfl, (List.cons.inj same).2.symm⟩
    | cons x xs => simp at same
  | cons x xs ih =>
    cases ws' with
    | nil => exact absurd ((List.cons.inj same).1 ▸ ends) (inner x List.mem_cons_self)
    | cons x' xs' =>
      obtain ⟨rfl, tails⟩ := List.cons.inj same
      obtain ⟨rfl, none⟩ := ih tails fun y mem => inner y (.tail _ mem)
      exact ⟨rfl, none⟩

end Grammar

open Grammar

namespace Reading

variable {text : List Char}

theorem runFirst {tokens : TokenList} {log : Log} (some : tokens.terminals ≠ []) :
    ∃ rest, (run tokens text log).1.decls =
        ((rounds more addDecl rest [(decl.run (.start tokens text log)).1]).run
          (decl.run (.start tokens text log)).2).1.reverse.flatten ∧
      (run tokens text log).2 =
        ((rounds more addDecl rest [(decl.run (.start tokens text log)).1]).run
          (decl.run (.start tokens text log)).2).2 := by
  obtain ⟨t, rest, is⟩ := List.exists_cons_of_ne_nil some
  refine ⟨rest, ?_⟩
  rw [declsOfRun, logOfRun, is, roundsCons (s := .start tokens text log) some t rest []]
  exact ⟨rfl, rfl⟩

end Reading

/-- An axiom of names, numbers, truth values, operators and brackets is read without an error just when its
words are derived, and then it is the axiom of the tree that they derive. -/
theorem operatorsExactly {file : String} {text : List Char} {opening closing finish : Token} {ts : List Token}
    (opens : opening.kind = .kwAxiom) (closes : closing.kind = .semicolon) (ends : finish.kind = .endOfText)
    (operators : ∀ t ∈ ts, isOperatorKind t.kind = true) :
    let r := Reading.ofTokens ⟨opening :: (ts ++ [closing]), finish⟩ text (.empty file)
    (r.2.errorCount = 0 ↔ ∃ e, Derives .none (.expr .equivalence) (ts.map Token.word) e) ∧
      ∀ e, Derives .none (.expr .equivalence) (ts.map Token.word) e →
        bare r.1.decls = [axiomTree e] ∧ r.2 = .empty file := by
  let tokens : TokenList := ⟨opening :: (ts ++ [closing]), finish⟩
  let start : State := .start tokens text (.empty file)
  have plainTokens : ∀ t ∈ tokens.body, plain t.kind := by
    intro t mem
    rcases List.mem_cons.mp mem with rfl | mem
    · rw [opens]
      decide
    · rcases List.mem_append.mp mem with inner | last
      · simp [operators t inner]
      · rw [List.mem_singleton.mp last, closes]
        decide
  have terminals : tokens.terminals = tokens.body := by
    refine List.filter_eq_self.mpr fun t mem => ?_
    have known := plainTokens t mem
    cases kind : t.kind <;> first | rfl | (rw [kind] at known; exact absurd known (by decide))
  have words : start.words = axiomWords opening.text.toList (ts.map Token.word) closing.text.toList := by
    show tokens.terminals.map Token.word = _
    rw [terminals]
    simp [tokens, axiomWords, Token.word, opens, closes]
  have some : tokens.terminals ≠ [] := by
    rw [terminals]
    exact List.cons_ne_nil _ _
  obtain ⟨rest, decls, last⟩ := @Reading.runFirst text tokens (.empty file) some
  have found (e : Expr) (derived : Derives .none (.expr .equivalence) (ts.map Token.word) e) :
      bare (Reading.run tokens text (.empty file)).1.decls = [axiomTree e] ∧
        (Reading.run tokens text (.empty file)).2.log = .empty file := by
    obtain ⟨tree, after, clean⟩ := readsAxiom derived start ends (words.trans (List.append_nil _).symm)
    rw [roundsDone (List.map_eq_nil_iff.mp after)] at decls last
    refine ⟨?_, last ▸ (decl.reaches start).silent clean⟩
    rw [decls]
    simpa using tree
  refine ⟨⟨fun errorFree => ?_, fun some => ?_⟩, found⟩
  · have unmarked : (Reading.run tokens text (.empty file)).2.mistakes = 0 :=
      Reading.unmarkedOfErrorFree (Log.countedEmpty file) errorFree
    have clean : (decl.run start).2.mistakes = start.mistakes := by
      have less := ((rounds more addDecl rest [(decl.run start).1]).reaches (decl.run start).2).mistakesLe
      rw [← last, unmarked] at less
      exact Nat.le_zero.mp less
    have covered : ∀ w ∈ start.words, plain w.kind := by
      intro w mem
      obtain ⟨t, listed, rfl⟩ := List.mem_map.mp mem
      exact plainTokens t (terminals ▸ listed)
    have first : start.kind = .kwAxiom := State.kindOfWords (s := start) ends words
    obtain ⟨_, split, opening', inner, closing', e, rfl, derived⟩ :=
      findsAxiom start ends covered (Nat.lt_succ_self _) first clean
    rw [words, axiomWords, axiomWords, List.cons_append, List.append_assoc] at split
    obtain ⟨same, _⟩ := rowsEqual (List.cons.inj split).2 rfl fun w mem semicolon => by
      obtain ⟨t, listed, rfl⟩ := List.mem_map.mp mem
      have known := operators t listed
      rw [show t.kind = .semicolon from semicolon] at known
      exact absurd known (by decide)
    exact ⟨e, same ▸ derived⟩
  · obtain ⟨e, derived⟩ := some
    show (Reading.run tokens text (.empty file)).2.log.errorCount = 0
    rw [(found e derived).2]
    rfl

theorem exactlyExplies :
    let name (c : Char) : Token := ⟨.identifier, .ofList [c], .nowhere, ⟨0, 0⟩⟩
    let ts := [name 'a', .sample .explies, name 'b', .sample .explies, name 'c']
    let r := Reading.ofTokens ⟨.sample .kwAxiom :: (ts ++ [.sample .semicolon]), .sample .endOfText⟩ []
      (.empty "")
    bare r.1.decls = [axiomTree (binaryTree .implies (.name .nowhere "c")
      (binaryTree .implies (.name .nowhere "b") (.name .nowhere "a")))] ∧ r.2.errorCount = 0 := by
  intro name ts r
  let arrow := (Token.sample .explies).text.toList
  have named (c : Char) (written : String) (same : Reads.nameOf [c] = written) :
      Derives .none (.expr .logical) [⟨.identifier, [c]⟩] (.name .nowhere written) :=
    same ▸ .ofAtom .name .logical
  have more {left e e' : Expr} {ws ws' : List Word} (next : Derives .none (.expr .logical) ws e)
      (others : Derives .none (.chain .implication (binaryTree .implies e left)) ws' e') :
      Derives .none (.chain .implication left) (⟨.explies, arrow⟩ :: (ws ++ ws')) e' :=
    .more rfl next others
  have derived : Derives .none (.expr .equivalence) (ts.map Token.word)
      (binaryTree .implies (.name .nowhere "c")
        (binaryTree .implies (.name .nowhere "b") (.name .nowhere "a"))) := by
    have a := named 'a' "a" (by decide +kernel)
    have b := named 'b' "b" (by decide +kernel)
    have c := named 'c' "c" (by decide +kernel)
    have chained : Derives .none (.expr .implication) _ _ := .chain a (more b (more c .done))
    simpa [ts, name, arrow, Token.word, Token.sample] using chained.alone
  have whole := @operatorsExactly "" [] (.sample .kwAxiom) (.sample .semicolon) (.sample .endOfText) ts
    rfl rfl rfl (by decide)
  exact ⟨(whole.2 _ derived).1, whole.1.mpr ⟨_, derived⟩⟩

end Boogie
