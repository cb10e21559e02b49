import Boogie.Proofs.Parens.Held

/-! Words that are read as commands cover their sketches. -/
namespace Boogie.Grammar

open Token (Kind Word)
open Layout (gistsOf Balanced Sketch)
open Layout.Sketch (Covers nothing fixed name commas wrapped)

def OfLabelOrCmd (ws : List Word) : LabelOrCmd → Prop
  | .cmd c => Covers ws (Sketch.cmd c)
  | .label _ => True
  | .mistake => False

section Commands

variable {n : Nat} {sort : Kind → Prop} {expr : Production Expr} (one : Finds anywhere n anywhere Writes expr)
include one

theorem coversTarget {text : List Char} {span : Span} : Finds anywhere n sort
    (fun ws t => Covers (⟨.identifier, text⟩ :: ws) (Sketch.target t)) (target expr ⟨Reads.nameOf text, span⟩) := by
  have named : Covers [⟨.identifier, text⟩] (Sketch.target (.name ⟨Reads.nameOf text, span⟩)) := .word rfl rfl
  refine .soFarEats (Q := fun ws t => Covers ws (Sketch.target t)) named (by decide) fun before map opened known => ?_
  refine .bind (coversOptionalExprs one) fun ws indexes inside => .expect (by decide) fun closed => .spanFrom fun at_ => ?_
  exact .pure (known.append (.mark rfl rfl (inside.append (.word rfl rfl))))

theorem coversLabelOrAssign : Finds anywhere n sort OfLabelOrCmd (labelOrAssign expr) := by
  have item : Finds anywhere n anywhere (fun ws t => Covers ws (Sketch.target t)) (do target expr (← ident)) :=
    Finds.mono (.ident fun text span => coversTarget one) (fun _ h => h) (Nat.le_succ n)
  refine Finds.mono (.ident fun text span => ?_) (fun _ h => h) (Nat.le_succ n)
  refine .eat (by decide) (fun colon => .pure trivial) (.ifNext ?_ (.fault (.syntaxError _))) (Nat.le_succ n)
  refine .bind (coversTarget one) fun ws first ofFirst => .bind (.manyEats (by decide) item) fun ws' rest more => ?_
  refine .expect (by decide) fun assign => .bind (coversExprs one) fun ws'' values ⟨ofValues, _⟩ => ?_
  refine .expect (by decide) fun closed => .spanFrom fun at_ => .pure ?_
  have targets := coversSeparated (.mk ofFirst more)
  have whole := targets.append (.mark (w := ⟨.assign, assign⟩) (s := " := ") rfl rfl
    (ofValues.append (.last ";" (w := ⟨.semicolon, closed⟩) rfl rfl)))
  rw [← Sketch.targetsMap, List.append_assoc, List.cons_append] at whole
  exact whole

theorem coversArguments : Finds anywhere n sort (fun ws ins => ∃ inner closed, ws = inner ++ [⟨.rightParen, closed⟩] ∧
    Covers inner (commas (Sketch.exprs ins))) (callArguments expr) :=
  .bind (coversOptionalExprs one) fun ws _ inside => .expect (by decide) fun closed => .pure ⟨ws, closed, rfl, inside⟩

theorem coversCallParams {isAsync isFree : Bool} {as : List Attribute} {start : Span} : Finds anywhere n sort
    (fun ws c => Covers ws (Sketch.callParams c) ∧ c.isAsync = isAsync ∧ c.isFree = isFree ∧ c.attributes = as)
    (callParams expr isAsync isFree as start) := by
  refine Finds.mono (.ident fun text span => ?_) (fun _ h => h) (Nat.le_succ n)
  refine .eat (by decide) (fun opened => ?_) (.ifNext ?_ (.fault (.syntaxError _))) (Nat.le_succ n)
  · refine .bind (coversArguments one) fun ws ins ⟨inner, closed, same, inside⟩ => .spanFrom fun at_ => .pure ?_
    refine ⟨?_, rfl, rfl, rfl⟩
    rw [List.append_nil, same]
    have callee : Covers [⟨.identifier, text⟩] (name (Reads.nameOf text)) := .word rfl rfl
    exact (callee.append inside.between).quiet
  · have outName : Finds anywhere n anywhere (fun ws id => Covers ws (name id.name)) ident :=
      findsIdent.weaken fun _ _ ⟨_, same, is⟩ => by
        subst same
        exact .word rfl rfl
    refine .bind (.manyEats (by decide) outName) fun ws rest more => .expect (by decide) fun assign => ?_
    refine Finds.mono (.ident fun callee at_ => ?_) (fun _ h => h) (Nat.le_succ n)
    refine .expect (by decide) fun opened => .bind (coversArguments one) fun ws' ins ⟨inner, closed, same, inside⟩ => ?_
    refine .spanFrom fun whole => .pure ⟨?_, rfl, rfl, rfl⟩
    rw [List.append_nil, same]
    have first : Covers [⟨.identifier, text⟩] (name (Reads.nameOf text)) := .word rfl rfl
    have outs : Covers (⟨.identifier, text⟩ :: ws) (Sketch.names (⟨Reads.nameOf text, span⟩ :: rest)) :=
      coversSeparated (.mk (T := fun ws (id : Ident) => Covers ws (name id.name)) (a := ⟨_, span⟩) first more)
    have called : Covers (⟨.identifier, callee⟩ :: ⟨.leftParen, opened⟩ :: (inner ++ [⟨.rightParen, closed⟩]))
        (name (Reads.nameOf callee) ++ wrapped (commas (Sketch.exprs ins))) :=
      .append (.word (w := ⟨.identifier, callee⟩) rfl rfl) inside.between
    have assigned := outs.append (.mark (w := ⟨.assign, assign⟩) (s := " := ") rfl rfl called)
    rw [← Sketch.appendAssoc] at assigned
    exact assigned

omit one in
theorem callWordsCount (isAsync isFree : Bool) :
    isAsync.toNat + (isFree.toNat + 1) ≤ (Sketch.callWords isAsync isFree).gists.length := by
  cases isAsync <;> cases isFree <;> decide

theorem coversCall : Finds anywhere n sort (fun ws c => Covers ws
    (Sketch.callWords c.isAsync c.isFree ++ (Sketch.callAttributes c ++ Sketch.callParams c))) (call expr) := by
  refine .look fun start => eatsWord (by decide) rfl fun isAsync front balanced size => ?_
  refine eatsWord (by decide) rfl fun isFree front' balanced' size' => .expect (by decide) fun text => ?_
  refine .bind (coversAttributes one) fun ws as ofAs => (coversCallParams one).weaken ?_
  rintro ws' ⟨isAsync, isFree, _, _, _, _, _⟩ ⟨ofParams, rfl, rfl, rfl⟩
  have opening : Covers (front ++ (front' ++ [⟨.kwCall, text⟩])) (Sketch.callWords isAsync isFree) := by
    refine .ofPlain (balanced.append (balanced'.append (.one rfl))) ?_
    rw [Layout.gistsOfAppend, Layout.gistsOfAppend, List.length_append, List.length_append, size, size']
    exact callWordsCount isAsync isFree
  have whole := opening.append (ofAs.append ofParams)
  rw [List.append_assoc, List.append_assoc] at whole
  exact whole

theorem coversParallelCalls : Finds anywhere n (· = .kwPar)
    (fun ws r => Covers ws (fixed "par " ++ (Sketch.attributes r.2 ++ Sketch.joined (fixed " | ") (Sketch.callList r.1))))
    (parallelCalls expr) := by
  refine .token (k := n) (by decide) (fun t _ => .bind (coversAttributes one) fun ws found ofFound => ?_) (Nat.le_succ n)
  have first {start : Span} : Finds anywhere n anywhere (fun ws c => Covers ws (Sketch.callParams c))
      (callParams expr false false found start) := (coversCallParams one).weaken fun _ _ found => found.1
  have more : Finds anywhere n anywhere (fun ws c => Covers ws (Sketch.callParams c))
      (do callParams expr false false found (← currentSpan)) := .look fun start => first
  refine .bind first fun ws' c ofC => .bind (.manyEats (by decide) more) fun ws'' rest ofRest => .pure ?_
  rw [List.append_nil]
  have calls := ofC.joinedItems (s := " | ") rfl rfl ofRest
  rw [← Sketch.callListMap] at calls
  exact .mark rfl rfl (ofFound.append calls)

theorem coversCondition {x : Kind} (real : x ≠ .endOfText) {make : Span → List Attribute → Expr → Cmd}
    (held : ∀ {text closed ws ws'} span as e, Covers ws (Sketch.attributes as) → Covers ws' (Sketch.expr e) →
      Covers (⟨x, text⟩ :: (ws ++ (ws' ++ [⟨.semicolon, closed⟩]))) (Sketch.cmd (make span as e))) :
    Finds anywhere n (· = x) OfLabelOrCmd (conditionCmd expr make) := by
  refine .token (k := n) real (fun t _ => .bind (coversAttributes one) fun ws as ofAs => ?_) (Nat.le_succ n)
  refine .bind one fun ws' e ⟨ofE, _⟩ => .expect (by decide) fun closed => .spanFrom fun at_ => ?_
  exact .pure (held _ _ _ ofAs ofE)

theorem coversWordCmd : Finds anywhere n sort OfLabelOrCmd (wordCmd expr) := by
  have callCmd {sort : Kind → Prop} : Finds anywhere n sort OfLabelOrCmd (callCmd expr) := by
    refine .look fun start => .bind (coversCall one) fun ws c ofC => .expect (by decide) fun closed => ?_
    refine .spanFrom fun at_ => .pure ?_
    have whole := ofC.append (.last ";" (w := ⟨.semicolon, closed⟩) rfl rfl)
    rw [Sketch.appendAssoc, Sketch.appendAssoc] at whole
    exact whole
  refine .byKind fun k _ => ?_
  split
  · exact coversCondition one (by decide) fun span as e ofAs ofE => .mark rfl rfl (ofAs.append (ofE.append (.word rfl rfl)))
  · exact coversCondition one (by decide) fun span as e ofAs ofE => .mark rfl rfl (ofAs.append (ofE.append (.word rfl rfl)))
  · refine .token (k := n) (by decide) (fun t _ => .bind coversNames fun ws vars ⟨ofVars, _⟩ => ?_) (Nat.le_succ n)
    exact .expect (by decide) fun closed => .spanFrom fun at_ => .pure (.mark rfl rfl (ofVars.append (.word rfl rfl)))
  · exact callCmd
  · exact callCmd
  · exact callCmd
  · refine .look fun start => .bind (coversParallelCalls one) fun ws (calls, found) ofCalls => ?_
    refine .expect (by decide) fun closed => .spanFrom fun at_ => .pure ?_
    have whole := ofCalls.append (.last ";" (w := ⟨.semicolon, closed⟩) rfl rfl)
    rw [Sketch.appendAssoc, Sketch.appendAssoc] at whole
    exact whole
  · refine .token (k := n) (by decide) (fun t _ => .expect (by decide) fun closed => .spanFrom fun at_ => ?_) (Nat.le_succ n)
    exact .pure (.ofPlain (.word rfl (.one rfl)) (le_refl 2))
  · exact .fault (.syntaxError _)

theorem coversLabelOrCmd : Finds anywhere n sort OfLabelOrCmd (labelOrCmd expr) :=
  .ifNext (coversLabelOrAssign one).always (coversWordCmd one)

end Commands

end Boogie.Grammar
