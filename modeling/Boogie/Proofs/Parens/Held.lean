import Boogie.Proofs.Derived.Ty
import Boogie.Proofs.Parens.Covers

/-! Words that are read as what expressions hold and are held by cover its sketch: types, attributes, variables and
commands. -/
namespace Boogie.Grammar

open Token (Kind Word)
open Layout (isSolid Gist gist gistsOf nameGist Balanced Sketch)
open Layout.Sketch (Covers nothing fixed space spaceUnless name row commas wrapped spaced)

theorem Covers.alone {ws : List Word} {S : Sketch} (h : Covers ws S) : Covers ws (commas [S]) := h.silent

def TypePhrase.sketch : (p : TypePhrase) → p.Tree → Sketch
  | .type | .atom | .name | .argument | .map => Sketch.ty
  | .args => Sketch.tyArgs
  | .domain | .types => fun ts => commas (Sketch.tys ts)
  | .params => Sketch.typeParams
  | .names => Sketch.names

theorem coversArgument {ws : List Word} {t : Ty} (h : Covers ws (Sketch.ty t)) :
    Covers ws (if Layout.isCompound t then wrapped (Sketch.ty t) else Sketch.ty t) := by
  split
  · exact h.silent.quiet
  · exact h

theorem DerivesType.covers {p : TypePhrase} {ws : List Word} {tree : p.Tree} (h : DerivesType p ws tree) :
    Covers ws (p.sketch tree) := by
  induction h with
  | atom _ ih | name _ ih | map _ ih | argumentAtom _ ih | argumentName _ ih | domain _ ih => exact ih
  | applied _ ih => exact .append (.word (w := ⟨.identifier, _⟩) rfl rfl) ih
  | int | real | bool | width => exact .word rfl rfl
  | paren _ ih => exact ih.paren
  | unresolved => exact (Covers.word rfl rfl).silent
  | lastArgument _ ih | lastMap _ ih => exact (coversArgument ih).silent.quiet
  | moreArguments _ _ ih ih' => exact ((coversArgument ih).append ih').quiet
  | mapType _ _ _ ih ih' ih'' => exact ih.append (.mark rfl rfl (ih'.append (.mark rfl rfl ih'')))
  | noParams | noTypes => exact .nil
  | @params _ _ ids _ names ih =>
    have filled : ids.isEmpty = false := by cases names <;> rfl
    show Covers _ (Sketch.typeParams ids)
    rw [Sketch.typeParams, filled]
    exact .mark rfl rfl (ih.append (.word rfl rfl))
  | oneName => exact Covers.alone (.word rfl rfl)
  | @moreNames _ _ _ ids more ih =>
    have filled : ids.map (fun id => Sketch.name id.name) ≠ [] := by cases more <;> exact List.cons_ne_nil _ _
    show Covers _ (Sketch.names (_ :: ids))
    rw [Sketch.names, List.map_cons, commas, Sketch.joinedCons filled]
    exact .append (.word (w := ⟨.identifier, _⟩) rfl rfl) (.mark rfl rfl ih)
  | oneType _ ih => exact Covers.alone ih
  | @moreTypes _ _ _ _ ts _ more ih ih' =>
    have filled : Sketch.tys ts ≠ [] := by cases more <;> exact List.cons_ne_nil _ _
    show Covers _ (commas (_ :: _))
    rw [commas, Sketch.joinedCons filled]
    exact ih.append (.mark rfl rfl ih')

section Names

variable {n : Nat} {sort : Kind → Prop}

theorem coversType : Finds anywhere n sort (fun ws t => Covers ws (Sketch.ty t)) type :=
  findsType.weaken fun _ t derived => Sketch.unplacedTy (f := fun _ => .nowhere) t ▸ DerivesType.covers derived

theorem coversNames : Finds anywhere n sort (fun ws ids => Covers ws (Sketch.names ids) ∧ ids ≠ []) idents := by
  refine findsNames.weaken fun _ ids derived => ⟨Sketch.unplacedNames (f := fun _ => .nowhere) ids ▸ derived.covers, ?_⟩
  rintro rfl
  cases derived

theorem coversTypeParams :
    Finds anywhere n sort (fun ws ids => Covers ws (Sketch.typeParams ids) ∧ ids ≠ []) typeParams := by
  refine .expect (by decide) fun opened => .bind coversNames fun ws ids ⟨ofNames, filled⟩ => ?_
  refine .expect (by decide) fun closed => .pure ⟨?_, filled⟩
  have some : ids.isEmpty = false := by simpa using filled
  rw [Sketch.typeParams, some]
  exact .mark rfl rfl (ofNames.append (.word rfl rfl))

end Names

section Rules

variable {α : Type} {n : Nat} {sort : Kind → Prop} {m : Production α} {print : α → Sketch}

inductive Separated (T : List Word → α → Prop) : List Word → List α → Prop
  | mk {ws a ws' as} (first : T ws a) (more : Finds.Items .comma T ws' as) : Separated T (ws ++ ws') (a :: as)

theorem findsSeparated {T : List Word → α → Prop} (item : Finds anywhere n anywhere T m) :
    Finds anywhere n sort (Separated T) (commaSeparated m) :=
  .bind item.always fun _ _ first => .commute (.manyEats (by decide) item) fun _ _ more => .mk first more

theorem coversSeparated {ws : List Word} {as : List α} (h : Separated (fun ws a => Covers ws (print a)) ws as) :
    Covers ws (commas (as.map print)) := by
  cases h with
  | mk first more => exact first.joinedItems rfl rfl more

theorem eatsWord {x : Kind} {T : List Word → α → Prop} {f : Bool → Production α} (real : x ≠ .endOfText)
    (solid : isSolid x = true) (rest : ∀ b front, Balanced front → (gistsOf front).length = b.toNat →
      Finds anywhere n anywhere (fun ws => T (front ++ ws)) (f b)) : Finds anywhere n sort T (eat x >>= f) := by
  refine .eat (k := n) real (fun text => ?_) ?_ (Nat.le_succ n)
  · exact rest true [⟨x, text⟩] (.one (Layout.riseOfSolid solid)) (by rw [Layout.gistsOfSolid solid]; rfl)
  · exact (rest false [] .nil rfl).always

end Rules

def Fronted (ws : List Word) : Prop := ∃ g more, gistsOf ws = g :: more ∧ g ≠ .colon

theorem Fronted.append {ws : List Word} (h : Fronted ws) (ws' : List Word) : Fronted (ws ++ ws') := by
  obtain ⟨g, more, same, other⟩ := h
  exact ⟨g, more ++ gistsOf ws', by rw [Layout.gistsOfAppend, same, List.cons_append], other⟩

theorem Fronted.word {w : Word} (solid : isSolid w.kind = true) (other : gist w ≠ .colon) (ws : List Word) :
    Fronted (w :: ws) := ⟨_, _, Layout.gistsOfSolid solid ws, other⟩

theorem Fronted.other {w : Word} (solid : isSolid w.kind = true) (other : gist w = .other) (ws : List Word) :
    Fronted (w :: ws) := .word solid (other ▸ nofun) ws

def Writes (ws : List Word) (e : Expr) : Prop := Covers ws (Sketch.expr e) ∧ Fronted ws

section Held

variable {n : Nat} {sort : Kind → Prop} {expr : Production Expr} (one : Finds anywhere n anywhere Writes expr)
include one

theorem coversExprs : Finds anywhere n sort
    (fun ws es => Covers ws (commas (Sketch.exprs es)) ∧ es ≠ [] ∧ Fronted ws) (commaSeparated expr) := by
  have item : Finds anywhere n anywhere (fun ws e => Covers ws (Sketch.expr e)) expr := one.weaken fun _ _ found => found.1
  refine .bind one.always fun ws e ⟨first, leads⟩ => .commute (.manyEats (by decide) item) fun ws' es more => ?_
  exact ⟨Sketch.exprsMap (e :: es) ▸ coversSeparated (.mk first more), nofun, leads.append ws'⟩

theorem coversOptionalExprs :
    Finds anywhere n sort (fun ws es => Covers ws (commas (Sketch.exprs es))) (optionalExprs expr) :=
  .ifNext ((coversExprs one).weaken fun _ _ found => found.1) (.pure .nil)

theorem coversParam : Finds anywhere n sort (fun ws p => Covers ws (Sketch.attributeParam p)) (attributeParam expr) := by
  refine .ifNext ?_ (.commute one.always fun ws e found => found.1)
  refine Finds.mono (.token (x := .string) (k := n) (by decide) (fun t _ => .pure (.word rfl rfl)) (Nat.le_succ n))
    (fun k is => by simpa using is.2) (Nat.le_refl n)

theorem coversAttributeParams : Finds anywhere n sort (fun ws ps => Covers ws (commas (Sketch.attributeParams ps)))
    (ifNext (checkAny exprStart) (commaSeparated (attributeParam expr)) (pure [])) := by
  refine .ifNext ?_ (.pure .nil)
  exact (findsSeparated (coversParam one)).weaken fun _ ps found => Sketch.attributeParamsMap ps ▸ coversSeparated found

omit one in
def OpensTrigger (ws : List Word) : Prop :=
  ∃ g more, gistsOf ws = .brace :: g :: more ∧ (g = .colon → ∃ rest, more = .nopats :: rest)

def OfBraced (ws : List Word) : Braced → Prop
  | .keyed a => Covers ws (Sketch.braced a) ∧ a.key ≠ "nopats"
  | .trigger t => Covers ws (Sketch.trigger t) ∧ OpensTrigger ws
  | .mistake => False

theorem coversBraced : Finds anywhere n sort OfBraced (braced expr) := by
  refine .look fun start => .expect (by decide) fun opened => ?_
  refine .eat (k := n + 1) (by decide) (fun colon => .ident fun text span => ?_) (.ifNext ?_ ?_) (by omega)
  · have front {p : List Layout.Mark} (three : 3 ≤ (Sketch.plain p).gists.length) :
        Covers [⟨.leftBrace, opened⟩, ⟨.colon, colon⟩, ⟨.identifier, text⟩] (Sketch.plain p) :=
      .ofPlain (.word rfl (.word rfl (.one rfl))) three
    refine .bind (coversAttributeParams one) fun ws ps inside => .expect (by decide) fun closed => .spanFrom fun at_ => ?_
    have last : Covers (ws ++ [⟨.rightBrace, closed⟩]) (commas (Sketch.attributeParams ps) ++ fixed "\x7d") :=
      inside.append (.word rfl rfl)
    split
    · rename_i negative
      split
      · refine .pure ⟨(front (le_refl 3)).append last, .colon, _, rfl, fun _ => ⟨gistsOf (ws ++ [⟨.rightBrace, closed⟩]), ?_⟩⟩
        have key : Reads.nameOf text = "nopats" := by simpa using negative
        simp [gistsOf, gist, nameGist, key, isSolid]
      · exact .fault (.broken _)
    · rename_i other
      have name : Covers [⟨.identifier, text⟩] (name (Reads.nameOf text)) := .word rfl rfl
      have begun : Covers [⟨.leftBrace, opened⟩, ⟨.colon, colon⟩] (fixed "\x7b:") :=
        .ofPlain (.word rfl (.one rfl)) (le_refl 2)
      exact .pure ⟨begun.append (name.append last.spaceUnless), by simpa using other⟩
  · refine .bind (coversExprs one) fun ws es found => .expect (by decide) fun closed => .spanFrom fun at_ => ?_
    obtain ⟨inside, _, g, more, leads, other⟩ := found
    refine .pure ⟨?_, g, more ++ gistsOf [⟨.rightBrace, closed⟩], ?_, fun same => absurd same other⟩
    · exact .mark rfl rfl (inside.append (.word rfl rfl))
    · rw [Layout.gistsOfSolid rfl, Layout.gistsOfAppend, leads]
      rfl
  · exact .fault (.syntaxError _)

omit one in
theorem gistsBraced : ∀ a : Attribute, ∃ more, (Sketch.braced a).gists = .brace :: .colon :: nameGist a.key :: more
  | ⟨_, _, _⟩ => ⟨_, rfl⟩

omit one in
theorem coversTriggerFirst {ws ws' : List Word} {t : Trigger} {a : Attribute} {as : List Attribute} {ts : List Trigger}
    (first : Covers ws (Sketch.trigger t)) (opens : OpensTrigger ws) (other : a.key ≠ "nopats")
    (rest : Covers ws' (Sketch.attributes (a :: as) ++ Sketch.triggers ts)) :
    Covers (ws ++ ws') (Sketch.attributes (a :: as) ++ Sketch.triggers (t :: ts)) := by
  have fewer := first.fewer
  have fewer' := rest.fewer
  refine ⟨first.balanced.append rest.balanced, ?_, fun same => absurd same ?_⟩
  · simp only [Layout.gistsOfAppend, Sketch.gistsAppend, Sketch.triggers, List.length_append] at fewer' ⊢
    omega
  · obtain ⟨more, printed⟩ := gistsBraced a
    obtain ⟨g, more', written, negative⟩ := opens
    rw [Layout.gistsOfAppend, written, Sketch.gistsAppend, Sketch.attributes, Sketch.gistsAppend, printed]
    intro same
    obtain ⟨_, second⟩ := List.cons.inj same
    obtain ⟨colon, third⟩ := List.cons.inj second
    obtain ⟨more'', rfl⟩ := negative colon
    exact absurd (List.cons.inj third).1.symm (by simp [nameGist, other])

omit one in
theorem coversGroups {ws : List Word} {found : List Braced} (h : Finds.Row OfBraced ws found) :
    (∀ a ∈ found.filterMap Braced.keyed?, a.key ≠ "nopats") ∧
      Covers ws (Sketch.attributes (found.filterMap Braced.keyed?) ++ Sketch.triggers (found.filterMap Braced.trigger?)) := by
  induction h with
  | nil => exact ⟨nofun, .nil⟩
  | @cons ws b ws' found first _ ih =>
    obtain ⟨keys, inside⟩ := ih
    cases b with
    | keyed a =>
      refine ⟨List.forall_mem_cons.mpr ⟨first.2, keys⟩, ?_⟩
      show Covers _ (Sketch.braced a ++ (space ++ Sketch.attributes _) ++ Sketch.triggers _)
      rw [Sketch.appendAssoc, Sketch.appendAssoc]
      exact first.1.append inside.quiet
    | trigger t =>
      refine ⟨keys, ?_⟩
      show Covers _ (Sketch.attributes (found.filterMap Braced.keyed?) ++ Sketch.triggers (t :: _))
      cases attributes : found.filterMap Braced.keyed? with
      | nil =>
        rw [attributes, Sketch.attributes, Sketch.nothingAppend] at inside
        rw [Sketch.attributes, Sketch.nothingAppend]
        exact first.1.append inside.quiet
      | cons a as =>
        rw [attributes] at inside keys
        exact coversTriggerFirst first.1 first.2 (keys a List.mem_cons_self) inside
    | mistake => exact first.elim

theorem coversBracedGroups : Finds anywhere n sort
    (fun ws found => Covers ws (Sketch.attributes found.1 ++ Sketch.triggers found.2)) (bracedGroups expr) :=
  .commute (.manyNext (coversBraced one)) fun _ _ found => (coversGroups found).2

theorem coversAttributes : Finds anywhere n sort (fun ws as => Covers ws (Sketch.attributes as)) (attributes expr) := by
  have item {sort : Kind → Prop} : Finds anywhere n sort (fun ws o => ∃ a, o = some a ∧ Covers ws (Sketch.braced a))
      (attributeOnly expr) := by
    refine .bind (coversBraced one) fun ws b found => .given (.broken _) fun none => .pure ?_
    rw [List.append_nil]
    cases b with
    | keyed a => exact ⟨a, rfl, found.1⟩
    | trigger t => exact absurd none (by simp [Braced.trigger?])
    | mistake => exact found.elim
  refine .commute (.manyNext item) fun ws found rows => ?_
  induction rows with
  | nil => exact .nil
  | cons first _ ih =>
    obtain ⟨a, rfl, inside⟩ := first
    exact inside.append ih.quiet

theorem coversWhere {role : GroupRole} : Finds anywhere n sort
    (fun ws o => Covers ws (Sketch.optionalWhere o) ∧ (role.allowsWhere = false → o = none)) (optionalWhere expr role) := by
  refine .eat (k := n) (by decide) (fun text => .bind one fun ws e found => ?_) (.pure ⟨.nil, fun _ => rfl⟩) (Nat.le_succ n)
  split
  · rename_i allowed
    refine .pure ⟨?_, fun never => absurd (never.symm.trans allowed) Bool.false_ne_true⟩
    rw [List.append_nil]
    exact .mark rfl rfl found.1
  · exact .fault (.broken _)

omit one in
def typed (v : Variable) : Sketch :=
  name v.name ++ (fixed ": " ++ (Sketch.ty v.type ++ Sketch.optionalWhere v.whereClause))

omit one in
def typedSize (vs : List Variable) : Nat := (vs.map fun v => (typed v).gists.length + 1).sum

omit one in
structure Declared (as : List Attribute) (ws : List Word) (vs : List Variable) : Prop where
  balanced : Balanced ws
  filled : vs ≠ []
  same : ∀ v ∈ vs, v.attributes = as
  single : ∀ v, vs = [v] → Covers ws (typed v)
  fewer : (gistsOf ws).length + 1 ≤ typedSize vs

omit one in
theorem gistsNames {ids : List Ident} (filled : ids ≠ []) : (Sketch.names ids).gists.length + 1 = ids.length * 2 := by
  rw [Sketch.names, commas, Sketch.gistsJoined (by simpa using filled) rfl, List.map_map]
  have each : ((fun S => S.gists.length + 1) ∘ fun id => name id.name) = fun _ : Ident => 2 := rfl
  rw [each, List.map_const', List.sum_replicate_nat]

theorem declaresGroup {role : GroupRole} {as : List Attribute} : Finds anywhere n sort
    (fun ws vs => Declared as ws vs ∧ (2 ≤ vs.length → (gistsOf ws).length + 1 < typedSize vs) ∧
      (role.allowsWhere = false → ∀ v ∈ vs, v.whereClause = none)) (typedGroup expr role as) := by
  refine .bind coversNames fun ws ids ⟨ofNames, filled⟩ => .expect (by decide) fun colon => ?_
  refine .bind coversType fun ws' t ofType => .bind (coversWhere one) fun ws'' o ⟨ofWhere, banned⟩ => .pure ?_
  rw [List.append_nil]
  have rest : Covers (⟨.colon, colon⟩ :: (ws' ++ ws'')) (fixed ": " ++ (Sketch.ty t ++ Sketch.optionalWhere o)) :=
    .mark rfl rfl (ofType.append ofWhere)
  generalize behind : fixed ": " ++ (Sketch.ty t ++ Sketch.optionalWhere o) = S at rest
  have size : typedSize (ids.map fun id => ⟨id.name, t, o, as, id.span⟩) = ids.length * (S.gists.length + 2) := by
    have each : ((fun v => (typed v).gists.length + 1) ∘ fun id => (⟨id.name, t, o, as, id.span⟩ : Variable)) =
        fun _ : Ident => S.gists.length + 2 := funext fun id => by rw [← behind]; rfl
    rw [typedSize, List.map_map, each, List.map_const', List.sum_replicate_nat]
  have count : (gistsOf ws).length + 1 ≤ ids.length * 2 := gistsNames filled ▸ Nat.succ_le_succ ofNames.fewer
  have some : 0 < ids.length := List.length_pos_of_ne_nil filled
  have whole : (gistsOf (ws ++ ⟨.colon, colon⟩ :: (ws' ++ ws''))).length + 1 ≤ ids.length * 2 + S.gists.length := by
    have := rest.fewer
    rw [Layout.gistsOfAppend, List.length_append]
    omega
  have filled' : 0 < S.gists.length := by rw [← behind]; exact Nat.succ_pos _
  refine ⟨⟨ofNames.balanced.append rest.balanced, by simpa using filled, ?_, ?_, ?_⟩, fun several => ?_, fun never => ?_⟩
  · rintro v mem
    obtain ⟨id, _, rfl⟩ := List.mem_map.mp mem
    rfl
  · intro v alone
    obtain ⟨id, rfl, rfl⟩ := List.map_eq_singleton_iff.mp alone
    have ofName : Covers ws (name id.name) := Sketch.appendNothing (S := name id.name) ▸ ofNames
    rw [← behind] at rest
    exact ofName.append rest
  · have := Nat.le_mul_of_pos_left S.gists.length some
    rw [size, Nat.mul_add]
    omega
  · rw [List.length_map] at several
    have := Nat.mul_le_mul_right S.gists.length several
    rw [size, Nat.mul_add]
    omega
  · rintro v mem
    obtain ⟨id, _, rfl⟩ := List.mem_map.mp mem
    exact banned never

omit one in
theorem gistsBoundVariable {v : Variable} (plain : v.whereClause = none) : (Sketch.boundVariable v).gists.length =
    (Sketch.attributes v.attributes).gists.length + (typed v).gists.length := by
  obtain ⟨n, type, whereClause, as, span⟩ := v
  subst plain
  simp [Sketch.boundVariable, typed, Sketch.optionalWhere]

omit one in
theorem sizeWith {as : List Attribute} {vs : List Variable} (same : ∀ v ∈ vs, v.attributes = as) (c : Nat) :
    (vs.map fun v => c + (Sketch.attributes v.attributes).gists.length + ((typed v).gists.length + 1)).sum =
      vs.length * (c + (Sketch.attributes as).gists.length) + typedSize vs := by
  induction vs with
  | nil => simp [typedSize]
  | cons v rest ih =>
    obtain ⟨first, others⟩ := List.forall_mem_cons.mp same
    have ofRest := ih others
    simp only [typedSize, List.map_cons, List.sum_cons, List.length_cons, first, Nat.succ_mul] at ofRest ⊢
    omega

theorem coversBoundGroup : Finds anywhere n sort
    (fun ws vs => Covers ws (commas (Sketch.boundVariables vs)) ∧ vs ≠ []) (attributedGroup expr .boundVariables) := by
  refine .bind (coversAttributes one) fun ws as ofAs => (declaresGroup one).weaken ?_
  rintro ws' vs ⟨⟨balanced, filled, same, single, fewer⟩, strict, plain⟩
  refine ⟨?_, filled⟩
  by_cases several : 2 ≤ vs.length
  · refine .short (ofAs.balanced.append balanced) ?_
    have some : vs.map Sketch.boundVariable ≠ [] := by simpa using filled
    have size := Sketch.gistsJoined some (show (fixed ", ").gists.length = 1 from rfl)
    have each : (vs.map Sketch.boundVariable).map (fun S => S.gists.length + 1) =
        vs.map fun v => 0 + (Sketch.attributes v.attributes).gists.length + ((typed v).gists.length + 1) := by
      rw [List.map_map]
      refine List.map_congr_left fun v mem => ?_
      rw [Function.comp_apply, gistsBoundVariable (plain rfl v mem), Nat.zero_add, Nat.add_assoc]
    rw [each, sizeWith same] at size
    have := ofAs.fewer
    have := strict several
    have := Nat.mul_le_mul_right (0 + (Sketch.attributes as).gists.length) several
    rw [Sketch.boundVariablesMap, Layout.gistsOfAppend, List.length_append, commas]
    omega
  · obtain ⟨v, rest, rfl⟩ := List.exists_cons_of_ne_nil filled
    obtain rfl : rest = [] := List.eq_nil_of_length_eq_zero (by simpa using several)
    obtain ⟨n, type, whereClause, as', span⟩ := v
    obtain rfl : as' = as := same _ List.mem_cons_self
    obtain rfl : whereClause = none := plain rfl _ List.mem_cons_self
    have inside := single _ rfl
    rw [typed, Sketch.optionalWhere, Sketch.appendNothing] at inside
    exact Covers.alone (ofAs.append inside)

omit one in
theorem coversFlatten {ws : List Word} {groups : List (List Variable)}
    (h : Finds.Items .comma (fun ws vs => Covers ws (commas (Sketch.boundVariables vs)) ∧ vs ≠ []) ws groups) :
    Covers ws (row ((Sketch.boundVariables groups.flatten).map (fixed ", " ++ ·))) := by
  induction h with
  | nil => exact .nil
  | @cons text ws vs ws' groups first _ ih =>
    have filled : vs.map Sketch.boundVariable ≠ [] := by simpa using first.2
    have whole := (Covers.mark (w := ⟨.comma, text⟩) (s := ", ") rfl rfl first.1).append ih
    rw [Sketch.boundVariablesMap] at whole ih ⊢
    rw [List.flatten_cons, List.map_append, List.map_append, Sketch.rowAppend, Sketch.rowMarked filled]
    rwa [Sketch.boundVariablesMap] at whole

theorem coversBoundGroups : Finds anywhere n sort
    (fun ws vs => Covers ws (commas (Sketch.boundVariables vs)) ∧ vs ≠ []) (attributedGroups expr .boundVariables) := by
  refine .commute (findsSeparated (coversBoundGroup one)) fun ws groups found => ?_
  obtain @⟨ws, vs, ws', groups, first, more⟩ := found
  have filled : vs.map Sketch.boundVariable ≠ [] := by simpa using first.2
  have whole := first.1.append (coversFlatten more)
  rw [Sketch.boundVariablesMap, Sketch.boundVariablesMap, commas, ← Sketch.joinedAppend filled, ← List.map_append] at whole
  refine ⟨?_, by simp [first.2]⟩
  rwa [Sketch.boundVariablesMap, List.flatten_cons]

omit one in
theorem gistsVariableDecl (v : Variable) : (Sketch.variableDecl v).gists.length =
    1 + (Sketch.attributes v.attributes).gists.length + ((typed v).gists.length + 1) := by
  obtain ⟨n, type, whereClause, as, span⟩ := v
  have opening : (fixed "var ").gists.length = 1 := rfl
  have closing : (fixed ";").gists.length = 1 := rfl
  simp only [Sketch.variableDecl, typed, Sketch.gistsAppend, List.length_append, opening, closing]
  omega

omit one in
theorem declaredTogether {as : List Attribute} {ws : List Word} {groups : List (List Variable)}
    (h : Separated (Declared as) ws groups) : Declared as ws groups.flatten := by
  obtain @⟨ws, vs, ws', groups, first, more⟩ := h
  have others : Balanced ws' ∧ (∀ v ∈ groups.flatten, v.attributes = as) ∧
      (gistsOf ws').length ≤ typedSize groups.flatten ∧ (groups ≠ [] → groups.flatten ≠ []) := by
    induction more with
    | nil => exact ⟨.nil, nofun, Nat.le_refl 0, fun some => absurd rfl some⟩
    | @cons text ws vs ws' groups next _ ih =>
      obtain ⟨balanced, same, fewer, _⟩ := ih
      refine ⟨.word rfl (next.balanced.append balanced), ?_, ?_, fun _ => by simp [next.filled]⟩
      · exact List.forall_mem_append.mpr ⟨next.same, same⟩
      · have := next.fewer
        rw [Layout.gistsOfSolid rfl, Layout.gistsOfAppend, List.length_cons, List.length_append, List.flatten_cons,
          typedSize, List.map_append, List.sum_append]
        rw [typedSize] at this fewer
        omega
  obtain ⟨balanced, same, fewer, filled⟩ := others
  refine ⟨first.balanced.append balanced, by simp [first.filled], ?_, fun v alone => ?_, ?_⟩
  · exact List.forall_mem_append.mpr ⟨first.same, same⟩
  · obtain ⟨v', rest, rfl⟩ := List.exists_cons_of_ne_nil first.filled
    rw [List.flatten_cons, List.cons_append] at alone
    obtain ⟨rfl, none⟩ := List.cons.inj alone
    obtain ⟨rfl, noGroup⟩ := List.append_eq_nil_iff.mp none
    obtain rfl : groups = [] := Classical.byContradiction fun some => filled some noGroup
    cases more with
    | nil => simpa using first.single v' rfl
  · have := first.fewer
    rw [Layout.gistsOfAppend, List.length_append, List.flatten_cons, typedSize, List.map_append, List.sum_append]
    rw [typedSize] at this fewer
    omega

theorem coversVariableDecl {role : GroupRole} :
    Finds anywhere n sort (fun ws vs => Covers ws (Sketch.localDecls vs)) (variableDecl expr role) := by
  refine .expect (by decide) fun text => .bind (coversAttributes one) fun ws as ofAs => ?_
  refine .bind (findsSeparated ((declaresGroup one).weaken fun _ _ found => found.1)) fun ws' groups found => ?_
  refine .expect (by decide) fun closed => .pure ?_
  obtain ⟨balanced, filled, same, single, fewer⟩ := declaredTogether found
  generalize groups.flatten = vs at balanced filled same single fewer
  by_cases several : 2 ≤ vs.length
  · refine .short (.word rfl (ofAs.balanced.append (balanced.append (.one rfl)))) ?_
    have each : (vs.map fun v => (Sketch.variableDecl v).gists.length) =
        vs.map fun v => 1 + (Sketch.attributes v.attributes).gists.length + ((typed v).gists.length + 1) :=
      List.map_congr_left fun v _ => gistsVariableDecl v
    have := ofAs.fewer
    have := Nat.mul_le_mul_right (1 + (Sketch.attributes as).gists.length) several
    rw [Sketch.localDeclsSpaced, Sketch.gistsSpaced, each, sizeWith same, Layout.gistsOfSolid rfl, List.length_cons,
      Layout.gistsOfAppend, Layout.gistsOfAppend, List.length_append, List.length_append, Layout.gistsOfSolid rfl,
      List.length_cons, Layout.gistsOfNil, List.length_nil]
    omega
  · obtain ⟨v, rest, rfl⟩ := List.exists_cons_of_ne_nil filled
    obtain rfl : rest = [] := List.eq_nil_of_length_eq_zero (by simpa using several)
    have inside := single _ rfl
    obtain ⟨n, type, whereClause, as', span⟩ := v
    obtain rfl : as' = as := same _ List.mem_cons_self
    have whole := Covers.mark (w := ⟨.kwVar, text⟩) (s := "var ") rfl rfl
      (ofAs.append (inside.append (.last ";" (w := ⟨.semicolon, closed⟩) rfl rfl)))
    rw [typed, Sketch.appendAssoc, Sketch.appendAssoc, Sketch.appendAssoc] at whole
    rw [Sketch.localDecls, Sketch.localDecls, Sketch.appendNothing]
    exact whole.silent

theorem coversLocalVariables :
    Finds anywhere n sort (fun ws vs => Covers ws (Sketch.localDecls vs)) (localVariables expr) := by
  refine .commute (.manyNext (coversVariableDecl one)) fun ws groups rows => ?_
  induction rows with
  | nil => exact .nil
  | cons first _ ih =>
    have whole := first.append ih
    rw [Sketch.localDeclsSpaced, Sketch.localDeclsSpaced, Sketch.spaced, Sketch.spaced, ← Sketch.rowAppend,
      ← List.map_append] at whole
    rwa [Sketch.localDeclsSpaced, List.flatten_cons, Sketch.spaced]

end Held

end Boogie.Grammar
