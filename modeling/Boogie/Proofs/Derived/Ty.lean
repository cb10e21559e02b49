import Boogie.Proofs.Gate
import Boogie.Proofs.Grammar.Finds
import Boogie.Proofs.Operators
import Boogie.Proofs.Reread.Ty

/-! The grammar of types as a relation between words and trees, and that types are read by it: the words of a
run that finds nothing wrong derive what it finds, and words that derive a type are read as that type in front
of whatever does not go on with it. The trees have no places. -/
namespace Boogie.Grammar

open Token (Kind Word)

def WritesWidth (text : List Char) (width : Nat) : Prop :=
  ∃ digits, text = 'b' :: 'v' :: digits ∧ Text.isDigits digits = true ∧ Text.decimalValue digits = width ∧
    width < Text.wordCount 32

inductive TypePhrase where
  | type
  | atom
  | name
  | argument
  | args
  | map
  | params
  | names
  | domain
  | types

abbrev TypePhrase.Tree : TypePhrase → Type
  | .type | .atom | .name | .argument | .map => Ty
  | .args | .domain | .types => List Ty
  | .params | .names => List Ident

inductive DerivesType : (p : TypePhrase) → List Word → p.Tree → Prop where
  | atom {ws t} (one : DerivesType .atom ws t) : DerivesType .type ws t
  | name {ws t} (alone : DerivesType .name ws t) : DerivesType .type ws t
  | applied {text ws ts} (args : DerivesType .args ws ts) :
      DerivesType .type (⟨.identifier, text⟩ :: ws) (.named .nowhere (Reads.nameOf text) ts)
  | map {ws t} (whole : DerivesType .map ws t) : DerivesType .type ws t
  | int {text} : DerivesType .atom [⟨.kwInt, text⟩] (.basic .nowhere .int)
  | real {text} : DerivesType .atom [⟨.kwReal, text⟩] (.basic .nowhere .real)
  | bool {text} : DerivesType .atom [⟨.kwBool, text⟩] (.basic .nowhere .bool)
  | paren {opened ws t closed} (inner : DerivesType .type ws t) :
      DerivesType .atom (⟨.leftParen, opened⟩ :: (ws ++ [⟨.rightParen, closed⟩])) t
  | width {text width} (writes : WritesWidth text width) :
      DerivesType .name [⟨.identifier, text⟩] (.bitVector .nowhere width)
  | unresolved {text} (other : ∀ width, ¬WritesWidth text width) :
      DerivesType .name [⟨.identifier, text⟩] (.named .nowhere (Reads.nameOf text) [])
  | argumentAtom {ws t} (one : DerivesType .atom ws t) : DerivesType .argument ws t
  | argumentName {ws t} (alone : DerivesType .name ws t) : DerivesType .argument ws t
  | lastArgument {ws t} (one : DerivesType .argument ws t) : DerivesType .args ws [t]
  | moreArguments {ws t ws' ts} (one : DerivesType .argument ws t) (more : DerivesType .args ws' ts) :
      DerivesType .args (ws ++ ws') (t :: ts)
  | lastMap {ws t} (whole : DerivesType .map ws t) : DerivesType .args ws [t]
  | mapType {ws ids opened ws' ts closed ws'' t} (params : DerivesType .params ws ids)
      (domain : DerivesType .domain ws' ts) (result : DerivesType .type ws'' t) :
      DerivesType .map (ws ++ ⟨.leftBracket, opened⟩ :: (ws' ++ ⟨.rightBracket, closed⟩ :: ws''))
        (.map .nowhere ids ts t)
  | noParams : DerivesType .params [] []
  | params {less ws ids greater} (names : DerivesType .names ws ids) :
      DerivesType .params (⟨.less, less⟩ :: (ws ++ [⟨.greater, greater⟩])) ids
  | oneName {text} : DerivesType .names [⟨.identifier, text⟩] [⟨Reads.nameOf text, .nowhere⟩]
  | moreNames {text comma ws ids} (more : DerivesType .names ws ids) :
      DerivesType .names (⟨.identifier, text⟩ :: ⟨.comma, comma⟩ :: ws) (⟨Reads.nameOf text, .nowhere⟩ :: ids)
  | noTypes : DerivesType .domain [] []
  | domain {ws ts} (types : DerivesType .types ws ts) : DerivesType .domain ws ts
  | oneType {ws t} (one : DerivesType .type ws t) : DerivesType .types ws [t]
  | moreTypes {ws t comma ws' ts} (first : DerivesType .type ws t) (more : DerivesType .types ws' ts) :
      DerivesType .types (ws ++ ⟨.comma, comma⟩ :: ws') (t :: ts)

theorem WritesWidth.unique {text : List Char} {width width' : Nat} (h : WritesWidth text width)
    (h' : WritesWidth text width') : width = width' := by
  obtain ⟨digits, rfl, _, rfl, _⟩ := h
  obtain ⟨_, same, _, rfl, _⟩ := h'
  cases same
  rfl

theorem writesWidthIff {text : List Char} {width : Nat} : WritesWidth text width ↔
    (Reads.nameOf text != String.ofList text) = false ∧ Name.bitVectorWidth (Reads.nameOf text) = some width := by
  constructor
  · rintro ⟨digits, rfl, all, value, less⟩
    have same : Reads.nameOf ('b' :: 'v' :: digits) = String.ofList ('b' :: 'v' :: digits) := by
      simp [Reads.nameOf, Name.unescape]
    have found : Name.bitVectorDigits (String.ofList ('b' :: 'v' :: digits)) = some digits := by
      simp [Name.bitVectorDigits, all]
    rw [same, Name.bitVectorWidth, found]
    refine ⟨bne_self_eq_false _, ?_⟩
    simp [Text.readWord, Text.readUnsignedDigits all, value, less]
  · rintro ⟨plain, found⟩
    have same : Reads.nameOf text = String.ofList text := by simpa using plain
    rw [same] at found
    obtain ⟨digits, ofDigits, read⟩ := Option.bind_eq_some_iff.mp found
    simp only [Name.bitVectorDigits, String.toList_ofList] at ofDigits
    split at ofDigits
    · split at ofDigits
      · rename_i all
        cases ofDigits
        rw [Text.readWord, Text.readUnsignedDigits all] at read
        obtain ⟨value, less⟩ := Option.filter_eq_some_iff.mp read
        exact ⟨digits, rfl, all, Option.some.inj value, by simpa using less⟩
      · contradiction
    · contradiction

theorem derivesName {text : List Char} {span : Span} : DerivesType .name [⟨.identifier, text⟩]
    (bare (namedType span (Reads.nameOf text) (Reads.nameOf text != String.ofList text) [])) := by
  by_cases some : ∃ width, WritesWidth text width
  · obtain ⟨width, writes⟩ := some
    have ⟨plain, found⟩ := writesWidthIff.mp writes
    simp only [namedType, plain, found]
    exact .width writes
  · have none : ∀ width, ¬WritesWidth text width := fun width writes => some ⟨width, writes⟩
    have tree : namedType span (Reads.nameOf text) (Reads.nameOf text != String.ofList text) [] =
        .named span (Reads.nameOf text) [] := by
      unfold namedType
      split
      · rename_i width _ plain found
        exact absurd (writesWidthIff.mpr ⟨plain, found⟩) (none width)
      · rfl
    rw [tree]
    exact .unresolved none

theorem nameUnique {ws : List Word} {t t' : Ty} (h : DerivesType .name ws t) (h' : DerivesType .name ws t') :
    t = t' := by
  cases h with
  | width writes =>
    cases h' with
    | width writes' => rw [writes.unique writes']
    | unresolved other => exact absurd writes (other _)
  | unresolved other =>
    cases h' with
    | width writes => exact absurd writes (other _)
    | unresolved => rfl

theorem argsFilled {ws : List Word} {ts : List Ty} (h : DerivesType .args ws ts) : ts ≠ [] := by
  cases h <;> nofun

theorem bareApplied {span : Span} {name : String} {escaped : Bool} {ts : List Ty} (some : bare ts ≠ []) :
    bare (namedType span name escaped ts) = .named .nowhere name (bare ts) := by
  cases ts with
  | nil => exact absurd rfl some
  | cons t ts => simp [namedType, bare]

abbrev IsType (ws : List Word) (t : Ty) : Prop := DerivesType .type ws (bare t)

def IsArgs (ws : List Word) (ts : List Ty) : Prop := (ws = [] ∧ ts = []) ∨ DerivesType .args ws (bare ts)

theorem derivesArgs {ws ws' : List Word} {ts last : List Ty}
    (row : Finds.Row (fun ws t => DerivesType .argument ws (bare t)) ws ts) (more : IsArgs ws' last) :
    IsArgs (ws ++ ws') (ts ++ last) := by
  induction row with
  | nil => exact more
  | @cons ws a _ as first _ ih =>
    rw [List.append_assoc]
    rcases ih with ⟨noWords, none⟩ | args
    · rw [noWords, List.cons_append, none, List.append_nil]
      exact .inr (.lastArgument first)
    · exact .inr (.moreArguments first args)

theorem derivesTypes {ws ws' : List Word} {t : Ty} {ts : List Ty} (first : IsType ws t)
    (more : Finds.Items .comma IsType ws' ts) : DerivesType .types (ws ++ ws') (bare (t :: ts)) := by
  induction more generalizing ws t with
  | nil =>
    rw [List.append_nil]
    exact .oneType first
  | cons next _ ih => exact .moreTypes first (ih next)

def IsIdent (ws : List Word) (id : Ident) : Prop :=
  ∃ text, ws = [⟨.identifier, text⟩] ∧ bare id = ⟨Reads.nameOf text, .nowhere⟩

theorem derivesNames {ws ws' : List Word} {id : Ident} {ids : List Ident} (first : IsIdent ws id)
    (more : Finds.Items .comma IsIdent ws' ids) : DerivesType .names (ws ++ ws') (bare (id :: ids)) := by
  induction more generalizing ws id with
  | nil =>
    obtain ⟨text, rfl, same⟩ := first
    show DerivesType .names _ [bare id]
    rw [same]
    exact .oneName
  | cons next _ ih =>
    obtain ⟨text, rfl, same⟩ := first
    show DerivesType .names _ (bare id :: bare (_ :: _))
    rw [same]
    exact .moreNames (ih next)

section Found

variable {n : Nat} {sort : Kind → Prop}

theorem findsIdent : Finds anywhere n sort IsIdent ident := by
  have alone : Finds anywhere (n + 1) sort IsIdent (ident >>= pure) :=
    .ident fun text span => .pure ⟨text, rfl, rfl⟩
  exact alone.mono (fun _ h => h) (Nat.le_succ n)

theorem findsNames : Finds anywhere n sort (fun ws ids => DerivesType .names ws (bare ids)) idents :=
  .bind findsIdent fun _ _ first => .commute (.manyEats (by decide) findsIdent) fun _ _ more => derivesNames first more

theorem findsParams :
    Finds anywhere n sort (fun ws ids => DerivesType .params ws (bare ids)) optionalTypeParams := by
  refine .ifNext ?_ (.pure .noParams)
  refine .expect (by decide) fun less => .bind findsNames fun ws ids names => ?_
  exact .expect (by decide) fun greater => .pure (.params names)

variable {type : Production Ty} (nested : Finds anywhere n anywhere IsType type)
include nested

theorem findsTypeAtom : Finds anywhere (n + 1) (fun k => argumentStart.contains k = true ∧ k ≠ .identifier)
    (fun ws t => DerivesType .atom ws (bare t)) (typeAtom type) := by
  refine .byFirst fun k ⟨first, unnamed⟩ => ?_
  have kinds : k = .leftParen ∨ k = .kwInt ∨ k = .kwReal ∨ k = .kwBool := by
    simpa [argumentStart, Token.KindSet.containsOfList, unnamed] using first
  rcases kinds with rfl | rfl | rfl | rfl
  · refine .token (k := n) (by decide) (fun token kind => ?_) (Nat.le_refl _)
    rw [kind]
    refine .bind nested fun ws t inner => .expect (by decide) fun closed => .pure ?_
    exact .paren inner
  all_goals
    refine .token (k := n) (by decide) (fun token kind => ?_) (Nat.le_refl _)
    rw [kind]
    refine .pure ?_
    constructor

theorem findsTypeArgument : Finds anywhere (n + 1) (fun k => argumentStart.contains k = true)
    (fun ws t => DerivesType .argument ws (bare t)) (typeArgument type) := by
  refine .ifNext ?_ ?_
  · exact .identWritten fun text span => .pure (.argumentName derivesName)
  · refine ((findsTypeAtom nested).weaken fun _ _ => .argumentAtom).mono ?_ (Nat.le_refl _)
    exact fun k ⟨first, unnamed⟩ => ⟨first, by simpa using unnamed⟩

theorem findsDomain : Finds anywhere n sort (fun ws ts => DerivesType .domain ws (bare ts))
    (ifNext (checkAny typeStart) (commaSeparated type) (pure [])) :=
  .ifNext (.bind nested.always fun _ _ first => .commute (.manyEats (by decide) nested) fun _ _ more =>
    .domain (derivesTypes first more)) (.pure .noTypes)

theorem findsMapType : Finds anywhere (n + 1) (fun k => mapStart.contains k = true)
    (fun ws t => DerivesType .map ws (bare t)) (mapType type) := by
  refine .look fun start => .bind findsParams fun ws ids params => ?_
  refine .expectThen (by decide) fun opened => .bind (findsDomain nested) fun ws' ts domain => ?_
  refine .expect (by decide) fun closed => .bind nested fun ws'' t result => .spanFrom fun span => .pure ?_
  have tree : bare (Ty.map span ids ts t) = .map .nowhere (bare ids) (bare ts) (bare t) := by simp [bare]
  rw [tree, List.append_nil]
  exact .mapType params domain result

theorem findsTypeArgs : Finds anywhere n sort IsArgs (typeArgs type) := by
  have one := (findsTypeArgument nested).mono (fun _ h => h) (Nat.le_succ n)
  refine .bind (.manyNext one) fun ws ts arguments => .ifNext ?_ ?_
  · refine .bind ((findsMapType nested).mono (fun _ h => h.2) (Nat.le_succ n)) fun ws' t whole => .pure ?_
    rw [List.append_nil]
    exact derivesArgs arguments (.inr (.lastMap whole))
  · refine .pure ?_
    simpa using derivesArgs arguments (.inl ⟨rfl, rfl⟩)

theorem findsTypeLevel : Finds anywhere (n + 1) sort IsType (typeLevel type) := by
  refine .ifNext ?_ (.ifNext ?_ (.ifNext ?_ ?_))
  · refine .look fun start => .identWritten fun text span => .bind (findsTypeArgs nested) fun ws ts args => ?_
    refine .spanFrom fun whole => .pure ?_
    rw [List.append_nil]
    rcases args with ⟨rfl, rfl⟩ | args
    · exact .name derivesName
    · rw [IsType, bareApplied (argsFilled args)]
      exact .applied args
  · exact ((findsMapType nested).weaken fun _ _ => .map).mono (fun _ h => h.2) (Nat.le_refl _)
  · refine ((findsTypeAtom nested).weaken fun _ _ => .atom).mono ?_ (Nat.le_refl _)
    exact fun k ⟨⟨⟨_, unnamed⟩, _⟩, first⟩ => ⟨first, by simpa using unnamed⟩
  · exact .fault (.syntaxError _)

end Found

theorem findsType {n : Nat} {sort : Kind → Prop} : Finds anywhere n sort IsType type :=
  Finds.always (.nest (T := fun _ => IsType) (fun _ _ nested _ => findsTypeLevel (nested ())) ())

def Opens (sort : Kind → Bool) (ws : List Word) : Prop := ∃ w more, ws = w :: more ∧ sort w.kind = true

namespace Opens

variable {sort : Kind → Bool} {ws : List Word}

theorem append (h : Opens sort ws) (ws' : List Word) : Opens sort (ws ++ ws') := by
  obtain ⟨w, more, rfl, first⟩ := h
  exact ⟨w, more ++ ws', rfl, first⟩

theorem mono {wide : Kind → Bool} (h : Opens sort ws) (narrow : ∀ k, sort k = true → wide k = true) :
    Opens wide ws := by
  obtain ⟨w, more, same, first⟩ := h
  exact ⟨w, more, same, narrow _ first⟩

theorem head (h : Opens sort ws) (rest : List Word) : sort (headKind (ws ++ rest)) = true := by
  obtain ⟨w, more, rfl, first⟩ := h
  exact first

end Opens

theorem argumentsStart (k : Kind) (h : argumentStart.contains k = true) : typeStart.contains k = true := by
  rw [typeStart, Token.KindSet.containsUnion, h, Bool.true_or]

theorem mapsStart (k : Kind) (h : mapStart.contains k = true) : typeStart.contains k = true := by
  rw [typeStart, Token.KindSet.containsUnion, h, Bool.or_true]

theorem mapsApart {k : Kind} (h : mapStart.contains k = true) :
    argumentStart.contains k = false ∧ k ≠ .identifier := by
  have kinds : k = .leftBracket ∨ k = .less := by simpa [mapStart, Token.KindSet.containsOfList] using h
  rcases kinds with rfl | rfl <;> decide

theorem argumentsApart {k : Kind} (h : argumentStart.contains k = true) : mapStart.contains k = false := by
  by_contra map
  rw [Bool.not_eq_false] at map
  exact absurd h (by rw [(mapsApart map).1]; nofun)

def TypePhrase.first : TypePhrase → Kind → Bool
  | .type | .args | .domain | .types => typeStart.contains
  | .atom => fun k => argumentStart.contains k && k != .identifier
  | .name | .names => (· == .identifier)
  | .argument => argumentStart.contains
  | .map => mapStart.contains
  | .params => (· == .less)

def TypePhrase.isOptional : TypePhrase → Bool
  | .params | .domain => true
  | _ => false

theorem TypePhrase.firstOfAtom {k : Kind} (h : TypePhrase.atom.first k = true) :
    argumentStart.contains k = true ∧ k ≠ .identifier := by
  simpa [TypePhrase.first] using h

theorem TypePhrase.firstOfName {p : TypePhrase} (start : p.first .identifier = true) {k : Kind}
    (h : TypePhrase.name.first k = true) : p.first k = true := by
  have same : k = .identifier := by simpa [TypePhrase.first] using h
  exact same ▸ start

theorem DerivesType.begins {p : TypePhrase} {ws : List Word} {tree : p.Tree} (h : DerivesType p ws tree) :
    (ws = [] ∧ p.isOptional = true) ∨ Opens p.first ws := by
  have required {p : TypePhrase} {ws : List Word} (none : p.isOptional = false)
      (h : (ws = [] ∧ p.isOptional = true) ∨ Opens p.first ws) : Opens p.first ws :=
    h.resolve_left fun ⟨_, is⟩ => absurd (none.symm.trans is) nofun
  induction h with
  | atom _ ih => exact .inr ((required rfl ih).mono fun k first => argumentsStart k (TypePhrase.firstOfAtom first).1)
  | name _ ih => exact .inr ((required rfl ih).mono fun _ => TypePhrase.firstOfName (by decide))
  | applied => exact .inr ⟨_, _, rfl, (by decide : typeStart.contains .identifier = true)⟩
  | map _ ih => exact .inr ((required rfl ih).mono mapsStart)
  | int => exact .inr ⟨_, _, rfl, (by decide : TypePhrase.atom.first .kwInt = true)⟩
  | real => exact .inr ⟨_, _, rfl, (by decide : TypePhrase.atom.first .kwReal = true)⟩
  | bool => exact .inr ⟨_, _, rfl, (by decide : TypePhrase.atom.first .kwBool = true)⟩
  | paren => exact .inr ⟨_, _, rfl, (by decide : TypePhrase.atom.first .leftParen = true)⟩
  | width | unresolved | oneName | moreNames => exact .inr ⟨_, _, rfl, rfl⟩
  | argumentAtom _ ih => exact .inr ((required rfl ih).mono fun _ first => (TypePhrase.firstOfAtom first).1)
  | argumentName _ ih =>
    exact .inr ((required rfl ih).mono fun _ => TypePhrase.firstOfName (p := .argument) (by decide))
  | lastArgument _ ih => exact .inr ((required rfl ih).mono argumentsStart)
  | moreArguments _ _ one _ => exact .inr (((required rfl one).mono argumentsStart).append _)
  | lastMap _ ih => exact .inr ((required rfl ih).mono mapsStart)
  | mapType _ _ _ params _ _ =>
    rcases params with ⟨rfl, _⟩ | less
    · exact .inr ⟨_, _, rfl, (by decide : mapStart.contains .leftBracket = true)⟩
    · refine .inr ((less.mono fun k first => ?_).append _)
      have same : k = .less := by simpa [TypePhrase.first] using first
      exact same ▸ (by decide : mapStart.contains .less = true)
  | noParams | noTypes => exact .inl ⟨rfl, rfl⟩
  | params => exact .inr ⟨_, _, rfl, rfl⟩
  | domain _ ih => exact .inr (required (p := .types) rfl ih)
  | oneType _ ih => exact .inr (required rfl ih)
  | moreTypes _ _ first _ => exact .inr ((required rfl first).append _)

theorem DerivesType.head {p : TypePhrase} {ws : List Word} {tree : p.Tree} (h : DerivesType p ws tree)
    (required : p.isOptional = false) (rest : List Word) : p.first (headKind (ws ++ rest)) = true :=
  (h.begins.resolve_left fun ⟨_, is⟩ => absurd (required.symm.trans is) nofun).head rest

theorem nameAlone {ws : List Word} {t : Ty} (h : DerivesType .name ws t) : ∃ text, ws = [⟨.identifier, text⟩] := by
  cases h <;> exact ⟨_, rfl⟩

section Read

variable {ws ws' rest : List Word}

theorem typeArgsOnce {type : Production Ty} {s : State} (closed : s.isClosed)
    (first : argumentStart.contains s.kind = true) : (typeArgs type).run s =
      (do let t ← typeArgument type; let ts ← typeArgs type; return t :: ts).run s := by
  have moves (s : State) (closed : s.isClosed) (first : ((checkAny argumentStart).run s).1 = true) :
      ((typeArgument type).run ((checkAny argumentStart).run s).2).2.left < s.left :=
    Progresses.typeArgument s closed first
  have once := manyOnce looksNext moves closed first
  simp only [typeArgs, checkAny, Production.runBind, once, Production.runPure, runNextIs]
  generalize (typeArgument type).run s = one
  generalize (many (nextIs argumentStart.contains) (typeArgument type)).run one.2 = others
  by_cases map : mapStart.contains others.2.kind = true <;> simp [map]

theorem readsNoArgs (ends : endsType (headKind rest)) : Reads [] rest (· = []) (typeArgs type) :=
  .stay (.manyDone (notArgument ends)) fun _ none => .ifNo (notMap ends) (.pure none)

theorem readsMoreArgs {V : Ty → Prop} {Vs : List Ty → Prop}
    (first : argumentStart.contains (headKind (ws ++ (ws' ++ rest))) = true)
    (one : Reads ws (ws' ++ rest) V (typeArgument type)) (more : Reads ws' rest Vs (typeArgs type)) :
    Reads (ws ++ ws') rest (Reads.Cons V Vs) (typeArgs type) := by
  intro s closed words
  have here : argumentStart.contains s.kind = true := by
    rwa [State.kindOfWords closed words, List.append_assoc]
  rw [typeArgsOnce closed here]
  have whole : Reads (ws ++ ws') rest (Reads.Cons V Vs)
      (do let t ← typeArgument type; let ts ← typeArgs type; return t :: ts) :=
    .bind one fun t ofT => .last more fun ts ofTs => .pure ⟨t, ts, rfl, ofT, ofTs⟩
  exact whole s closed words

def TypePhrase.IsRead : (p : TypePhrase) → List Word → p.Tree → Prop
  | .type, ws, t => ∀ rest, endsType (headKind rest) → Reads ws rest (fun a => bare a = t) Grammar.type
  | .atom, ws, t => ∀ rest, Reads ws rest (fun a => bare a = t) (Grammar.typeAtom Grammar.type)
  | .name, _, _ => True
  | .argument, ws, t => ∀ rest, Reads ws rest (fun a => bare a = t) (Grammar.typeArgument Grammar.type)
  | .args, ws, ts =>
    ∀ rest, endsType (headKind rest) → Reads ws rest (fun as => bare as = ts) (Grammar.typeArgs Grammar.type)
  | .map, ws, t =>
    ∀ rest, endsType (headKind rest) → Reads ws rest (fun a => bare a = t) (Grammar.mapType Grammar.type)
  | .params, ws, ids =>
    ∀ rest, headKind rest ≠ .less → Reads ws rest (fun as => bare as = ids) Grammar.optionalTypeParams
  | .names, ws, ids => ∀ rest, headKind rest ≠ .comma → Reads ws rest (fun as => bare as = ids) Grammar.idents
  | .domain, ws, ts => ∀ rest, headKind rest = .rightBracket → Reads ws rest (fun as => bare as = ts)
      (ifNext (checkAny typeStart) (commaSeparated Grammar.type) (pure []))
  | .types, ws, ts => ∀ rest, headKind rest = .rightBracket →
      Reads ws rest (fun as => bare as = ts) (commaSeparated Grammar.type)

theorem readsTypeOf {t : Ty} (h : Reads ws rest (fun a => bare a = t) (typeLevel type)) :
    Reads ws rest (fun a => bare a = t) type :=
  .ofSame alikeTypeUnfold (fun _ _ same here => same.symm.trans here) h

theorem readsIdentWord {text : List Char} (rest : List Word) :
    Reads [⟨.identifier, text⟩] rest (fun id => bare id = ⟨Reads.nameOf text, .nowhere⟩) ident := by
  have whole : Reads [⟨.identifier, text⟩] rest (fun id => bare id = ⟨Reads.nameOf text, .nowhere⟩) (ident >>= pure) :=
    .ident fun span => .pure rfl
  rwa [bind_pure] at whole

end Read

theorem DerivesType.isRead {p : TypePhrase} {ws : List Word} {tree : p.Tree} (h : DerivesType p ws tree) :
    p.IsRead ws tree := by
  induction h with
  | atom one ih =>
    intro rest _
    have ⟨starts, unnamed⟩ := TypePhrase.firstOfAtom (one.head rfl rest)
    refine readsTypeOf (.ifNo (beq_eq_false_iff_ne.mpr unnamed) (.ifNo (argumentsApart starts) ?_))
    exact .ifYes starts (ih rest)
  | name alone _ =>
    intro rest ends
    obtain ⟨text, rfl⟩ := nameAlone alone
    refine readsTypeOf (.ifYes rfl (.look fun _ => .identWritten fun span => .stay (readsNoArgs ends) ?_))
    rintro _ rfl
    exact .spanFrom fun _ => .pure (nameUnique derivesName alone)
  | applied args ih =>
    intro rest ends
    refine readsTypeOf (.ifYes rfl (.look fun _ => .identWritten fun span => .last (ih rest ends) fun as same => ?_))
    refine .spanFrom fun _ => .pure ?_
    rw [bareApplied (same ▸ argsFilled args), same]
  | map whole ih =>
    intro rest ends
    have starts : mapStart.contains _ = true := whole.head rfl rest
    have ⟨_, unnamed⟩ := mapsApart starts
    exact readsTypeOf (.ifNo (beq_eq_false_iff_ne.mpr unnamed) (.ifYes starts (ih rest ends)))
  | int | real | bool =>
    intro rest
    refine .advance fun token same => ?_
    have kind := congrArg Word.kind same
    change token.kind = _ at kind
    rw [kind]
    exact .pure rfl
  | paren _ ih =>
    intro rest
    refine .advance fun token same => ?_
    have kind : token.kind = .leftParen := congrArg Word.kind same
    rw [kind]
    exact .bind (ih _ closesType) fun t ofT => .expectLast rfl (.pure ofT)
  | width | unresolved => trivial
  | argumentAtom one ih =>
    intro rest
    have ⟨_, unnamed⟩ := TypePhrase.firstOfAtom (one.head rfl rest)
    exact .ifNo (beq_eq_false_iff_ne.mpr unnamed) (ih rest)
  | argumentName alone _ =>
    intro rest
    obtain ⟨text, rfl⟩ := nameAlone alone
    exact .ifYes rfl (.identWritten fun span => .pure (nameUnique derivesName alone))
  | lastArgument one ih =>
    intro rest ends
    have none : Reads [] rest _ (typeArgs type) := readsNoArgs ends
    have whole := readsMoreArgs (one.head rfl ([] ++ rest)) (ih ([] ++ rest)) none
    rw [List.append_nil] at whole
    refine whole.weaken ?_
    rintro _ ⟨t, _, rfl, rfl, rfl⟩
    rfl
  | moreArguments one _ ih more =>
    intro rest ends
    refine (readsMoreArgs (one.head rfl _) (ih _) (more rest ends)).weaken ?_
    rintro _ ⟨t, ts, rfl, rfl, rfl⟩
    rfl
  | lastMap whole ih =>
    intro rest ends
    have starts : mapStart.contains _ = true := whole.head rfl rest
    refine .stay (.manyDone (mapsApart starts).1) ?_
    rintro _ rfl
    exact .ifYes starts (.last (ih rest ends) fun t same => .pure (congrArg (fun t => [t]) same))
  | mapType params domain result ofParams ofDomain ofResult =>
    intro rest ends
    refine .look fun start => .bind (ofParams _ (by simp)) fun ids same => .expect rfl ?_
    refine .bind (ofDomain _ rfl) fun ts same' => .expect rfl (.last (ofResult rest ends) fun t same'' => ?_)
    refine .spanFrom fun _ => .pure ?_
    simp_all [bare]
  | noParams => exact fun rest other => .ifNo (beq_eq_false_iff_ne.mpr other) (.pure rfl)
  | params _ ih =>
    intro rest _
    exact .ifYes rfl (.expect rfl (.bind (ih _ (by simp)) fun ids same => .expectLast rfl (.pure same)))
  | oneName =>
    intro rest other
    refine (Reads.one (readsIdentWord rest) other).weaken ?_
    rintro _ ⟨id, _, rfl, same, rfl⟩
    exact congrArg (fun id => [id]) same
  | @moreNames text comma ws' _ _ ih =>
    intro rest other
    have first := @readsIdentWord text (⟨.comma, comma⟩ :: (ws' ++ rest))
    refine (Reads.cons (by decide : Kind.comma ≠ .endOfText) rfl first (ih rest other)).weaken ?_
    rintro _ ⟨id, ids, rfl, same, rfl⟩
    exact congrArg (fun id => id :: bare ids) same
  | noTypes =>
    intro rest closes
    exact .ifNo (by rw [List.nil_append, closes]; decide) (.pure rfl)
  | domain types ih => exact fun rest closes => .ifYes (types.head rfl rest) (ih rest closes)
  | oneType _ ih =>
    intro rest closes
    refine (Reads.one (ih rest (closes ▸ by decide)) (by rw [closes]; decide)).weaken ?_
    rintro _ ⟨t, _, rfl, rfl, rfl⟩
    rfl
  | @moreTypes _ _ comma ws' _ _ _ first more =>
    intro rest closes
    have one := first (⟨.comma, comma⟩ :: (ws' ++ rest)) (by decide : endsType .comma)
    refine (Reads.cons (by decide : Kind.comma ≠ .endOfText) rfl one (more rest closes)).weaken ?_
    rintro _ ⟨t, ts, rfl, rfl, rfl⟩
    rfl

theorem State.Reaches.aheadOfWords {s t : State} (row : s.Reaches t) {ts rest : List Token}
    (ahead : s.cursor.ahead = ts ++ rest) (left : t.words = rest.map Token.word) : t.cursor.ahead = rest := by
  have count : t.cursor.ahead.length = rest.length := by simpa [State.words] using congrArg List.length left
  have behind : rest <:+ s.cursor.ahead := ahead ▸ List.suffix_append ts rest
  exact (List.suffix_of_suffix_length_le row.aheadSuffix behind (Nat.le_of_eq count)).eq_of_length count

/-- Tokens in front of one that does not go on with a type are read without a report, and just up to it, if
and only if their words derive a type; and then it is that type which is read. -/
theorem typesExactly {s : State} {ts rest : List Token} (closed : s.isClosed)
    (opened : s.cursor.isReportDue = true) (ahead : s.cursor.ahead = ts ++ rest)
    (ends : typeStart.contains (rest.headD s.cursor.finish).kind = false) :
    ((type.run s).2.log = s.log ∧ (type.run s).2.cursor.ahead = rest ↔
        ∃ t, DerivesType .type (ts.map Token.word) t) ∧
      ∀ t, DerivesType .type (ts.map Token.word) t → bare (type.run s).1 = t := by
  have row := type.reaches s
  have words : s.words = ts.map Token.word ++ rest.map Token.word := by
    rw [State.words, ahead, List.map_append]
  have stops : endsType (headKind (rest.map Token.word)) := by
    cases rest with
    | nil => exact (by decide : endsType .endOfText)
    | cons t rest => exact ends
  have found (t : Ty) (derived : DerivesType .type (ts.map Token.word) t) := derived.isRead _ stops s closed words
  refine ⟨⟨?_, ?_⟩, fun t derived => (found t derived).1⟩
  · rintro ⟨silent, stopped⟩
    have clean := State.unmarkedOfSilent row opened silent
    obtain ⟨ws, split, derived⟩ :=
      @findsType _ anywhere s closed (fun _ _ => trivial) (Nat.lt_succ_self _) trivial clean
    rw [words, State.words, stopped] at split
    exact ⟨_, List.append_cancel_right split ▸ derived⟩
  · rintro ⟨t, derived⟩
    obtain ⟨_, left, clean⟩ := found t derived
    exact ⟨row.silent clean, row.aheadOfWords ahead left⟩

theorem typesExactlyMap :
    let name (text : String) : Token := ⟨.identifier, text, .nowhere, ⟨0, 0⟩⟩
    let ts := [name "M", .sample .kwInt, .sample .leftBracket, .sample .kwBool, .sample .rightBracket, name "bv8"]
    let s : State := .start ⟨ts ++ [.sample .semicolon], .sample .endOfText⟩ [] (.empty "")
    (s.isClosed ∧ s.cursor.isReportDue = true ∧ s.cursor.ahead = ts ++ [.sample .semicolon] ∧
        typeStart.contains (Token.sample .semicolon).kind = false) ∧
      ((type.run s).2.log = s.log ∧ (type.run s).2.cursor.ahead = [.sample .semicolon]) ∧
      bare (type.run s).1 = .named .nowhere "M" [.basic .nowhere .int,
        .map .nowhere [] [.basic .nowhere .bool] (.bitVector .nowhere 8)] := by
  intro name ts s
  have named : Reads.nameOf "M".toList = "M" := by decide +kernel
  have eight : WritesWidth "bv8".toList 8 := ⟨['8'], by decide⟩
  have derived : DerivesType .type (ts.map Token.word) (.named .nowhere "M" [.basic .nowhere .int,
      .map .nowhere [] [.basic .nowhere .bool] (.bitVector .nowhere 8)]) := by
    rw [← named]
    exact .applied (.moreArguments (.argumentAtom .int)
      (.lastMap (.mapType .noParams (.domain (.oneType (.atom .bool))) (.name (.width eight)))))
  have ends : typeStart.contains (Token.sample .semicolon).kind = false := by decide
  have whole := @typesExactly s ts [.sample .semicolon] rfl rfl rfl ends
  exact ⟨⟨rfl, rfl, rfl, ends⟩, whole.1.mpr ⟨_, derived⟩, whole.2 _ derived⟩

end Boogie.Grammar
