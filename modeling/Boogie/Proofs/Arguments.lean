import Boogie.Command.Options

/-! What arguments ask for. They are groups, one behind the other: flags, names to be defined, each in one of four
spellings, and files. A call for help, an unknown option or a define without its name ends them, and is then all that
counts. Every row of arguments is of this form, and what it is read as depends on what its groups ask for and on
nothing else. -/
namespace Boogie.Command

theorem afterHeadIff {head text name : String} : afterHead head text = some name ↔ text = head ++ name := by
  rw [afterHead, Option.ite_none_right_eq_some, List.isPrefixOf_iff_prefix, Option.some.injEq]
  constructor
  · rintro ⟨⟨rest, whole⟩, rfl⟩
    apply String.toList_inj.mp
    rw [String.toList_append, String.toList_ofList, ← whole, ← String.length_toList, List.drop_left]
  · rintro rfl
    refine ⟨⟨name.toList, String.toList_append.symm⟩, ?_⟩
    apply String.toList_inj.mp
    rw [String.toList_ofList, String.toList_append, ← String.length_toList, List.drop_left]

theorem afterHeadNone {head text : String} : afterHead head text = none ↔ ∀ name, text ≠ head ++ name := by
  rw [Option.eq_none_iff_forall_ne_some]
  exact forall_congr' fun name => not_congr afterHeadIff

def IsPath (text : String) : Prop := text = "-" ∨ text.toList.head? ≠ some '-'

def knownOptions : List String := ["-h", "--help", "-D", "--define", "--base-name", "--print", "--no-color"]

structure IsUnknown (text : String) : Prop where
  option : ¬ IsPath text
  other : text ∉ knownOptions
  noName (name : String) : text ≠ "-D" ++ name ∧ text ≠ "--define=" ++ name

inductive Stands : String → Argument → Prop
  | help {text} (is : text = "-h" ∨ text = "--help") : Stands text .help
  | defineNext {text} (is : text = "-D" ∨ text = "--define") : Stands text .defineNext
  | define {name} (some : name ≠ "") : Stands ("-D" ++ name) (.define name)
  | defineLong {name} : Stands ("--define=" ++ name) (.define name)
  | baseName : Stands "--base-name" .baseName
  | print : Stands "--print" .print
  | noColor : Stands "--no-color" .noColor
  | unknown {text} (is : IsUnknown text) : Stands text .unknown
  | file {text} (is : IsPath text) : Stands text .file

theorem isPathIff {text : String} : IsPath text ↔ ¬ (text.toList.head? = some '-' ∧ 1 < text.length) := by
  have alone : text = "-" ↔ text.toList = ['-'] := String.toList_inj.symm
  rw [IsPath, alone, ← String.length_toList]
  cases text.toList with
  | nil => simp
  | cons c rest => cases rest <;> simp [Classical.em]

theorem ofTextOther {text : String} (other : text ∉ knownOptions) :
    Argument.ofText text = match afterHead "--define=" text, afterHead "-D" text with
      | some name, _ => .define name
      | none, some name => .define name
      | none, none => if text.toList.head? = some '-' ∧ 1 < text.length then .unknown else .file := by
  simp only [knownOptions, List.mem_cons, List.not_mem_nil, or_false, not_or] at other
  obtain ⟨short, help, next, define, baseName, print, noColor⟩ := other
  exact (if_neg (not_or.mpr ⟨short, help⟩)).trans ((if_neg (not_or.mpr ⟨next, define⟩)).trans
    ((if_neg baseName).trans ((if_neg print).trans (if_neg noColor))))

theorem standsOfText (text : String) : Stands text (.ofText text) := by
  by_cases known : text ∈ knownOptions
  · simp only [knownOptions, List.mem_cons, List.not_mem_nil, or_false] at known
    rcases known with rfl | rfl | rfl | rfl | rfl | rfl | rfl
    · exact .help (.inl rfl)
    · exact .help (.inr rfl)
    · exact .defineNext (.inl rfl)
    · exact .defineNext (.inr rfl)
    · exact .baseName
    · exact .print
    · exact .noColor
  · rw [ofTextOther known]
    split
    · rename_i name _ long
      obtain rfl := afterHeadIff.mp long
      exact .defineLong
    · rename_i name _ short
      obtain rfl := afterHeadIff.mp short
      refine .define ?_
      rintro rfl
      exact known (by decide)
    · rename_i long short
      have noName (name : String) := And.intro (afterHeadNone.mp short name) (afterHeadNone.mp long name)
      split
      · rename_i option
        exact .unknown ⟨fun path => isPathIff.mp path option, known, noName⟩
      · rename_i path
        exact .file (isPathIff.mpr path)

theorem headOther {head name : String} (known : ∀ text ∈ knownOptions, head.toList <+: text.toList → text = head)
    (some : head ∈ knownOptions → name ≠ "") : head ++ name ∉ knownOptions := by
  intro mem
  have same := known _ mem (by simp)
  have none : name = "" := by simpa using same
  exact some (same ▸ mem) none

theorem ofTextStands {text : String} {a : Argument} (h : Stands text a) : Argument.ofText text = a := by
  cases h with
  | help is => rcases is with rfl | rfl <;> decide +kernel
  | defineNext is => rcases is with rfl | rfl <;> decide +kernel
  | baseName => decide +kernel
  | print => decide +kernel
  | noColor => decide +kernel
  | @define name some =>
    rw [ofTextOther (headOther (by decide +kernel) fun _ => some)]
    have long : afterHead "--define=" ("-D" ++ name) = none := by
      refine afterHeadNone.mpr fun other same => ?_
      have := congrArg String.toList same
      simp at this
    rw [long, afterHeadIff.mpr rfl]
  | @defineLong name =>
    have unlisted : "--define=" ∉ knownOptions := by decide +kernel
    rw [ofTextOther (headOther (by decide +kernel) fun mem => absurd mem unlisted), afterHeadIff.mpr rfl]
  | unknown is =>
    rw [ofTextOther is.other, afterHeadNone.mpr fun name => (is.noName name).1,
      afterHeadNone.mpr fun name => (is.noName name).2]
    exact if_pos (Classical.not_not.mp fun other => is.option (isPathIff.mpr other))
  | file is =>
    have noHead {head : String} (begins : head.toList.head? = some '-') (more : 1 < head.length) (name : String) :
        text ≠ head ++ name := by
      rintro rfl
      refine isPathIff.mp is ⟨?_, ?_⟩
      · rw [String.toList_append, List.head?_append, begins, Option.some_or]
      · rw [String.length_append]
        omega
    have other : text ∉ knownOptions := by
      intro mem
      have options : ∀ word ∈ knownOptions, word.toList.head? = some '-' ∧ 1 < word.length := by decide +kernel
      exact isPathIff.mp is (options _ mem)
    rw [ofTextOther other, afterHeadNone.mpr (noHead (by decide) (by decide)),
      afterHeadNone.mpr (noHead (by decide) (by decide))]
    exact if_neg (isPathIff.mp is)

inductive Flag where
  | baseName
  | print
  | noColor
  deriving DecidableEq, Repr

def Flag.word : Flag → String
  | .baseName => "--base-name"
  | .print => "--print"
  | .noColor => "--no-color"

inductive Spelling where
  | short
  | long
  | shortJoined
  | longJoined
  deriving DecidableEq, Repr

def Spelling.words : Spelling → String → List String
  | .short, name => ["-D", name]
  | .long, name => ["--define", name]
  | .shortJoined, name => ["-D" ++ name]
  | .longJoined, name => ["--define=" ++ name]

inductive Group where
  | flag (f : Flag)
  | define (spelling : Spelling) (name : String) (some : spelling = .shortJoined → name ≠ "")
  | file (path : String) (is : IsPath path)

namespace Group

def words : Group → List String
  | .flag f => [f.word]
  | .define spelling name _ => spelling.words name
  | .file path _ => [path]

def name? : Group → Option String
  | .define _ name _ => some name
  | _ => none

def path? : Group → Option String
  | .file path _ => some path
  | _ => none

def isFlag (f : Flag) : Group → Bool
  | .flag g => decide (f = g)
  | _ => false

def add (o : Options) : Group → Options
  | .flag .baseName => { o with useBaseName := true }
  | .flag .print => { o with print := true }
  | .flag .noColor => { o with color := .never }
  | .define _ name _ => o.addDefine name
  | .file path _ => o.addFile path

end Group

def written (gs : List Group) : List String := gs.flatMap Group.words

theorem writtenCons (g : Group) (gs : List Group) : written (g :: gs) = g.words ++ written gs := List.flatMap_cons

def asked (gs : List Group) : Options where
  defines := gs.filterMap Group.name?
  useBaseName := gs.any (Group.isFlag .baseName)
  print := gs.any (Group.isFlag .print)
  color := if gs.any (Group.isFlag .noColor) then .never else .auto
  files := gs.filterMap Group.path?

/-- What ends the reading: a call for help or an unknown option, whatever stands behind it, or a define as the last
argument of all. -/
inductive Ends : List String → Except ArgumentError Request → Prop
  | help {text rest} (is : text = "-h" ∨ text = "--help") : Ends (text :: rest) (.ok .help)
  | unknown {text rest} (is : IsUnknown text) : Ends (text :: rest) (.error (.unknownOption text))
  | missing {text} (is : text = "-D" ∨ text = "--define") : Ends [text] (.error (.missingValue text))

/-- What arguments mean: groups what they ask for, if there is a file among them, and groups that are ended what ends
them. -/
inductive Means : List String → Except ArgumentError Request → Prop
  | read (gs) (files : (asked gs).files ≠ []) : Means (written gs) (.ok (.read (asked gs)))
  | noFiles (gs) (none : (asked gs).files = []) : Means (written gs) (.error .noFiles)
  | ended (gs) {rest answer} (ends : Ends rest answer) : Means (written gs ++ rest) answer

def follow (o : Options) (text : String) (rest : List String) : Argument → Except ArgumentError Request
  | .help => .ok .help
  | .defineNext =>
    match rest with
    | name :: rest => parse (o.addDefine name) rest
    | [] => .error (.missingValue text)
  | .define name => parse (o.addDefine name) rest
  | .baseName => parse { o with useBaseName := true } rest
  | .print => parse { o with print := true } rest
  | .noColor => parse { o with color := .never } rest
  | .unknown => .error (.unknownOption text)
  | .file => parse (o.addFile text) rest

theorem parseCons {text : String} {a : Argument} (stands : Stands text a) (o : Options) (rest : List String) :
    parse o (text :: rest) = follow o text rest a := by
  rw [parse.eq_def]
  simp only [ofTextStands stands]
  cases a with
  | defineNext => cases rest <;> rfl
  | _ => rfl

theorem parseGroup (o : Options) (g : Group) (rest : List String) :
    parse o (g.words ++ rest) = parse (g.add o) rest := by
  cases g with
  | flag f =>
    cases f with
    | baseName => exact parseCons .baseName o rest
    | print => exact parseCons .print o rest
    | noColor => exact parseCons .noColor o rest
  | define spelling name some =>
    cases spelling with
    | short => exact parseCons (.defineNext (.inl rfl)) o (name :: rest)
    | long => exact parseCons (.defineNext (.inr rfl)) o (name :: rest)
    | shortJoined => exact parseCons (.define (some rfl)) o rest
    | longJoined => exact parseCons .defineLong o rest
  | file path is => exact parseCons (.file is) o rest

theorem parseGroups (o : Options) (gs : List Group) (rest : List String) :
    parse o (written gs ++ rest) = parse (gs.foldl Group.add o) rest := by
  induction gs generalizing o with
  | nil => rfl
  | cons g gs ih => rw [writtenCons, List.append_assoc, parseGroup, ih, List.foldl_cons]

theorem addGroups (o : Options) (gs : List Group) :
    gs.foldl Group.add o = ⟨o.defines ++ (asked gs).defines, o.useBaseName || (asked gs).useBaseName,
      o.print || (asked gs).print, if gs.any (Group.isFlag .noColor) then .never else o.color,
      o.files ++ (asked gs).files⟩ := by
  induction gs generalizing o with
  | nil => simp [asked]
  | cons g gs ih =>
    rw [List.foldl_cons, ih]
    cases g with
    | flag f => cases f <;> simp [Group.add, asked, Group.name?, Group.path?, Group.isFlag, List.filterMap_cons]
    | define spelling name some =>
      simp [Group.add, asked, Group.name?, Group.path?, Group.isFlag, List.filterMap_cons, Options.addDefine]
    | file path is =>
      simp [Group.add, asked, Group.name?, Group.path?, Group.isFlag, List.filterMap_cons, Options.addFile]

theorem addGroupsStart (gs : List Group) : gs.foldl Group.add .start = asked gs := by
  rw [addGroups]
  simp [Options.start, asked]

theorem parseEnds (o : Options) {rest : List String} {answer : Except ArgumentError Request} (h : Ends rest answer) :
    parse o rest = answer := by
  cases h with
  | help is => exact parseCons (.help is) o _
  | unknown is => exact parseCons (.unknown is) o _
  | missing is => exact parseCons (.defineNext is) o []

theorem parseMeans {arguments : List String} {answer : Except ArgumentError Request} (h : Means arguments answer) :
    parseArguments arguments = answer := by
  have alone (gs : List Group) : parseArguments (written gs) = parse (asked gs) [] := by
    rw [← List.append_nil (written gs), parseArguments, parseGroups, addGroupsStart]
  cases h with
  | read gs files => simp [alone, parse, files]
  | noFiles gs none => simp [alone, parse, none]
  | ended gs ends => rw [parseArguments, parseGroups, parseEnds _ ends]

theorem Means.behind (g : Group) {rest : List String} (h : ∃ answer, Means rest answer) :
    ∃ answer, Means (g.words ++ rest) answer := by
  obtain ⟨_, means⟩ := h
  -- whether there is a file depends on the new group as well
  have alone (gs : List Group) : ∃ answer, Means (written gs) answer := by
    by_cases files : (asked gs).files = []
    · exact ⟨_, .noFiles gs files⟩
    · exact ⟨_, .read gs files⟩
  cases means with
  | read gs _ => exact writtenCons g gs ▸ alone (g :: gs)
  | noFiles gs _ => exact writtenCons g gs ▸ alone (g :: gs)
  | ended gs ends =>
    rw [← List.append_assoc, ← writtenCons]
    exact ⟨_, .ended (g :: gs) ends⟩

theorem meansSomething (arguments : List String) : ∃ answer, Means arguments answer := by
  induction count : arguments.length using Nat.strongRecOn generalizing arguments with
  | ind n ih =>
    subst count
    cases arguments with
    | nil => exact ⟨_, .noFiles [] rfl⟩
    | cons text rest =>
      have ended {answer : Except ArgumentError Request} (ends : Ends (text :: rest) answer) :
          ∃ answer, Means (text :: rest) answer := ⟨answer, .ended [] ends⟩
      have more (g : Group) := Means.behind g (ih rest.length (Nat.lt_succ_self _) rest rfl)
      have stands := standsOfText text
      generalize Argument.ofText text = a at stands
      cases stands with
      | help is => exact ended (.help is)
      | unknown is => exact ended (.unknown is)
      | define some => exact more (.define .shortJoined _ fun _ => some)
      | defineLong => exact more (.define .longJoined _ nofun)
      | baseName => exact more (.flag .baseName)
      | print => exact more (.flag .print)
      | noColor => exact more (.flag .noColor)
      | file is => exact more (.file text is)
      | defineNext is =>
        cases rest with
        | nil => exact ended (.missing is)
        | cons name rest =>
          have more (g : Group) := Means.behind g (ih rest.length (by simp only [List.length_cons]; omega) rest rfl)
          rcases is with rfl | rfl
          · exact more (.define .short name nofun)
          · exact more (.define .long name nofun)

/-- Arguments are read as what they mean: flags, names and files alike however they are spelled and mixed, and what ends
them whatever stands before or behind it. -/
theorem readAsMeant (arguments : List String) (answer : Except ArgumentError Request) :
    parseArguments arguments = answer ↔ Means arguments answer := by
  constructor
  · rintro rfl
    obtain ⟨answer, means⟩ := meansSomething arguments
    exact parseMeans means ▸ means
  · exact parseMeans

-- the first `--help` is a name, the second a call for help, and the option behind it goes unnoticed
example : parseArguments ["-D", "--help", "-", "-DD"] = .ok (.read ⟨["--help", "D"], false, false, .auto, ["-"]⟩) ∧
    parseArguments ["-D", "--help", "-", "-DD", "--help", "--verbose"] = .ok .help := by
  constructor <;> rfl

end Boogie.Command
