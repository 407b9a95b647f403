/-
Module: CodeHighlight.Proofs.ArgumentSpelling
Purpose: How an invocation can be written as arguments, and that it is read back from them.  It
  consists of parts: its file, the options that have a value and the flags that are set.  A part is
  written in one or two arguments, and the parts stand in any order.  Of the parser only what is
  documented is used.
Main exports:
  CommandLine.ValueOption.longName, CommandLine.ValueOption.letter, CommandLine.Flag.longName,
  CommandLine.Flag.letter?, CommandLine.Part, CommandLine.Part.place, CommandLine.Part.HasValue,
  CommandLine.Part.WrittenAs, CommandLine.Part.SaidAs, CommandLine.Part.WrittenAs.exists_writes,
  Invocation.command_wellNamed, Invocation.options, Invocation.Proper, Invocation.SpelledBy,
  Invocation.nodup_map_place_options, Invocation.exists_spelledBy, Invocation.SaidIn,
  Invocation.exists_spells_of_spelledBy, Invocation.SaidIn.admits, Invocation.SaidIn.value_iff,
  Invocation.SaidIn.ofMatches_eq, Invocation.parse_of_spelledBy, Invocation.proper_of_parse,
  Invocation.exists_parse_eq_iff, Invocation.parse_spelled
-/
import CodeHighlight.CommandLine
import CodeHighlight.Proofs.ArgumentReading
import Mathlib.Data.List.Nodup

namespace CodeHighlight

namespace CommandLine

/-! ### Names -/

/-- The long name of an option. -/
def ValueOption.longName : ValueOption → String
  | query => "query"
  | theme => "theme"
  | language => "language"
  | output => "output"

/-- The short name of an option. -/
def ValueOption.letter : ValueOption → Char
  | query => 'q'
  | theme => 'c'
  | language => 'l'
  | output => 'o'

/-- The long name of a flag. -/
def Flag.longName : Flag → String
  | html => "html"
  | fragment => "fragment"
  | lineNumbers => "line-numbers"
  | verbose => "verbose"

/-- The short name of a flag, if it has one. -/
def Flag.letter? : Flag → Option Char
  | html => none
  | fragment => none
  | lineNumbers => some 'n'
  | verbose => some 'v'

/-! ### Parts -/

/-- One thing that is said about what the program is to do. -/
inductive Part where
  | file (path : FilePath)
  | query (path : FilePath)
  | theme (theme : Theme)
  | language (language : Language)
  | output (path : FilePath)
  | flag (flag : Flag)
deriving Repr, DecidableEq

namespace Part

/-- What the part is about. -/
def place : Part → Place
  | file _ => .file
  | query _ => .option .query
  | theme _ => .option .theme
  | language _ => .option .language
  | output _ => .option .output
  | flag which => .flag which

/-- A path has bytes, and a theme is one that comes with the program. -/
def Proper : Part → Prop
  | file path => path ≠ []
  | query path => path ≠ []
  | theme chosen => chosen ∈ Theme.builtin
  | language _ => True
  | output path => path ≠ []
  | flag _ => True

/-- The part is an option with this value.  A language may be called by any of its names. -/
inductive HasValue : Part → ValueOption → Bytes → Prop
  | query (path : FilePath) : HasValue (.query path) .query path
  | theme (theme : Theme) : HasValue (.theme theme) .theme (Utf8.encode theme.name)
  | language {language : Language} {name : String}
      (called : Language.ofName? name = some language) :
      HasValue (.language language) .language (Utf8.encode name)
  | output (path : FilePath) : HasValue (.output path) .output path

/-- The arguments that a part is written in.  A value may be attached to the long name of its option
by an equals sign; or it follows the long or the short name, unless it looks like an option. -/
inductive WrittenAs : Part → List Bytes → Prop
  | attached {part : Part} {which : ValueOption} {value : Bytes}
      (has : part.HasValue which value) :
      WrittenAs part [longArgument which.longName ++ equalsSign :: value]
  | afterLong {part : Part} {which : ValueOption} {value : Bytes}
      (has : part.HasValue which value) (undashed : Undashed value) :
      WrittenAs part [longArgument which.longName, value]
  | afterShort {part : Part} {which : ValueOption} {value : Bytes}
      (has : part.HasValue which value) (undashed : Undashed value) :
      WrittenAs part [shortArgument which.letter, value]
  | longFlag (flag : Flag) : WrittenAs (.flag flag) [longArgument flag.longName]
  | shortFlag {flag : Flag} {letter : Char} (named : flag.letter? = some letter) :
      WrittenAs (.flag flag) [shortArgument letter]
  | file {path : FilePath} (undashed : Undashed path) : WrittenAs (.file path) [path]

/-- What a part says to a parser. -/
inductive SaidAs : Part → Occurrence → Prop
  | file (path : FilePath) : SaidAs (.file path) (.file path)
  | option {part : Part} {which : ValueOption} {value : Bytes} (has : part.HasValue which value) :
      SaidAs part (.option which value)
  | flag (flag : Flag) : SaidAs (.flag flag) (.flag flag)

theorem SaidAs.place_eq {part : Part} {occurrence : Occurrence} (said : part.SaidAs occurrence) :
    occurrence.place = part.place := by
  cases said with
  | file path => rfl
  | option has => cases has <;> rfl
  | flag flag => rfl

/-- What a part is written in says the part, by the names that the program declares. -/
theorem WrittenAs.exists_writes {part : Part} {text : List Bytes} (written : part.WrittenAs text) :
    ∃ occurrence, part.SaidAs occurrence ∧ Invocation.command.Writes occurrence text := by
  have longName : ∀ which, (Invocation.command.option which).longName = which.longName := by
    intro which
    cases which <;> rfl
  have letter : ∀ which, (Invocation.command.option which).letter = which.letter := by
    intro which
    cases which <;> rfl
  have flagName : ∀ flag, (Invocation.command.flag flag).longName = flag.longName := by
    intro flag
    cases flag <;> rfl
  have flagLetter : ∀ flag, (Invocation.command.flag flag).letter = flag.letter? := by
    intro flag
    cases flag <;> rfl
  cases written with
  | attached has => exact ⟨_, .option has, longName _ ▸ .attached _ _⟩
  | afterLong has undashed => exact ⟨_, .option has, longName _ ▸ .afterLong _ undashed⟩
  | afterShort has undashed => exact ⟨_, .option has, letter _ ▸ .afterShort _ undashed⟩
  | longFlag flag => exact ⟨_, .flag flag, flagName flag ▸ .longFlag flag⟩
  | shortFlag named => exact ⟨_, .flag _, .shortFlag ((flagLetter _).trans named)⟩
  | file undashed => exact ⟨_, .file _, .file undashed⟩

/-! ### Values -/

theorem readTheme_of_mem {theme : Theme} (member : theme ∈ Theme.builtin) :
    Invocation.readTheme theme.name = .ok theme := by
  rw [Invocation.readTheme, Theme.ofName?_name member]

theorem mem_builtin_of_readTheme {name : String} {theme : Theme}
    (isRead : Invocation.readTheme name = .ok theme) : theme ∈ Theme.builtin := by
  rw [Invocation.readTheme] at isRead
  split at isRead
  · rename_i isTheme
    cases isRead
    exact List.mem_of_find?_eq_some isTheme
  · cases isRead

/-- A value of an option. -/
def ofValue : (which : ValueOption) → Invocation.Value which → Part
  | .query, path => query path
  | .theme, chosen => theme chosen
  | .language, chosen => language chosen
  | .output, path => output path

theorem ofValue_injective {which : ValueOption} {first second : Invocation.Value which}
    (same : ofValue which first = ofValue which second) : first = second := by
  cases which <;> (cases same; rfl)

/-- A value is said as a value of its option. -/
theorem SaidAs.exists_of_ofValue {which : ValueOption} {value : Invocation.Value which}
    {occurrence : Occurrence} (said : (ofValue which value).SaidAs occurrence) :
    ∃ bytes, occurrence = .option which bytes := by
  cases which <;> (cases said with | option has => cases has; exact ⟨_, rfl⟩)

/-- What is said as a value of an option is one, and can be read. -/
theorem SaidAs.exists_ofValue {part : Part} {which : ValueOption} {bytes : Bytes}
    (said : part.SaidAs (.option which bytes)) (proper : part.Proper) :
    ∃ value, part = ofValue which value ∧
      (Invocation.command.option which).reader.Reads bytes value := by
  cases said with
  | option has =>
      cases has with
      | query _ => exact ⟨_, rfl, proper, rfl⟩
      | theme theme => exact ⟨theme, rfl, theme.name, rfl, readTheme_of_mem proper⟩
      | @language language name called =>
          have isRead : Invocation.readLanguage name = .ok language := by
            rw [Invocation.readLanguage, called]
          exact ⟨language, rfl, name, rfl, isRead⟩
      | output _ => exact ⟨_, rfl, proper, rfl⟩

end Part

end CommandLine

namespace Invocation

open CommandLine

/-- The declared names can be told apart. -/
theorem command_wellNamed : command.WellNamed where
  longOption which := by cases which <;> exact ⟨rfl, by decide, by decide⟩
  shortOption which := by cases which <;> exact ⟨rfl, by decide⟩
  longFlag which := by cases which <;> exact ⟨rfl, by decide, by decide⟩
  shortFlag which letter named := by
    cases which with
    | html => cases named
    | fragment => cases named
    | lineNumbers =>
        cases named
        exact ⟨rfl, by decide⟩
    | verbose =>
        cases named
        exact ⟨rfl, by decide⟩

/-- Whether a flag is set. -/
def sets (invocation : Invocation) : Flag → Bool
  | .html => invocation.html
  | .fragment => invocation.fragment
  | .lineNumbers => invocation.lineNumbers
  | .verbose => invocation.verbose

/-- The parts of an invocation other than its file, with its theme or without. -/
def options (invocation : Invocation) (withTheme : Bool) : List Part :=
  invocation.query.toList.map .query ++
    (if withTheme then [.theme invocation.theme] else []) ++
    invocation.language.toList.map .language ++
    invocation.output.toList.map .output ++
    (Flag.all.filter invocation.sets).map .flag

/-- The paths have bytes, the theme comes with the program, and a fragment is one of a page. -/
structure Proper (invocation : Invocation) : Prop where
  file_ne_nil : invocation.file ≠ []
  query_ne_nil : invocation.query ≠ some []
  output_ne_nil : invocation.output ≠ some []
  theme_mem : invocation.theme ∈ Theme.builtin
  html_of_fragment : invocation.fragment = true → invocation.html = true

/-- Arguments that spell an invocation: its parts in any order, each written in one of its ways.  The
standard theme need not be there.  The file is one of the parts, or it stands last after a
separator. -/
inductive SpelledBy (invocation : Invocation) : List Bytes → Prop
  | fileAmong {withTheme : Bool} {parts : List Part} {texts : List (List Bytes)}
      (omitted : withTheme = false → invocation.theme = .standard)
      (order : parts.Perm (.file invocation.file :: invocation.options withTheme))
      (written : List.Forall₂ Part.WrittenAs parts texts) :
      SpelledBy invocation texts.flatten
  | fileLast {withTheme : Bool} {parts : List Part} {texts : List (List Bytes)}
      (omitted : withTheme = false → invocation.theme = .standard)
      (order : parts.Perm (invocation.options withTheme))
      (written : List.Forall₂ Part.WrittenAs parts texts) :
      SpelledBy invocation (texts.flatten ++ [[dash, dash], invocation.file])

/-! ### The parts of an invocation -/

section Parts

variable {invocation : Invocation} {withTheme : Bool}

@[simp] theorem mem_options_query {path : FilePath} :
    .query path ∈ invocation.options withTheme ↔ invocation.query = some path := by
  cases withTheme <;> simp [options]

@[simp] theorem mem_options_theme {theme : Theme} :
    .theme theme ∈ invocation.options withTheme ↔
      withTheme = true ∧ theme = invocation.theme := by
  cases withTheme <;> simp [options]

@[simp] theorem mem_options_language {language : Language} :
    .language language ∈ invocation.options withTheme ↔
      invocation.language = some language := by
  cases withTheme <;> simp [options]

@[simp] theorem mem_options_output {path : FilePath} :
    .output path ∈ invocation.options withTheme ↔ invocation.output = some path := by
  cases withTheme <;> simp [options]

@[simp] theorem mem_options_flag {flag : Flag} :
    .flag flag ∈ invocation.options withTheme ↔ invocation.sets flag = true := by
  have any : flag ∈ Flag.all := by cases flag <;> decide
  cases withTheme <;> simp [options, any]

@[simp] theorem file_notMem_options {path : FilePath} :
    .file path ∉ invocation.options withTheme := by
  cases withTheme <;> simp [options]

theorem place_ne_file_of_mem_options {part : Part}
    (member : part ∈ invocation.options withTheme) : part.place ≠ .file := by
  cases part with
  | file path => exact absurd member file_notMem_options
  | _ => exact Place.noConfusion

end Parts

theorem sublist_map_place {Value : Type} (value : Option Value) (part : Value → Part)
    {place : Place} (inPlace : ∀ value, (part value).place = place) :
    ((value.toList.map part).map Part.place).Sublist [place] := by
  cases value with
  | none => exact List.nil_sublist _
  | some value => simp [inPlace]

/-- No two parts of an invocation have one place. -/
theorem nodup_map_place_options (invocation : Invocation) (withTheme : Bool) :
    ((invocation.options withTheme).map Part.place).Nodup := by
  have all : ([Place.option .query] ++ [Place.option .theme] ++ [Place.option .language] ++
      [Place.option .output] ++ Flag.all.map Place.flag).Nodup := by decide
  have theme : ((if withTheme then [.theme invocation.theme] else []).map Part.place).Sublist
      [.option .theme] := by
    cases withTheme <;> simp [Part.place]
  have flags : (((Flag.all.filter invocation.sets).map Part.flag).map Part.place).Sublist
      (Flag.all.map Place.flag) := by
    rw [List.map_map]
    exact List.filter_sublist.map _
  refine List.Nodup.sublist ?_ all
  simp only [options, List.map_append]
  refine (((List.Sublist.append ?_ theme).append ?_).append ?_).append flags
  · exact sublist_map_place invocation.query .query fun _ => rfl
  · exact sublist_map_place invocation.language .language fun _ => rfl
  · exact sublist_map_place invocation.output .output fun _ => rfl

/-- The file has a place of its own, too. -/
theorem nodup_map_place_parts (invocation : Invocation) (withTheme : Bool) :
    ((.file invocation.file :: invocation.options withTheme).map Part.place).Nodup := by
  rw [List.map_cons, List.nodup_cons]
  refine ⟨?_, nodup_map_place_options invocation withTheme⟩
  intro among
  obtain ⟨part, member, isFile⟩ := List.mem_map.mp among
  exact place_ne_file_of_mem_options member isFile

/-! ### Spellings exist -/

/-- A part other than a file can be written. -/
theorem exists_writtenAs {part : Part} (notFile : part.place ≠ .file) :
    ∃ texts, part.WrittenAs texts := by
  cases part with
  | file path => exact absurd rfl notFile
  | query path => exact ⟨_, .attached (.query path)⟩
  | theme theme => exact ⟨_, .attached (.theme theme)⟩
  | language language => exact ⟨_, .attached (.language language.ofName?_name)⟩
  | output path => exact ⟨_, .attached (.output path)⟩
  | flag flag => exact ⟨_, .longFlag flag⟩

theorem exists_forall₂_writtenAs {parts : List Part}
    (notFile : ∀ part ∈ parts, part.place ≠ .file) :
    ∃ texts, List.Forall₂ Part.WrittenAs parts texts := by
  induction parts with
  | nil => exact ⟨[], .nil⟩
  | cons part rest inductionHypothesis =>
      obtain ⟨first, written⟩ := exists_writtenAs (notFile part List.mem_cons_self)
      obtain ⟨others, allWritten⟩ := inductionHypothesis fun other member =>
        notFile other (List.mem_cons_of_mem _ member)
      exact ⟨first :: others, .cons written allWritten⟩

/-- Every invocation can be spelled, whatever the bytes of its paths. -/
theorem exists_spelledBy (invocation : Invocation) :
    ∃ arguments, invocation.SpelledBy arguments := by
  have notFile : ∀ part ∈ invocation.options true, part.place ≠ .file :=
    fun _ member => place_ne_file_of_mem_options member
  obtain ⟨texts, written⟩ := exists_forall₂_writtenAs notFile
  exact ⟨_, .fileLast Bool.noConfusion (List.Perm.refl _) written⟩

/-! ### What is said -/

/-- What is said is the parts of the invocation in some order. -/
structure SaidIn (invocation : Invocation) (withTheme : Bool) (parts : List Part)
    (occurrences : List Occurrence) : Prop where
  omitted : withTheme = false → invocation.theme = .standard
  order : parts.Perm (.file invocation.file :: invocation.options withTheme)
  said : List.Forall₂ Part.SaidAs parts occurrences

/-- Parts that are written are said. -/
theorem exists_said_of_written {parts : List Part} {texts : List (List Bytes)}
    (written : List.Forall₂ Part.WrittenAs parts texts) :
    ∃ occurrences, List.Forall₂ Part.SaidAs parts occurrences ∧
      List.Forall₂ command.Writes occurrences texts := by
  induction written with
  | nil => exact ⟨[], .nil, .nil⟩
  | cons first _ inductionHypothesis =>
      obtain ⟨occurrence, said, writes⟩ := first.exists_writes
      obtain ⟨others, allSaid, allWritten⟩ := inductionHypothesis
      exact ⟨occurrence :: others, .cons said allSaid, .cons writes allWritten⟩

/-- Arguments that spell an invocation say its parts. -/
theorem exists_spells_of_spelledBy {invocation : Invocation} {arguments : List Bytes}
    (spelled : invocation.SpelledBy arguments) :
    ∃ withTheme parts occurrences, invocation.SaidIn withTheme parts occurrences ∧
      command.Spells occurrences arguments := by
  cases spelled with
  | fileAmong omitted order written =>
      obtain ⟨occurrences, said, writes⟩ := exists_said_of_written written
      exact ⟨_, _, occurrences, ⟨omitted, order, said⟩, .among writes⟩
  | @fileLast withTheme parts texts omitted order written =>
      obtain ⟨occurrences, said, writes⟩ := exists_said_of_written written
      refine ⟨withTheme, parts ++ [.file invocation.file], _, ⟨omitted, ?_, ?_⟩,
        .fileLast writes invocation.file⟩
      · exact (List.perm_append_singleton (.file invocation.file) _).trans (order.cons _)
      · exact List.rel_append said (.cons (.file invocation.file) .nil)

/-- The parts of a proper invocation are proper. -/
theorem Proper.parts {invocation : Invocation} (proper : invocation.Proper) {withTheme : Bool} :
    ∀ part ∈ .file invocation.file :: invocation.options withTheme, part.Proper := by
  intro part member
  rcases List.mem_cons.mp member with same | isOption
  · rw [same]
    exact proper.file_ne_nil
  · cases part with
    | file path => exact absurd isOption file_notMem_options
    | query path =>
        intro empty
        exact proper.query_ne_nil (empty ▸ mem_options_query.mp isOption)
    | theme theme => exact (mem_options_theme.mp isOption).2 ▸ proper.theme_mem
    | language language => trivial
    | output path =>
        intro empty
        exact proper.output_ne_nil (empty ▸ mem_options_output.mp isOption)
    | flag flag => trivial

/-- Whatever stands in a list has something that is related to it in a related list. -/
theorem exists_mem_of_forall₂ {First Second : Type} {related : First → Second → Prop}
    {firsts : List First} {seconds : List Second} (all : List.Forall₂ related firsts seconds)
    {first : First} (member : first ∈ firsts) : ∃ second ∈ seconds, related first second := by
  induction all with
  | nil => cases member
  | cons here _ inductionHypothesis =>
      rcases List.mem_cons.mp member with rfl | later
      · exact ⟨_, List.mem_cons_self, here⟩
      · obtain ⟨second, among, isRelated⟩ := inductionHypothesis later
        exact ⟨second, List.mem_cons_of_mem _ among, isRelated⟩

namespace SaidIn

variable {invocation : Invocation} {withTheme : Bool} {parts : List Part}
  {occurrences : List Occurrence} (covers : invocation.SaidIn withTheme parts occurrences)
include covers

theorem map_place_eq : occurrences.map Occurrence.place = parts.map Part.place := by
  have said := covers.said
  clear covers
  induction said with
  | nil => rfl
  | cons first _ inductionHypothesis =>
      rw [List.map_cons, List.map_cons, first.place_eq, inductionHypothesis]

/-- Every part is said. -/
theorem exists_mem_of_mem {part : Part} (member : part ∈ parts) :
    ∃ occurrence ∈ occurrences, part.SaidAs occurrence :=
  exists_mem_of_forall₂ covers.said member

/-- Whatever is said is a part. -/
theorem exists_part_of_mem {occurrence : Occurrence} (member : occurrence ∈ occurrences) :
    ∃ part ∈ parts, part.SaidAs occurrence := by
  have said : List.Forall₂ (flip Part.SaidAs) occurrences parts := covers.said.flip
  exact exists_mem_of_forall₂ said member

theorem mem_file_iff {path : FilePath} : .file path ∈ occurrences ↔ path = invocation.file := by
  constructor
  · intro member
    obtain ⟨part, among, said⟩ := covers.exists_part_of_mem member
    cases said
    rcases List.mem_cons.mp (covers.order.mem_iff.mp among) with same | isOption
    · exact Part.file.inj same
    · exact absurd isOption file_notMem_options
  · rintro rfl
    obtain ⟨occurrence, member, said⟩ :=
      covers.exists_mem_of_mem (covers.order.mem_iff.mpr List.mem_cons_self)
    cases said with
    | file => exact member
    | option has => cases has

theorem mem_ofValue_iff {which : ValueOption} {value : Value which} :
    Part.ofValue which value ∈ parts ↔
      Part.ofValue which value ∈ invocation.options withTheme := by
  rw [covers.order.mem_iff, List.mem_cons, or_iff_right]
  intro isFile
  cases which <;> cases isFile

theorem mem_flag_iff {which : Flag} :
    .flag which ∈ occurrences ↔ invocation.sets which = true := by
  rw [← @mem_options_flag invocation withTheme]
  constructor
  · intro member
    obtain ⟨part, among, said⟩ := covers.exists_part_of_mem member
    cases said
    rcases List.mem_cons.mp (covers.order.mem_iff.mp among) with same | isOption
    · cases same
    · exact isOption
  · intro isOption
    obtain ⟨occurrence, member, said⟩ :=
      covers.exists_mem_of_mem (covers.order.mem_iff.mpr (List.mem_cons_of_mem _ isOption))
    cases said with
    | flag => exact member
    | option has => cases has

section Values

variable (proper : invocation.Proper)
include proper

theorem proper_of_mem {part : Part} (member : part ∈ parts) : part.Proper :=
  proper.parts part (covers.order.mem_iff.mp member)

/-- What is said of a proper invocation can be admitted. -/
theorem admits : command.Admits occurrences where
  once := by
    rw [covers.map_place_eq]
    exact (covers.order.map Part.place).nodup_iff.mpr (nodup_map_place_parts invocation withTheme)
  hasFile := ⟨invocation.file, covers.mem_file_iff.mpr rfl⟩
  readable_file := by
    intro bytes member
    have same := covers.mem_file_iff.mp member
    exact ⟨bytes, same ▸ proper.file_ne_nil, rfl⟩
  readable := by
    intro which bytes member
    obtain ⟨part, among, said⟩ := covers.exists_part_of_mem member
    obtain ⟨value, _, reads⟩ := said.exists_ofValue (covers.proper_of_mem proper among)
    exact ⟨value, reads⟩
  standard_readable := by
    intro which text isStandard
    cases which with
    | theme =>
        cases isStandard
        exact ⟨.standard, Theme.standard.name, rfl, Part.readTheme_of_mem List.mem_cons_self⟩
    | _ => cases isStandard
  required := by
    intro which member needed isRequired
    cases which with
    | fragment =>
        cases List.mem_singleton.mp isRequired
        exact covers.mem_flag_iff.mpr (proper.html_of_fragment (covers.mem_flag_iff.mp member))
    | _ => cases isRequired

variable {found : ArgumentMatches command} (reports : found.Reports occurrences)
include reports

/-- A value that is a part is found. -/
theorem value_of_mem {which : ValueOption} {value : Value which}
    (member : Part.ofValue which value ∈ parts) : found.value which = some value := by
  obtain ⟨occurrence, isSaid, said⟩ := covers.exists_mem_of_mem member
  obtain ⟨bytes, rfl⟩ := said.exists_of_ofValue
  obtain ⟨same, isSame, reads⟩ := said.exists_ofValue (covers.proper_of_mem proper member)
  obtain ⟨other, otherReads, isFound⟩ := reports.given which bytes isSaid
  rw [isFound, Part.ofValue_injective isSame, reads.unique otherReads]

/-- What is found of an option is the value that is a part, or else that of its standard text. -/
theorem value_iff (which : ValueOption) (value : Value which) :
    found.value which = some value ↔ Part.ofValue which value ∈ parts ∨
      (∀ other, Part.ofValue which other ∉ parts) ∧
        ∃ text, (command.option which).standard = some text ∧
          (command.option which).reader.Reads (Utf8.encode text) value := by
  by_cases isGiven : ∃ given, Part.ofValue which given ∈ parts
  · obtain ⟨given, member⟩ := isGiven
    constructor
    · intro isFound
      have same := (covers.value_of_mem proper reports member).symm.trans isFound
      exact .inl (Option.some.inj same ▸ member)
    · rintro (among | ⟨nothing, _⟩)
      · exact covers.value_of_mem proper reports among
      · exact absurd member (nothing given)
  · have nothing : ∀ other, Part.ofValue which other ∉ parts := not_exists.mp isGiven
    have unsaid : ∀ bytes, .option which bytes ∉ occurrences := by
      intro bytes member
      obtain ⟨part, among, said⟩ := covers.exists_part_of_mem member
      obtain ⟨other, same, _⟩ := said.exists_ofValue (covers.proper_of_mem proper among)
      exact nothing other (same ▸ among)
    rw [reports.standard which unsaid, or_iff_right (nothing value), and_iff_right nothing]

/-- An option without a standard text has the value that is a part of the invocation, if any. -/
theorem value_eq {which : ValueOption} {value : Option (Value which)}
    (noStandard : (command.option which).standard = none)
    (isPart : ∀ other, Part.ofValue which other ∈ invocation.options withTheme ↔
      value = some other) : found.value which = value := by
  apply Option.ext
  intro other
  rw [covers.value_iff proper reports, covers.mem_ofValue_iff, isPart, noStandard]
  simp

theorem theme_eq : found.value .theme = some invocation.theme := by
  rw [covers.value_iff proper reports, covers.mem_ofValue_iff]
  cases given : withTheme with
  | true => exact .inl (mem_options_theme.mpr ⟨rfl, rfl⟩)
  | false =>
      have standard := covers.omitted given
      refine .inr ⟨?_, Theme.standard.name, rfl, Theme.standard.name, rfl, ?_⟩
      · intro other member
        rw [covers.mem_ofValue_iff, given] at member
        exact Bool.noConfusion (mem_options_theme.mp member).1
      · rw [standard]
        exact Part.readTheme_of_mem List.mem_cons_self

/-- What is asked for by what is found is the invocation. -/
theorem ofMatches_eq : ofMatches found = .ok invocation := by
  obtain ⟨bytes, isSaid, _, isPath⟩ := reports.file
  have file : found.file = invocation.file := isPath.trans (covers.mem_file_iff.mp isSaid)
  have query : found.value .query = invocation.query :=
    covers.value_eq proper reports rfl fun _ => mem_options_query
  have language : found.value .language = invocation.language :=
    covers.value_eq proper reports rfl fun _ => mem_options_language
  have output : found.value .output = invocation.output :=
    covers.value_eq proper reports rfl fun _ => mem_options_output
  have sets : ∀ which, found.sets which = invocation.sets which := by
    intro which
    rw [Bool.eq_iff_iff, reports.sets_iff, covers.mem_flag_iff]
  simp only [ofMatches, covers.theme_eq proper reports, file, query, language, output, sets,
    Invocation.sets]

end Values

end SaidIn

/-! ### Parsing -/

section Parsing

variable {parser : ArgumentParser} (documented : parser.Documented command)
include documented

/-- A proper invocation is read from the arguments that spell it. -/
theorem parse_of_spelledBy {invocation : Invocation} (proper : invocation.Proper)
    {arguments : List Bytes} (spelled : invocation.SpelledBy arguments) :
    parse parser arguments = .ok invocation := by
  obtain ⟨_, _, _, covers, spells⟩ := exists_spells_of_spelledBy spelled
  obtain ⟨found, parsed, reports⟩ := documented.accepts spells (covers.admits proper)
  exact bind_eq_ok_iff.mpr ⟨found, parsed, covers.ofMatches_eq proper reports⟩

/-- Whatever the arguments are, what is read from them is proper. -/
theorem proper_of_parse {invocation : Invocation} {arguments : List Bytes}
    (read : parse parser arguments = .ok invocation) : invocation.Proper := by
  obtain ⟨found, parsed, asked⟩ := bind_eq_ok_iff.mp read
  have checked := documented.checks parsed
  rw [ofMatches] at asked
  split at asked
  · cases asked
  · rename_i theme isTheme
    cases asked
    refine ⟨?_, ?_, ?_, ?_, ?_⟩
    · obtain ⟨bytes, nonempty, same⟩ := checked.read_file
      exact same ▸ nonempty
    · intro empty
      obtain ⟨bytes, nonempty, same⟩ := checked.read .query [] empty
      exact nonempty same.symm
    · intro empty
      obtain ⟨bytes, nonempty, same⟩ := checked.read .output [] empty
      exact nonempty same.symm
    · obtain ⟨_, name, _, isRead⟩ := checked.read .theme theme isTheme
      exact Part.mem_builtin_of_readTheme isRead
    · intro isFragment
      exact checked.required .fragment isFragment .html List.mem_cons_self

/-- What can be asked for at all is what is proper. -/
theorem exists_parse_eq_iff {invocation : Invocation} :
    (∃ arguments, parse parser arguments = .ok invocation) ↔ invocation.Proper := by
  constructor
  · rintro ⟨arguments, read⟩
    exact proper_of_parse documented read
  · intro proper
    obtain ⟨arguments, spelled⟩ := invocation.exists_spelledBy
    exact ⟨arguments, parse_of_spelledBy documented proper spelled⟩

end Parsing

/-- Arguments that spell a proper invocation are read as it, whatever the order and form of its
parts.  And whatever the arguments are, what is read from them is proper: it has a file, and it is
for a fragment only if it is for a page.  Any parser that does what is documented will do. -/
theorem parse_spelled {parser : ArgumentParser} (documented : parser.Documented command)
    (invocation : Invocation) :
    (invocation.Proper → ∀ arguments, invocation.SpelledBy arguments →
        parse parser arguments = .ok invocation) ∧
      ∀ arguments, parse parser arguments = .ok invocation → invocation.Proper :=
  ⟨fun proper _ spelled => parse_of_spelledBy documented proper spelled,
    fun _ read => proper_of_parse documented read⟩

/-- Paths that begin like an option and are not UTF-8, among flags and options in several forms. -/
theorem parse_spelled_dashed_paths :
    let invocation : Invocation := {
      file := [dash, 0xFF]
      query := some [dash, 0xFE]
      theme := .nord
      language := some .cpp
      output := some (Utf8.encode "page")
      html := true
      fragment := true
      lineNumbers := true
      verbose := false }
    let arguments : List Bytes :=
      [Utf8.encode "-n", Utf8.encode "--query=" ++ [dash, 0xFE], Utf8.encode "--fragment",
        Utf8.encode "-l", Utf8.encode "C++", Utf8.encode "--html", Utf8.encode "--theme",
        Utf8.encode "nord", Utf8.encode "-o", Utf8.encode "page", Utf8.encode "--", [dash, 0xFF]]
    CommandLine.parser.Documented command ∧ invocation.Proper ∧ invocation.SpelledBy arguments ∧
      parse CommandLine.parser arguments = .ok invocation := by
  intro invocation arguments
  have proper : invocation.Proper := {
    file_ne_nil := by decide
    query_ne_nil := by decide
    output_ne_nil := by decide
    theme_mem := by decide +kernel
    html_of_fragment := fun _ => rfl }
  have called : Language.ofName? "C++" = some .cpp := by decide +kernel
  let parts : List Part :=
    [.flag .lineNumbers, .query [dash, 0xFE], .flag .fragment, .language .cpp, .flag .html,
      .theme .nord, .output (Utf8.encode "page")]
  have order : parts.Perm (invocation.options true) := by decide
  have written : List.Forall₂ Part.WrittenAs parts
      [[shortArgument 'n'], [Utf8.encode "--query=" ++ [dash, 0xFE]],
        [longArgument "fragment"], [shortArgument 'l', Utf8.encode "C++"],
        [longArgument "html"], [longArgument "theme", Utf8.encode "nord"],
        [shortArgument 'o', Utf8.encode "page"]] :=
    .cons (.shortFlag rfl)
      (.cons (.attached (.query [dash, 0xFE]))
        (.cons (.longFlag .fragment)
          (.cons (.afterShort (.language called) (by decide))
            (.cons (.longFlag .html)
              (.cons (.afterLong (.theme .nord) (by decide))
                (.cons (.afterShort (.output _) (by decide)) .nil))))))
  have spelled : invocation.SpelledBy arguments :=
    .fileLast Bool.noConfusion order written
  have documented := parser_documented command_wellNamed
  exact ⟨documented, proper, spelled,
    (parse_spelled documented invocation).1 proper arguments spelled⟩

end Invocation

end CodeHighlight
