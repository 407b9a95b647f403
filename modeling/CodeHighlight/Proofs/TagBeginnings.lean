/-
Module: CodeHighlight.Proofs.TagBeginnings
Purpose: What a capture tag stands for.  A tag stands for what the longest known tag stands for
  that it is or goes on from with a dot.  In terms of the segments between the dots, a tag begins
  with the segments of that one; since no known tag has more than two segments, only the first two
  segments of a tag matter.
Main exports:
  Tag.Begins, Tag.segments_isPrefix_iff, Tag.parent?_cases, Tag.begins_iff_of_parent?,
  Tag.LongestKnown, Tag.classifyCharacters_cases, Tag.classify_eq_some_iff,
  Tag.isSome_classify_iff, Tag.segments, Tag.firstSegment, Tag.roots,
  Tag.begins_iff_isPrefix_take, Tag.classify_eq_of_take_segments_eq, Tag.classes_differ_iff,
  Tag.classify_longest
-/
import CodeHighlight.Tag
import Mathlib.Data.List.TakeWhile

namespace CodeHighlight.Tag

/-- Whether a name is another one, or goes on from it with a dot. -/
def Begins (beginning name : List Char) : Prop :=
  name = beginning ∨ beginning ++ ['.'] <+: name

/-! ### Segments

A name is determined by its segments.  Its beginnings are the names with the first few of them, and
its parent has all of them but the last.
-/

theorem segments_injective {first second : List Char}
    (same : first.splitOn '.' = second.splitOn '.') : first = second := by
  have joined := congrArg ['.'].intercalate same
  rw [List.intercalate_splitOn, List.intercalate_splitOn] at joined
  exact joined

theorem intercalate_append {first second : List (List Char)} (firstNonempty : first ≠ [])
    (secondNonempty : second ≠ []) :
    ['.'].intercalate (first ++ second) =
      ['.'].intercalate first ++ '.' :: ['.'].intercalate second := by
  induction first with
  | nil => exact absurd rfl firstNonempty
  | cons segment rest inductionHypothesis =>
      cases rest with
      | nil =>
          rw [List.singleton_append, List.intercalate_cons_of_ne_nil secondNonempty,
            List.intercalate_singleton, List.append_assoc]
          rfl
      | cons next others =>
          have follows := inductionHypothesis (List.cons_ne_nil next others)
          rw [List.cons_append, List.intercalate_cons_of_ne_nil (by simp), follows,
            List.intercalate_cons_of_ne_nil (List.cons_ne_nil next others)]
          simp only [List.append_assoc]

/-- A name begins another one exactly if its segments are the first ones of the other. -/
theorem segments_isPrefix_iff {beginning name : List Char} :
    beginning.splitOn '.' <+: name.splitOn '.' ↔ Begins beginning name := by
  constructor
  · rintro ⟨others, cut⟩
    by_cases whole : others = []
    · rw [whole, List.append_nil] at cut
      exact Or.inl (segments_injective cut).symm
    · apply Or.inr
      have joined := intercalate_append (List.splitOn_ne_nil '.' beginning) whole
      rw [cut, List.intercalate_splitOn, List.intercalate_splitOn] at joined
      exact ⟨['.'].intercalate others, by rw [joined, List.append_assoc]; rfl⟩
  · rintro (same | ⟨others, cut⟩)
    · exact same ▸ List.prefix_rfl
    · rw [← cut, List.append_assoc, List.singleton_append, List.splitOn_append_cons_self]
      exact List.prefix_append _ _

theorem Begins.refl (name : List Char) : Begins name name :=
  Or.inl rfl

theorem Begins.trans {first second third : List Char} (one : Begins first second)
    (two : Begins second third) : Begins first third := by
  rw [← segments_isPrefix_iff] at one two ⊢
  exact one.trans two

theorem Begins.isPrefix {beginning name : List Char} (begins : Begins beginning name) :
    beginning <+: name := by
  rcases begins with same | ⟨others, cut⟩
  · exact same ▸ List.prefix_rfl
  · exact ⟨'.' :: others, by rw [← cut, List.append_assoc]; rfl⟩

/-- A name without a dot, or what stands before its first dot and what stands after it. -/
theorem first_dot_cases (name : List Char) :
    name.dropWhile (· != '.') = [] ∧ name.takeWhile (· != '.') = name ∨
      ∃ rest, name.dropWhile (· != '.') = '.' :: rest ∧
        name.takeWhile (· != '.') ++ '.' :: rest = name := by
  have cut := List.takeWhile_append_dropWhile (p := (· != '.')) (l := name)
  cases found : name.dropWhile (· != '.') with
  | nil =>
      rw [found, List.append_nil] at cut
      exact Or.inl ⟨rfl, cut⟩
  | cons dot rest =>
      have isDot : dot = '.' := by
        have stopped := List.head_dropWhile_not (· != '.') (l := name) (by simp [found])
        simpa [found] using stopped
      rw [found, isDot] at cut
      exact Or.inr ⟨rest, by rw [isDot], cut⟩

theorem dot_notMem_takeWhile (name : List Char) : '.' ∉ name.takeWhile (· != '.') := by
  intro member
  have kept := List.mem_takeWhile_imp member
  simp at kept

/-- The parent of a name is what stands before its last dot. -/
theorem parent?_cases (name : List Char) :
    parent? name = none ∧ '.' ∉ name ∨
      ∃ shorter last, parent? name = some shorter ∧ '.' ∉ last ∧
        name = shorter ++ '.' :: last := by
  have noDot := dot_notMem_takeWhile name.reverse
  rcases first_dot_cases name.reverse with ⟨found, whole⟩ | ⟨shorter, found, cut⟩
  · rw [whole, List.mem_reverse] at noDot
    exact Or.inl ⟨by simp [parent?, found], noDot⟩
  · refine Or.inr ⟨shorter.reverse, (name.reverse.takeWhile (· != '.')).reverse,
      by simp [parent?, found], by rwa [List.mem_reverse], ?_⟩
    have turned := congrArg List.reverse cut
    rw [List.reverse_reverse, List.reverse_append, List.reverse_cons, List.append_assoc,
      List.singleton_append] at turned
    exact turned.symm

theorem begins_iff_of_parent?_none {beginning name : List Char} (noParent : parent? name = none) :
    Begins beginning name ↔ beginning = name := by
  rcases parent?_cases name with ⟨_, noDot⟩ | ⟨shorter, last, isParent, _, _⟩
  · constructor
    · rintro (same | ⟨others, cut⟩)
      · exact same.symm
      · rw [← cut] at noDot
        simp at noDot
    · intro same
      rw [same]
      exact Begins.refl name
  · rw [noParent] at isParent
    cases isParent

/-- What begins a name is the name itself or begins its parent. -/
theorem begins_iff_of_parent? {beginning name shorter : List Char}
    (isParent : parent? name = some shorter) :
    Begins beginning name ↔ beginning = name ∨ Begins beginning shorter := by
  rcases parent?_cases name with ⟨noParent, _⟩ | ⟨other, last, found, noDot, cut⟩
  · rw [noParent] at isParent
    cases isParent
  · have same : other = shorter := Option.some.inj (found.symm.trans isParent)
    have segments : name.splitOn '.' = shorter.splitOn '.' ++ [last] := by
      rw [cut, same, List.splitOn_append_cons_self, List.splitOn_eq_singleton noDot]
    rw [← segments_isPrefix_iff, ← segments_isPrefix_iff, segments, List.prefix_concat_iff,
      ← segments]
    exact or_congr_left ⟨segments_injective, congrArg _⟩

/-! ### The longest known beginning -/

/-- A known tag that begins another one, and no longer known tag does. -/
structure LongestKnown (tag beginning : Tag) (classes : TagClasses) : Prop where
  known : (beginning, classes) ∈ knownTags
  begins : Begins beginning.toList tag.toList
  longest : ∀ other ∈ knownTags, Begins other.1.toList tag.toList →
    other.1.length ≤ beginning.length

/-- No tag is in the table twice. -/
theorem lookup_of_mem_knownTags : ∀ known ∈ knownTags, knownTags.lookup known.1 = some known.2 := by
  decide

theorem known?_eq_some_iff {name : List Char} {classes : TagClasses} :
    known? name = some classes ↔ (String.ofList name, classes) ∈ knownTags := by
  constructor
  · intro found
    obtain ⟨before, after, cut, _⟩ := List.lookup_eq_some_iff.mp found
    rw [cut]
    exact List.mem_append_right before List.mem_cons_self
  · exact lookup_of_mem_knownTags _

theorem classifyCharacters_eq (name : List Char) :
    classifyCharacters name = (known? name).or ((parent? name).bind classifyCharacters) := by
  rw [classifyCharacters]
  cases known? name with
  | some classes => rfl
  | none =>
      simp only [Option.none_or]
      split
      · rename_i noParent
        rw [noParent]
        rfl
      · rename_i shorter isParent
        rw [isParent]
        rfl

/-- The search for a known name goes from a name to its parent.  What it finds is the longest
beginning, since all that begins the parent is shorter than the name. -/
theorem classifyCharacters_cases (name : List Char) :
    (classifyCharacters name = none ∧
        ∀ other, (known? other).isSome → ¬ Begins other name) ∨
      ∃ beginning classes, classifyCharacters name = some classes ∧
        known? beginning = some classes ∧ Begins beginning name ∧
        ∀ other, (known? other).isSome → Begins other name →
          other.length ≤ beginning.length := by
  induction name using classifyCharacters.induct with
  | case1 name own isKnown =>
      refine Or.inr ⟨name, own, ?_, isKnown, Begins.refl name, ?_⟩
      · rw [classifyCharacters_eq, isKnown, Option.some_or]
      · intro other _ begins
        exact begins.isPrefix.length_le
  | case2 name unknown noParent =>
      refine Or.inl ⟨?_, ?_⟩
      · rw [classifyCharacters_eq, unknown, noParent]
        rfl
      · intro other isKnown begins
        rw [(begins_iff_of_parent?_none noParent).mp begins, unknown] at isKnown
        cases isKnown
  | case3 name unknown shorter isParent inductionHypothesis =>
      have next : classifyCharacters name = classifyCharacters shorter := by
        rw [classifyCharacters_eq, unknown, isParent]
        rfl
      have inParent : ∀ other, (known? other).isSome → Begins other name →
          Begins other shorter := by
        intro other isKnown begins
        rcases (begins_iff_of_parent? isParent).mp begins with same | inShorter
        · rw [same, unknown] at isKnown
          cases isKnown
        · exact inShorter
      rw [next]
      rcases inductionHypothesis with ⟨missing, noneBegins⟩ |
        ⟨beginning, classes, found, isKnown, begins, longest⟩
      · exact Or.inl ⟨missing, fun other otherKnown otherBegins =>
          noneBegins other otherKnown (inParent other otherKnown otherBegins)⟩
      · exact Or.inr ⟨beginning, classes, found, isKnown,
          (begins_iff_of_parent? isParent).mpr (Or.inr begins),
          fun other otherKnown otherBegins =>
            longest other otherKnown (inParent other otherKnown otherBegins)⟩

/-- Tags that go on from the same known tags have the same longest one. -/
theorem LongestKnown.transfer {first second beginning : Tag} {classes : TagClasses}
    (same : ∀ known ∈ knownTags,
      (Begins known.1.toList first.toList ↔ Begins known.1.toList second.toList))
    (longest : LongestKnown first beginning classes) :
    LongestKnown second beginning classes where
  known := longest.known
  begins := (same _ longest.known).mp longest.begins
  longest := fun other member begins =>
    longest.longest other member ((same other member).mpr begins)

theorem LongestKnown.unique {tag first second : Tag} {firstClasses secondClasses : TagClasses}
    (one : LongestKnown tag first firstClasses) (two : LongestKnown tag second secondClasses) :
    firstClasses = secondClasses := by
  have shorter : first.toList.length ≤ second.toList.length := by
    rw [String.length_toList, String.length_toList]
    exact two.longest (first, firstClasses) one.known one.begins
  have longer : second.toList.length ≤ first.toList.length := by
    rw [String.length_toList, String.length_toList]
    exact one.longest (second, secondClasses) two.known two.begins
  have inside : first.toList <+: second.toList :=
    List.prefix_of_prefix_length_le one.begins.isPrefix two.begins.isPrefix shorter
  have same : first = second := String.toList_inj.mp (inside.eq_of_length_le longer)
  have found := lookup_of_mem_knownTags _ one.known
  rw [same, lookup_of_mem_knownTags _ two.known] at found
  exact (Option.some.inj found).symm

theorem isSome_known?_of_mem {known : Tag × TagClasses} (member : known ∈ knownTags) :
    (known? known.1.toList).isSome := by
  rw [known?, String.ofList_toList, lookup_of_mem_knownTags known member]
  rfl

theorem classify_cases (tag : Tag) :
    (classify tag = none ∧ ∀ known ∈ knownTags, ¬ Begins known.1.toList tag.toList) ∨
      ∃ beginning classes, classify tag = some classes ∧ LongestKnown tag beginning classes := by
  rcases classifyCharacters_cases tag.toList with ⟨missing, noneBegins⟩ |
    ⟨beginning, classes, found, isKnown, begins, longest⟩
  · exact Or.inl ⟨missing, fun known member => noneBegins _ (isSome_known?_of_mem member)⟩
  · refine Or.inr ⟨String.ofList beginning, classes, found, known?_eq_some_iff.mp isKnown, ?_, ?_⟩
    · rw [String.toList_ofList]
      exact begins
    · intro other member otherBegins
      rw [← String.length_toList, ← String.length_toList, String.toList_ofList]
      exact longest _ (isSome_known?_of_mem member) otherBegins

theorem classify_eq_some_iff {tag : Tag} {classes : TagClasses} :
    classify tag = some classes ↔ ∃ beginning, LongestKnown tag beginning classes := by
  rcases classify_cases tag with ⟨missing, noneBegins⟩ | ⟨beginning, own, found, isLongest⟩
  · rw [missing]
    constructor
    · intro impossible
      cases impossible
    · rintro ⟨beginning, isLongest⟩
      exact absurd isLongest.begins (noneBegins _ isLongest.known)
  · rw [found]
    constructor
    · intro same
      cases same
      exact ⟨beginning, isLongest⟩
    · rintro ⟨other, otherLongest⟩
      rw [isLongest.unique otherLongest]

theorem isSome_classify_iff {tag : Tag} :
    (classify tag).isSome ↔ ∃ known ∈ knownTags, Begins known.1.toList tag.toList := by
  rcases classify_cases tag with ⟨missing, noneBegins⟩ | ⟨beginning, own, found, isLongest⟩
  · rw [missing]
    constructor
    · intro impossible
      cases impossible
    · rintro ⟨known, member, begins⟩
      exact absurd begins (noneBegins known member)
  · rw [found]
    exact ⟨fun _ => ⟨_, isLongest.known, isLongest.begins⟩, fun _ => rfl⟩

theorem classify_of_mem_knownTags {known : Tag × TagClasses} (member : known ∈ knownTags) :
    classify known.1 = some known.2 := by
  rw [classify, classifyCharacters_eq, known?, String.ofList_toList,
    lookup_of_mem_knownTags known member, Option.some_or]

/-! ### The first two segments -/

/-- The parts of a tag between its dots. -/
def segments (tag : Tag) : List String :=
  (tag.toList.splitOn '.').map String.ofList

/-- What stands before the first dot of a tag: all of it when there is none. -/
def firstSegment (tag : Tag) : String :=
  String.ofList (tag.toList.takeWhile (· != '.'))

/-- The first segments of the known tags, all of them known themselves. -/
def roots : List String :=
  ["function", "string", "comment", "keyword", "type", "variable", "constant", "literal", "number"]

theorem firstSegment_of_begins {beginning tag : Tag}
    (begins : Begins beginning.toList tag.toList) :
    firstSegment tag = firstSegment beginning := by
  unfold firstSegment
  rcases begins with same | ⟨others, cut⟩
  · rw [same]
  · rw [← cut, List.append_assoc, List.takeWhile_append]
    split
    · rename_i whole
      rw [(List.takeWhile_prefix _).eq_of_length whole]
      simp
    · rfl

theorem begins_firstSegment (tag : Tag) : Begins (firstSegment tag).toList tag.toList := by
  rw [firstSegment, String.toList_ofList]
  rcases first_dot_cases tag.toList with ⟨_, whole⟩ | ⟨rest, _, cut⟩
  · exact Or.inl whole.symm
  · exact Or.inr ⟨rest, by rw [List.append_assoc]; exact cut⟩

theorem isSome_classify_iff_firstSegment {tag : Tag} :
    (classify tag).isSome ↔ firstSegment tag ∈ roots := by
  have rooted : ∀ known ∈ knownTags, firstSegment known.1 ∈ roots := by decide
  have known : ∀ root ∈ roots, ∃ known ∈ knownTags, known.1 = root := by decide
  rw [isSome_classify_iff]
  constructor
  · rintro ⟨beginning, member, begins⟩
    rw [firstSegment_of_begins begins]
    exact rooted beginning member
  · intro isRoot
    obtain ⟨beginning, member, same⟩ := known _ isRoot
    refine ⟨beginning, member, ?_⟩
    rw [same]
    exact begins_firstSegment tag

/-- A known tag begins another tag exactly if its segments are the first ones among the first two
segments of that tag. -/
theorem begins_iff_isPrefix_take {known : Tag × TagClasses} (member : known ∈ knownTags)
    (tag : Tag) :
    Begins known.1.toList tag.toList ↔ segments known.1 <+: (segments tag).take 2 := by
  have few : ∀ known ∈ knownTags, (segments known.1).length ≤ 2 := by decide
  have injective : Function.Injective String.ofList := fun _ _ => String.ofList_injective
  rw [List.prefix_take_iff, and_iff_left (few known member), ← segments_isPrefix_iff, segments,
    segments, List.prefix_map_iff_of_injective injective]

/-- Tags with the same first two segments go on from the same known tags. -/
theorem classify_eq_of_take_segments_eq {first second : Tag}
    (same : (segments first).take 2 = (segments second).take 2) :
    classify first = classify second := by
  have begins : ∀ known ∈ knownTags,
      (Begins known.1.toList first.toList ↔ Begins known.1.toList second.toList) := by
    intro known member
    rw [begins_iff_isPrefix_take member, begins_iff_isPrefix_take member, same]
  apply Option.ext
  intro classes
  rw [classify_eq_some_iff, classify_eq_some_iff]
  exact exists_congr fun beginning =>
    ⟨LongestKnown.transfer begins,
      LongestKnown.transfer fun known member => (begins known member).symm⟩

/-- Only the types among the keywords have different classes. -/
theorem classes_differ_iff {tag : Tag} :
    (∃ classes, classify tag = some classes ∧ classes.terminal ≠ classes.markup) ↔
      (segments tag).take 2 = ["keyword", "type"] := by
  have onlyTypes : ∀ known ∈ knownTags, known.2.terminal ≠ known.2.markup →
      segments known.1 = ["keyword", "type"] := by
    decide
  constructor
  · rintro ⟨classes, found, differ⟩
    obtain ⟨beginning, longest⟩ := classify_eq_some_iff.mp found
    have inside := (begins_iff_isPrefix_take longest.known tag).mp longest.begins
    rw [onlyTypes _ longest.known differ] at inside
    exact (inside.eq_of_length_le (List.length_take_le 2 _)).symm
  · intro cut
    have isType : ("keyword.type", TagClasses.mk .keyword .type) ∈ knownTags := by decide
    have same : (segments tag).take 2 = (segments "keyword.type").take 2 := by
      rw [cut]
      decide
    refine ⟨TagClasses.mk .keyword .type, ?_, by decide⟩
    rw [classify_eq_of_take_segments_eq same]
    exact classify_of_mem_knownTags isType

/-- A tag stands for what the longest known tag stands for that it is or goes on from with a dot,
and for nothing when there is none.  So it stands for something exactly if its first segment is
known; what it is depends on the first two segments alone; going on with a dot keeps it from
standing for nothing; and its classes differ between the outputs exactly if it begins with
`keyword.type`. -/
theorem classify_longest (tag : Tag) :
    (∀ classes, classify tag = some classes ↔ ∃ beginning, LongestKnown tag beginning classes) ∧
      (classify tag = none ↔ ∀ known ∈ knownTags, ¬ Begins known.1.toList tag.toList) ∧
      ((classify tag).isSome ↔ firstSegment tag ∈ roots) ∧
      (∀ other, (segments other).take 2 = (segments tag).take 2 →
        classify other = classify tag) ∧
      (∀ rest, (classify tag).isSome → (classify (tag ++ "." ++ rest)).isSome) ∧
      ((∃ classes, classify tag = some classes ∧ classes.terminal ≠ classes.markup) ↔
        (segments tag).take 2 = ["keyword", "type"]) := by
  refine ⟨fun classes => classify_eq_some_iff, ?_, isSome_classify_iff_firstSegment,
    fun other => classify_eq_of_take_segments_eq, ?_, classes_differ_iff⟩
  · rw [← Option.not_isSome_iff_eq_none, isSome_classify_iff]
    simp only [not_exists, not_and]
  · intro rest found
    obtain ⟨known, member, begins⟩ := isSome_classify_iff.mp found
    have goesOn : Begins tag.toList (tag ++ "." ++ rest).toList := by
      rw [String.toList_append, String.toList_append]
      exact Or.inr (List.prefix_append _ _)
    exact isSome_classify_iff.mpr ⟨known, member, begins.trans goesOn⟩

/-- Dots without anything between them are segments like any other. -/
example : segments "keyword..type." = ["keyword", "", "type", ""] := by decide

end CodeHighlight.Tag
