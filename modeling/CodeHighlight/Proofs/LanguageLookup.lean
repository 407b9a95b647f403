/-
Module: CodeHighlight.Proofs.LanguageLookup
Purpose: How names and extensions lead to languages.  The tables of names and of extensions agree:
  every extension is one language's, and it is that language's name too.  White space around a name
  and the case of its ASCII letters do not matter, nor does it matter how characters beyond ASCII
  are lowered.
Main exports:
  SameButCase, trim_append, Language.ofExtension?_eq_some_iff, Language.ofName?_eq_of_sameButCase,
  Language.Lowering, Language.ofCalled?_eq_none, Language.ofCalled?_lowering,
  Language.lookups_agree
-/
import CodeHighlight.Language
import Mathlib.Data.List.TakeWhile

namespace CodeHighlight

/-! ### Texts that differ in letter case -/

/-- Whether two texts differ in the case of ASCII letters at most. -/
def SameButCase (first second : List Char) : Prop :=
  first.map Char.toLower = second.map Char.toLower

theorem sameButCase_lower (text : List Char) : SameButCase (text.map Char.toLower) text := by
  rw [SameButCase, List.map_map]
  exact List.map_congr_left fun character _ => toLower_toLower character

theorem sameButCase_cons {character : Char} {first second : List Char}
    (same : SameButCase first second) :
    SameButCase (character :: first) (character :: second) :=
  congrArg (character.toLower :: ·) same

/-! ### White space around a text -/

theorem isBlank_toLower (character : Char) : isBlank character.toLower = isBlank character := by
  have letters : ∀ letter : Char, 0x41 ≤ letter.toNat → letter.toNat ≤ 0x7A →
      isBlank letter = false := by
    intro letter lower upper
    have apart : ∀ range ∈ blankRanges, range.2 < 0x41 ∨ 0x7A < range.1 := by decide
    rw [isBlank, List.any_eq_false]
    rintro ⟨first, last⟩ member
    have outside := apart _ member
    simp only [Bool.and_eq_true, decide_eq_true_eq]
    omega
  rcases toLower_cases character with same | ⟨lower, upper, small⟩
  · rw [same]
  · rw [letters character lower (by omega), letters character.toLower (by omega) (by omega)]

theorem trim_lower (text : List Char) :
    trim (text.map Char.toLower) = (trim text).map Char.toLower := by
  have seen : isBlank ∘ Char.toLower = isBlank := funext isBlank_toLower
  simp only [trim, List.dropWhile_map, seen, ← List.map_reverse]

/-- White space at the two ends of a text does not change what is left without it. -/
theorem trim_append {before after : List Char} (text : List Char)
    (blankBefore : ∀ character ∈ before, isBlank character = true)
    (blankAfter : ∀ character ∈ after, isBlank character = true) :
    trim (before ++ text ++ after) = trim text := by
  have noneLeft : after.dropWhile isBlank = [] := List.dropWhile_eq_nil_iff.mpr blankAfter
  have blankTurned : ∀ character ∈ after.reverse, isBlank character = true :=
    fun character member => blankAfter character (List.mem_reverse.mp member)
  rw [trim, trim, List.append_assoc, List.dropWhile_append_of_pos blankBefore,
    List.dropWhile_append]
  split
  · rename_i allBlank
    rw [noneLeft, List.isEmpty_iff.mp allBlank]
  · rw [List.reverse_append, List.dropWhile_append_of_pos blankTurned]

namespace Language

/-! ### Extensions -/

theorem lower_of_mem_extensions {language : Language} {extension : String}
    (member : extension ∈ language.extensions) :
    extension.toList.map Char.toLower = extension.toList := by
  have all : ∀ language ∈ all, ∀ extension ∈ language.extensions,
      extension.toList.map Char.toLower = extension.toList := by
    decide +kernel
  exact all language (mem_all language) extension member

/-- No extension is listed for two languages. -/
theorem eq_of_mem_extensions {first second : Language} {extension : String}
    (one : extension ∈ first.extensions) (two : extension ∈ second.extensions) :
    first = second := by
  have unique : ∀ first ∈ all, ∀ second ∈ all, ∀ extension ∈ first.extensions,
      extension ∈ second.extensions → first = second := by
    decide +kernel
  exact unique first (mem_all first) second (mem_all second) extension one two

theorem contains_extensions_iff {language : Language} {bare : List Char} :
    language.extensions.contains (String.ofList (bare.map Char.toLower)) = true ↔
      ∃ extension ∈ language.extensions, SameButCase bare extension.toList := by
  rw [List.contains_iff_mem]
  constructor
  · intro member
    refine ⟨_, member, ?_⟩
    rw [String.toList_ofList]
    exact (sameButCase_lower bare).symm
  · rintro ⟨extension, member, same⟩
    have lowered : bare.map Char.toLower = extension.toList :=
      same.trans (lower_of_mem_extensions member)
    rwa [lowered, String.ofList_toList]

theorem contains_of_ofExtensionCharacters? {text : List Char} {language : Language}
    (found : ofExtensionCharacters? text = some language) :
    language.extensions.contains (String.ofList ((bareExtension text).map Char.toLower)) =
      true := by
  unfold ofExtensionCharacters? at found
  have holds := List.find?_some found
  exact holds

/-- A text leads to the language that has it, less a dot in front, among its extensions. -/
theorem ofExtensionCharacters?_eq_some_iff {text : List Char} {language : Language} :
    ofExtensionCharacters? text = some language ↔
      ∃ extension ∈ language.extensions, SameButCase (bareExtension text) extension.toList := by
  rw [← contains_extensions_iff]
  constructor
  · exact contains_of_ofExtensionCharacters?
  · intro contained
    have isFound : (ofExtensionCharacters? text).isSome = true :=
      List.find?_isSome.mpr ⟨language, mem_all language, contained⟩
    obtain ⟨other, found⟩ := Option.isSome_iff_exists.mp isFound
    have alsoContained := contains_of_ofExtensionCharacters? found
    rw [List.contains_iff_mem] at contained alsoContained
    rw [found, eq_of_mem_extensions alsoContained contained]

theorem ofExtension?_eq_some_iff {text : String} {language : Language} :
    ofExtension? text = some language ↔
      ∃ extension ∈ language.extensions,
        SameButCase (bareExtension text.toList) extension.toList :=
  ofExtensionCharacters?_eq_some_iff

/-! ### Names -/

/-- The case of ASCII letters does not matter in a name. -/
theorem ofName?_eq_of_sameButCase {first second : String}
    (same : SameButCase first.toList second.toList) : ofName? first = ofName? second := by
  have lowered : ∀ text : List Char,
      (trim text).map lowerLetter = (trim (text.map Char.toLower)).map lowerLetter := by
    intro text
    rw [trim_lower, List.map_map]
    exact List.map_congr_left fun character _ => (lowerLetter_toLower character).symm
  have sameLower : first.toList.map Char.toLower = second.toList.map Char.toLower := same
  rw [ofName?, ofName?, lowered, sameLower, ← lowered]

/-- White space around a name does not matter. -/
theorem ofName?_append {before after : String} (text : String)
    (blankBefore : ∀ character ∈ before.toList, isBlank character = true)
    (blankAfter : ∀ character ∈ after.toList, isBlank character = true) :
    ofName? (before ++ text ++ after) = ofName? text := by
  rw [ofName?, ofName?, String.toList_append, String.toList_append,
    trim_append text.toList blankBefore blankAfter]

/-- Every extension is a name of its language, with its dot and without. -/
theorem ofName?_of_mem_extensions {language : Language} {extension : String}
    (member : extension ∈ language.extensions) :
    ofName? extension = some language ∧ ofName? ("." ++ extension) = some language := by
  have named : ∀ language ∈ all, ∀ extension ∈ language.extensions,
      ofName? extension = some language ∧ ofName? ("." ++ extension) = some language := by
    decide +kernel
  exact named language (mem_all language) extension member

theorem bareExtension_cases (text : List Char) :
    text = bareExtension text ∨ text = '.' :: bareExtension text := by
  unfold bareExtension
  split
  · exact Or.inr rfl
  · exact Or.inl rfl

/-- What leads to a language as an extension leads to it as a name. -/
theorem ofName?_of_ofExtension? {text : String} {language : Language}
    (found : ofExtension? text = some language) : ofName? text = some language := by
  obtain ⟨extension, member, same⟩ := ofExtension?_eq_some_iff.mp found
  obtain ⟨named, namedDotted⟩ := ofName?_of_mem_extensions member
  rcases bareExtension_cases text.toList with bare | dotted
  · rw [← bare] at same
    rw [ofName?_eq_of_sameButCase same, named]
  · have sameDotted : SameButCase text.toList ("." ++ extension).toList := by
      rw [dotted, String.toList_append]
      exact sameButCase_cons same
    rw [ofName?_eq_of_sameButCase sameDotted, namedDotted]

/-- Names and extensions agree.  An extension leads to a language exactly if, less one dot in front,
it is among the extensions of that language up to the case of ASCII letters, and then it leads there
as a name too.  White space around a name and the case of its ASCII letters do not matter. -/
theorem lookups_agree (text : String) (language : Language) :
    (ofExtension? text = some language ↔
        ∃ extension ∈ language.extensions,
          SameButCase (bareExtension text.toList) extension.toList) ∧
      (ofExtension? text = some language → ofName? text = some language) ∧
      (∀ before after : String, (∀ character ∈ before.toList, isBlank character = true) →
        (∀ character ∈ after.toList, isBlank character = true) →
        ofName? (before ++ text ++ after) = ofName? text) ∧
      (∀ other : String, SameButCase other.toList text.toList → ofName? other = ofName? text) :=
  ⟨ofExtension?_eq_some_iff, ofName?_of_ofExtension?,
    fun _ _ blankBefore blankAfter => ofName?_append text blankBefore blankAfter,
    fun _ same => ofName?_eq_of_sameButCase same⟩

/-! ### Characters beyond ASCII -/

/-- A way to put texts into lower case, as far as names can tell: it goes letter by letter where
that leaves ASCII characters alone, and any other text keeps a character beyond ASCII. -/
structure Lowering (lowerCase : List Char → List Char) : Prop where
  letters : ∀ text, (∀ character ∈ text, (lowerLetter character).toNat < 0x80) →
    lowerCase text = text.map lowerLetter
  beyond : ∀ text, (∃ character ∈ text, 0x80 ≤ (lowerLetter character).toNat) →
    ∃ character ∈ lowerCase text, 0x80 ≤ character.toNat

/-- Going letter by letter is such a way. -/
theorem lowering_map : Lowering (List.map lowerLetter) where
  letters _ _ := rfl
  beyond _ := fun ⟨_, member, high⟩ => ⟨_, List.mem_map_of_mem member, high⟩

/-- Whether all characters of a text are in ASCII. -/
def isAscii (text : String) : Bool :=
  text.toList.all fun character => character.toNat < 0x80

theorem toNat_lt_of_isAscii {text : String} (ascii : isAscii text = true) {character : Char}
    (member : character ∈ text.toList) : character.toNat < 0x80 :=
  of_decide_eq_true (List.all_eq_true.mp ascii character member)

/-- A text with a character beyond ASCII is no name and no extension. -/
theorem ofCalled?_eq_none {called : List Char}
    (beyond : ∃ character ∈ called, 0x80 ≤ character.toNat) : ofCalled? called = none := by
  have names : ∀ known ∈ knownNames, isAscii known.1 = true := by
    decide +kernel
  have endings : ∀ language ∈ all, ∀ extension ∈ language.extensions,
      isAscii extension = true := by
    decide +kernel
  obtain ⟨character, member, high⟩ := beyond
  have noName : knownNames.lookup (String.ofList called) = none := by
    rw [List.lookup_eq_none_iff]
    intro known isKnown
    rw [bne_iff_ne]
    intro same
    have low := toNat_lt_of_isAscii (names known isKnown)
      (by rwa [← same, String.toList_ofList] : character ∈ known.1.toList)
    omega
  have noExtension : ofExtensionCharacters? called = none := by
    rw [Option.eq_none_iff_forall_ne_some]
    intro language found
    obtain ⟨extension, isExtension, same⟩ := ofExtensionCharacters?_eq_some_iff.mp found
    have inBare : character ∈ bareExtension called := by
      rcases bareExtension_cases called with bare | dotted
      · rwa [← bare]
      · rw [dotted] at member
        rcases List.mem_cons.mp member with isDot | inBare
        · rw [isDot] at high
          exact absurd high (by decide)
        · exact inBare
    have stays : character.toLower = character := by
      rcases toLower_cases character with same | ⟨_, upper, _⟩
      · exact same
      · omega
    have lowered : (bareExtension called).map Char.toLower = extension.toList :=
      same.trans (lower_of_mem_extensions isExtension)
    have inExtension : character ∈ extension.toList := by
      rw [← lowered, ← stays]
      exact List.mem_map_of_mem inBare
    have low := toNat_lt_of_isAscii
      (endings language (mem_all language) extension isExtension) inExtension
    omega
  rw [ofCalled?, noName, noExtension]
  rfl

/-- Names are looked up alike, in whichever way characters beyond ASCII are lowered. -/
theorem ofCalled?_lowering {lowerCase : List Char → List Char} (lowering : Lowering lowerCase)
    (text : String) : ofCalled? (lowerCase (trim text.toList)) = ofName? text := by
  by_cases ascii : ∀ character ∈ trim text.toList, (lowerLetter character).toNat < 0x80
  · rw [lowering.letters _ ascii, ofName?]
  · simp only [not_forall, Nat.not_lt] at ascii
    obtain ⟨character, member, high⟩ := ascii
    have noneHere := ofCalled?_eq_none (lowering.beyond _ ⟨character, member, high⟩)
    have noneThere := ofCalled?_eq_none ⟨_, List.mem_map_of_mem member, high⟩
    rw [noneHere, ofName?, noneThere]

end Language

end CodeHighlight
