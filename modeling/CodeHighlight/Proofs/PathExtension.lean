/-
Module: CodeHighlight.Proofs.PathExtension
Purpose: Which part of a path decides the language of the file.  The last name of a path is what
  stands before the separators and single dots at its end, and after the separator before that.  Of
  that name only what follows its last dot counts, and not if that dot comes first.
Main exports:
  FilePath.segments_eq_splitOn, FilePath.names_append_separator, FilePath.IsName,
  FilePath.trailing, FilePath.LastName, FilePath.lastName_iff, FilePath.extensionOfName?_append,
  Language.ofPath?_of_lastName, Language.ofPath?_by_extension
-/
import CodeHighlight.Language
import CodeHighlight.Proofs.CharacterBoundary
import Mathlib.Data.List.TakeDrop
import Mathlib.Data.List.TakeWhile

namespace CodeHighlight

namespace FilePath

/-! ### Names in a path -/

theorem segments_eq_splitOn (path : FilePath) : path.segments = path.splitOn separator := by
  induction path with
  | nil => rfl
  | cons byte rest inductionHypothesis =>
      have unfolded : segments (byte :: rest) = prepend byte (segments rest) := rfl
      rw [unfolded, inductionHypothesis, List.splitOn_cons_eq_if_modifyHead]
      cases found : rest.splitOn separator with
      | nil => exact absurd found (List.splitOn_ne_nil separator rest)
      | cons first others =>
          by_cases separates : byte = separator
          · simp [prepend, separates]
          · simp [prepend, separates]

/-- A separator parts the names before it from the names after it. -/
theorem names_append_separator (front back : FilePath) :
    names (front ++ separator :: back) = names front ++ names back := by
  simp only [names, segments_eq_splitOn, List.splitOn_append_cons_self, List.filter_append]

/-- A text that names a file or a directory. -/
structure IsName (name : Bytes) : Prop where
  nonempty : name ≠ []
  notDot : name ≠ [dot]
  undivided : separator ∉ name

theorem names_of_isName {name : Bytes} (isName : IsName name) : names name = [name] := by
  rw [names, segments_eq_splitOn, List.splitOn_eq_singleton isName.undivided]
  simp [isName.nonempty, isName.notDot]

theorem names_nil : names [] = [] := rfl

theorem names_dot : names [dot] = [] := rfl

/-- Text without a separator is a name, or names nothing. -/
theorem isName_or_of_notMem {segment : Bytes} (undivided : separator ∉ segment) :
    IsName segment ∨ segment = [] ∨ segment = [dot] := by
  by_cases empty : segment = []
  · exact Or.inr (Or.inl empty)
  · by_cases isDot : segment = [dot]
    · exact Or.inr (Or.inr isDot)
    · exact Or.inl ⟨empty, isDot, undivided⟩

/-! ### The last name -/

/-- Separators, each with a single dot after it or without one. -/
def trailing (dotted : List Bool) : Bytes :=
  dotted.flatMap fun hasDot => if hasDot then [separator, dot] else [separator]

theorem trailing_append (first second : List Bool) :
    trailing (first ++ second) = trailing first ++ trailing second :=
  List.flatMap_append

/-- The last name in a path: it stands at the beginning or after a separator, and nothing but
separators and single dots comes after it. -/
structure LastName (path : FilePath) (name : Bytes) : Prop where
  isName : IsName name
  stands : ∃ (front : Bytes) (dotted : List Bool),
    (front = [] ∨ ∃ directory, front = directory ++ [separator]) ∧
      path = front ++ name ++ trailing dotted

theorem LastName.append_trailing {path : FilePath} {name : Bytes} (lastName : LastName path name)
    (dotted : List Bool) : LastName (path ++ trailing dotted) name := by
  obtain ⟨isName, front, before, begins, cut⟩ := lastName
  refine ⟨isName, front, before ++ dotted, begins, ?_⟩
  rw [cut, trailing_append, List.append_assoc (front ++ name)]

theorem lastName_self {name : Bytes} (isName : IsName name) : LastName name name :=
  ⟨isName, [], [], Or.inl rfl, by simp [trailing]⟩

theorem lastName_append_separator {name : Bytes} (directory : Bytes) (isName : IsName name) :
    LastName (directory ++ separator :: name) name :=
  ⟨isName, directory ++ [separator], [], Or.inr ⟨directory, rfl⟩, by simp [trailing]⟩

/-- What comes after the last name of a path names nothing. -/
theorem names_append_trailing (path : FilePath) (dotted : List Bool) :
    names (path ++ trailing dotted) = names path := by
  induction dotted generalizing path with
  | nil => rw [trailing, List.flatMap_nil, List.append_nil]
  | cons hasDot rest inductionHypothesis =>
      rw [trailing, List.flatMap_cons, ← List.append_assoc]
      refine (inductionHypothesis _).trans ?_
      cases hasDot with
      | false => exact (names_append_separator path []).trans (List.append_nil _)
      | true => exact (names_append_separator path [dot]).trans (List.append_nil _)

theorem getLast?_names_of_lastName {path : FilePath} {name : Bytes}
    (lastName : LastName path name) : path.names.getLast? = some name := by
  obtain ⟨isName, front, dotted, begins, cut⟩ := lastName
  rw [cut, names_append_trailing]
  rcases begins with empty | ⟨directory, separated⟩
  · rw [empty, List.nil_append, names_of_isName isName]
    rfl
  · rw [separated, List.append_assoc, List.singleton_append, names_append_separator,
      names_of_isName isName, List.getLast?_concat]

/-- A text without a byte, or what stands before the last such byte and what stands after it. -/
theorem last_cases (byte : UInt8) (text : Bytes) :
    byte ∉ text ∨ ∃ front last, text = front ++ byte :: last ∧ byte ∉ last := by
  by_cases member : byte ∈ text
  · obtain ⟨turnedLast, turnedFront, cut, absent⟩ :=
      List.eq_append_cons_of_mem (List.mem_reverse.mpr member)
    refine Or.inr ⟨turnedFront.reverse, turnedLast.reverse, ?_, by rwa [List.mem_reverse]⟩
    have turned := congrArg List.reverse cut
    rw [List.reverse_reverse, List.reverse_append, List.reverse_cons, List.append_assoc,
      List.singleton_append] at turned
    exact turned
  · exact Or.inl member

theorem lastName_of_getLast?_names {path : FilePath} {name : Bytes}
    (found : path.names.getLast? = some name) : LastName path name := by
  rcases last_cases separator path with undivided | ⟨front, last, cut, undivided⟩
  · rcases isName_or_of_notMem undivided with isName | empty | isDot
    · rw [names_of_isName isName] at found
      cases found
      exact lastName_self isName
    · rw [empty, names_nil] at found
      cases found
    · rw [isDot, names_dot] at found
      cases found
  · rw [cut, names_append_separator] at found
    rw [cut]
    -- What stands after the last separator is the last name, or the last name is before it.
    rcases isName_or_of_notMem undivided with isName | empty | isDot
    · rw [names_of_isName isName, List.getLast?_concat] at found
      cases found
      exact lastName_append_separator front isName
    · rw [empty, names_nil, List.append_nil] at found
      rw [empty]
      exact (lastName_of_getLast?_names found).append_trailing [false]
    · rw [isDot, names_dot, List.append_nil] at found
      rw [isDot]
      exact (lastName_of_getLast?_names found).append_trailing [true]
termination_by path.length
decreasing_by all_goals simp [cut]

theorem lastName_iff {path : FilePath} {name : Bytes} :
    LastName path name ↔ path.names.getLast? = some name :=
  ⟨getLast?_names_of_lastName, lastName_of_getLast?_names⟩

/-! ### Its extension -/

variable {stem extension : Bytes}

theorem bne_dot_of_mem_reverse {text : Bytes} (absent : dot ∉ text) :
    ∀ byte ∈ text.reverse, (byte != dot) = true := by
  intro byte member
  exact bne_iff_ne.mpr (ne_of_mem_of_not_mem (List.mem_reverse.mp member) absent)

theorem span_reverse (stem : Bytes) (absent : dot ∉ extension) :
    (stem ++ dot :: extension).reverse.span (· != dot) =
      (extension.reverse, dot :: stem.reverse) := by
  have kept := bne_dot_of_mem_reverse absent
  rw [List.reverse_append, List.reverse_cons, List.append_assoc, List.singleton_append,
    List.span_eq_takeWhile_dropWhile, List.takeWhile_append_of_pos kept,
    List.dropWhile_append_of_pos kept]
  simp

/-- What follows the last dot is the extension, if something stands before that dot. -/
theorem extensionOfName?_append (nonempty : stem ≠ []) (absent : dot ∉ extension) :
    extensionOfName? (stem ++ dot :: extension) = some extension := by
  rw [extensionOfName?, span_reverse stem absent]
  cases turned : stem.reverse with
  | nil => exact absurd (List.reverse_eq_nil_iff.mp turned) nonempty
  | cons last others => simp

/-- A dot in front begins no extension. -/
theorem extensionOfName?_hidden (absent : dot ∉ extension) :
    extensionOfName? (dot :: extension) = none := by
  have alone := span_reverse [] absent
  rw [List.nil_append] at alone
  rw [extensionOfName?, alone]
  rfl

theorem extensionOfName?_of_notMem {name : Bytes} (absent : dot ∉ name) :
    extensionOfName? name = none := by
  rw [extensionOfName?, List.span_eq_takeWhile_dropWhile,
    List.dropWhile_eq_nil_iff.mpr (bne_dot_of_mem_reverse absent)]

variable {path : FilePath} {name : Bytes}

theorem extension?_of_lastName (lastName : LastName path name) (notUp : name ≠ [dot, dot]) :
    path.extension? = extensionOfName? name := by
  rw [extension?, fileName?, getLast?_names_of_lastName lastName, Option.filter_some,
    if_pos (bne_iff_ne.mpr notUp)]
  rfl

theorem extension?_of_up (lastName : LastName path [dot, dot]) : path.extension? = none := by
  rw [extension?, fileName?, getLast?_names_of_lastName lastName]
  rfl

theorem extension?_of_noName (noName : ∀ name, ¬ LastName path name) :
    path.extension? = none := by
  have unfound : path.names.getLast? = none := by
    rw [Option.eq_none_iff_forall_ne_some]
    intro name found
    exact noName name (lastName_of_getLast?_names found)
  rw [extension?, fileName?, unfound]
  rfl

end FilePath

namespace Language

open FilePath

variable {path : FilePath}

theorem ofPath?_eq (path : FilePath) :
    ofPath? path =
      path.extension?.bind fun extension => (Utf8.decode? extension).bind ofExtension? := rfl

theorem ofPath?_of_noExtension (noExtension : path.extension? = none) : ofPath? path = none := by
  rw [ofPath?_eq, noExtension]
  rfl

/-- The language of a path is that of what follows the last dot of its last name. -/
theorem ofPath?_of_lastName {stem : Bytes} {extension : String}
    (lastName : LastName path (stem ++ dot :: Utf8.encode extension)) (nonempty : stem ≠ [])
    (absent : dot ∉ Utf8.encode extension) : ofPath? path = ofExtension? extension := by
  by_cases up : stem ++ dot :: Utf8.encode extension = [dot, dot]
  · -- Two dots lead up: there is no extension, and the empty text is none either.
    have noText : Utf8.encode extension = Utf8.encode "" := by
      have lengths := congrArg List.length up
      have some := List.length_pos_iff.mpr nonempty
      simp only [List.length_append, List.length_cons, List.length_nil] at lengths
      exact List.eq_nil_of_length_eq_zero (by omega)
    rw [up] at lastName
    rw [ofPath?_of_noExtension (extension?_of_up lastName), Utf8.encode_injective noText]
    decide +kernel
  · rw [ofPath?_eq, extension?_of_lastName lastName up, extensionOfName?_append nonempty absent,
      Option.bind_some, Utf8.decode?_encode, Option.bind_some]

theorem ofPath?_of_undecodable {stem extension : Bytes}
    (lastName : LastName path (stem ++ dot :: extension)) (absent : dot ∉ extension)
    (undecodable : Utf8.decode? extension = none) : ofPath? path = none := by
  by_cases up : stem ++ dot :: extension = [dot, dot]
  · rw [up] at lastName
    exact ofPath?_of_noExtension (extension?_of_up lastName)
  · rw [ofPath?_eq, extension?_of_lastName lastName up]
    cases stem with
    | nil =>
        rw [List.nil_append, extensionOfName?_hidden absent]
        rfl
    | cons first others =>
        rw [extensionOfName?_append (List.cons_ne_nil first others) absent, Option.bind_some,
          undecodable]
        rfl

theorem ofPath?_of_plainName {name : Bytes} (lastName : LastName path name)
    (plain : dot ∉ name ∨ (∃ rest, name = dot :: rest ∧ dot ∉ rest) ∨ name = [dot, dot]) :
    ofPath? path = none := by
  apply ofPath?_of_noExtension
  rcases plain with absent | ⟨rest, hidden, absent⟩ | up
  · have notUp : name ≠ [dot, dot] := fun same => absent (same ▸ List.mem_cons_self)
    rw [extension?_of_lastName lastName notUp, extensionOfName?_of_notMem absent]
  · have notUp : name ≠ [dot, dot] := by
      intro same
      rw [hidden, List.cons_inj_right] at same
      exact absent (same ▸ List.mem_cons_self)
    rw [extension?_of_lastName lastName notUp, hidden, extensionOfName?_hidden absent]
  · rw [up] at lastName
    exact extension?_of_up lastName

/-- The language of a path depends on what follows the last dot in its last name alone: not on the
directories before, on what stands before that dot, or on separators and single dots at the end.
There is no language when the last name has no dot or only one in front, when the path leads up or
has no name in it, and when the extension is not valid UTF-8. -/
theorem ofPath?_by_extension :
    (∀ (directory stem : Bytes) (extension : String) (dotted : List Bool),
        stem ≠ [] → separator ∉ stem → '.' ∉ extension.toList → '/' ∉ extension.toList →
        ofPath? (stem ++ dot :: Utf8.encode extension ++ trailing dotted) =
            ofExtension? extension ∧
          ofPath? (directory ++ separator :: (stem ++ dot :: Utf8.encode extension) ++
              trailing dotted) = ofExtension? extension) ∧
      (∀ (path : FilePath) (name : Bytes), LastName path name →
        (dot ∉ name ∨ (∃ rest, name = dot :: rest ∧ dot ∉ rest) ∨ name = [dot, dot]) →
        ofPath? path = none) ∧
      (∀ path : FilePath, (∀ name, ¬ LastName path name) → ofPath? path = none) ∧
      (∀ (path : FilePath) (stem extension : Bytes),
        LastName path (stem ++ dot :: extension) → dot ∉ extension →
        Utf8.decode? extension = none → ofPath? path = none) := by
  refine ⟨?_, fun _ _ => ofPath?_of_plainName,
    fun _ noName => ofPath?_of_noExtension (extension?_of_noName noName),
    fun _ _ _ => ofPath?_of_undecodable⟩
  intro directory stem extension dotted nonempty undivided noDot noSeparator
  have dotAbsent : dot ∉ Utf8.encode extension :=
    fun member => noDot (Utf8.mem_toList_of_mem_encode (by decide) (by decide) member)
  have separatorAbsent : separator ∉ Utf8.encode extension :=
    fun member => noSeparator (Utf8.mem_toList_of_mem_encode (by decide) (by decide) member)
  have isName : IsName (stem ++ dot :: Utf8.encode extension) := by
    refine ⟨by simp, ?_, ?_⟩
    · intro single
      have lengths := congrArg List.length single
      have some := List.length_pos_iff.mpr nonempty
      simp only [List.length_append, List.length_cons, List.length_nil] at lengths
      omega
    · rw [List.mem_append, List.mem_cons]
      rintro (inStem | isDot | inExtension)
      · exact undivided inStem
      · exact absurd isDot (by decide)
      · exact separatorAbsent inExtension
  have alone := (lastName_self isName).append_trailing dotted
  have within := (lastName_append_separator directory isName).append_trailing dotted
  exact ⟨ofPath?_of_lastName alone nonempty dotAbsent,
    ofPath?_of_lastName within nonempty dotAbsent⟩

/-- Two dots in front do not hide what follows them. -/
example : ofPath? (Utf8.encode "a.py/..RS//./") = some .rust := by
  decide +kernel

end Language

end CodeHighlight
