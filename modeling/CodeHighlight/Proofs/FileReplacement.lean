/-
Module: CodeHighlight.Proofs.FileReplacement
Purpose: What writing a file changes.  Whether a file can be written depends on its path and on the
  store alone.  The one entry that the path leads to then holds the new contents, with the access
  it had, all others are as they were, and the path still leads there.
Main exports:
  FileStore.find?_insert, FileStore.write_eq, FileStore.target_cases, FileStore.LeadsTo,
  FileStore.Replaced, FileStore.replaced_insert
-/
import CodeHighlight.FileStore

namespace CodeHighlight.FileStore

variable {store after : FileStore} {path : FilePath} {contents : Bytes} {names : List Bytes}
  {access : Access}

/-! ### One entry -/

theorem lookup_filter_ne {Entry : Type} {names other : List Bytes} (different : other ≠ names)
    (entries : List (List Bytes × Entry)) :
    (entries.filter fun (key, _) => key != names).lookup other = entries.lookup other := by
  induction entries with
  | nil => rfl
  | cons first rest inductionHypothesis =>
      obtain ⟨key, entry⟩ := first
      by_cases dropped : key = names
      · rw [List.filter_cons_of_neg (by simp [dropped]), List.lookup_cons, inductionHypothesis,
          dropped, beq_false_of_ne different]
      · rw [List.filter_cons_of_pos (by simp [dropped]), List.lookup_cons, List.lookup_cons,
          inductionHypothesis]

/-- Only the names that were given lead to another entry than before. -/
theorem find?_insert (store : FileStore) (names other : List Bytes) (entry : FileEntry) :
    (store.insert names entry).find? other =
      if other = names then some entry else store.find? other := by
  unfold insert find?
  rw [List.lookup_cons]
  by_cases same : other = names
  · rw [same, beq_self_eq_true, if_pos rfl]
  · rw [beq_false_of_ne same, if_neg same]
    exact lookup_filter_ne same store.entries

/-! ### Directories stay where they are -/

/-- No directory is at the names. -/
def NoDirectory (store : FileStore) (names : List Bytes) : Prop :=
  ∀ access, store.find? names ≠ some (.directory access)

/-- A name leads from a directory to the same one when a file is put where no directory is. -/
theorem enter_insert (noDirectory : store.NoDirectory names) {directory next : List Bytes}
    {name : Bytes} (entered : store.enter directory name = .ok next) :
    (store.insert names (.file contents access)).enter directory name = .ok next := by
  unfold enter at *
  by_cases here : staysHere name = true
  · rw [if_pos here] at *
    exact entered
  · by_cases parent : (name == parentName) = true
    · rw [if_neg here, if_pos parent] at *
      exact entered
    · rw [if_neg here, if_neg parent] at *
      cases found : store.find? (directory ++ [name]) with
      | none =>
          rw [found] at entered
          cases entered
      | some entry =>
          rw [found] at entered
          cases entry with
          | file old others => cases entered
          | directory others =>
              have another : directory ++ [name] ≠ names := by
                intro same
                exact noDirectory others (same ▸ found)
              rw [find?_insert, if_neg another, found]
              exact entered

theorem foldlM_enter_insert (noDirectory : store.NoDirectory names)
    {segments directory reached : List Bytes}
    (followed : segments.foldlM store.enter directory = .ok reached) :
    segments.foldlM (store.insert names (.file contents access)).enter directory =
      .ok reached := by
  induction segments generalizing directory with
  | nil => exact followed
  | cons segment rest inductionHypothesis =>
      rw [List.foldlM_cons] at *
      cases entered : store.enter directory segment with
      | error failure =>
          rw [entered] at followed
          cases followed
      | ok next =>
          rw [entered] at followed
          rw [enter_insert noDirectory entered]
          exact inductionHypothesis followed

/-! ### Writing -/

/-- Where a file is written does not depend on what is written. -/
theorem write_eq (store : FileStore) (path : FilePath) (contents : Bytes) :
    store.write path contents =
      (store.target path).map fun (names, access) =>
        store.insert names (.file contents access) := by
  rw [write]
  cases store.target path <;> rfl

/-- Names that a path leads to: those of a directory, and the last segment of the path. -/
def LeadsTo (store : FileStore) (path : FilePath) (names : List Bytes) : Prop :=
  isDots (lastSegment path) = false ∧
    ∃ directory, store.directoryOf path = .ok directory ∧ names = directory ++ [lastSegment path]

/-- What was at the names of a file before it was written, and what can be done with it. -/
def Writable (store : FileStore) (names : List Bytes) (access : Access) : Prop :=
  (store.find? names = none ∧ access = .free) ∨
    ∃ old, store.find? names = some (.file old access) ∧ access.writing = none

theorem noDirectory_of_writable (writable : store.Writable names access) :
    store.NoDirectory names := by
  intro others found
  rcases writable with ⟨nothing, _⟩ | ⟨old, isFile, _⟩
  · rw [nothing] at found
    cases found
  · rw [isFile] at found
    cases found

theorem check_eq_ok_iff {refusal : Option FileError} :
    Access.check refusal = .ok () ↔ refusal = none := by
  cases refusal <;> simp [Access.check]

/-- What a path to a file that is written leads to. -/
theorem target_cases (written : store.target path = .ok (names, access)) :
    store.LeadsTo path names ∧ store.Writable names access := by
  simp only [target] at written
  cases followed : store.directoryOf (withoutSeparators path) with
  | error failure =>
      simp only [followed] at written
      cases written
  | ok directory =>
      simp only [followed, bind, Except.bind] at written
      split at written
      · cases written
      · rename_i isFileName
        obtain ⟨isName, untrimmed⟩ := Bool.or_eq_false_iff.mp (Bool.eq_false_iff.mpr isFileName)
        have whole : withoutSeparators path = path := by simpa using untrimmed
        rw [whole] at followed isName written
        cases found : store.find? (directory ++ [lastSegment path]) with
        | none =>
            simp only [found] at written
            split at written
            · cases written
            · cases written
              exact ⟨⟨isName, directory, followed, rfl⟩, Or.inl ⟨found, rfl⟩⟩
        | some entry =>
            cases entry with
            | directory others =>
                simp only [found] at written
                cases written
            | file old others =>
                simp only [found] at written
                split at written
                · cases written
                · rename_i passed
                  cases written
                  exact ⟨⟨isName, directory, followed, rfl⟩,
                    Or.inr ⟨old, found, check_eq_ok_iff.mp passed⟩⟩

/-- A file of the store was replaced or made: what the path leads to holds the contents, keeps the
access that a file there had, and can be read back if it can be read at all.  No other entry has
changed. -/
structure Replaced (store : FileStore) (path : FilePath) (contents : Bytes)
    (after : FileStore) : Prop where
  written : ∃ names access, store.LeadsTo path names ∧ store.Writable names access ∧
    after.LeadsTo path names ∧ after.find? names = some (.file contents access) ∧
    (access.reading = none → after.read path = .ok contents) ∧
    ∀ other, other ≠ names → after.find? other = store.find? other
  workingDirectory_eq : after.workingDirectory = store.workingDirectory

/-- A file that a path leads to is read if nothing forbids it. -/
theorem read_of_leadsTo (leads : store.LeadsTo path names)
    (found : store.find? names = some (.file contents access)) (readable : access.reading = none) :
    store.read path = .ok contents := by
  obtain ⟨isName, directory, followed, rfl⟩ := leads
  rw [read, followed]
  simp only [bind, Except.bind, isName, found, readable]
  rfl

theorem replaced_insert (written : store.target path = .ok (names, access)) (contents : Bytes) :
    store.Replaced path contents (store.insert names (.file contents access)) := by
  obtain ⟨leads, writable⟩ := target_cases written
  have found : (store.insert names (.file contents access)).find? names =
      some (.file contents access) := by
    rw [find?_insert, if_pos rfl]
  have leadsAfter : (store.insert names (.file contents access)).LeadsTo path names := by
    obtain ⟨isName, directory, followed, isNames⟩ := leads
    exact ⟨isName, directory, foldlM_enter_insert (noDirectory_of_writable writable) followed,
      isNames⟩
  refine ⟨⟨names, access, leads, writable, leadsAfter, found, ?_, ?_⟩, rfl⟩
  · exact read_of_leadsTo leadsAfter found
  · intro other different
    rw [find?_insert, if_neg different]

end CodeHighlight.FileStore
