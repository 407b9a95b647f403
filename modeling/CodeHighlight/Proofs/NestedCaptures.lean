/-
Module: CodeHighlight.Proofs.NestedCaptures
Purpose: Captures that nest, in the order in which a tree is walked from its root.  In general a
  capture that begins behind the cursor is dropped with all its bytes.  When captures come by
  their starts and each is disjoint from every earlier one or inside it, nothing is lost: a
  capture is dropped only when an earlier one encloses it, and then it lies in a single run.
Main exports:
  Capture.Encloses, Capture.Nests, TreeOrdered, unenclosed,
  lt_furthestStop_iff, selectFrom_filter_validFor, selectFrom_eq_unenclosedAfter,
  selected_eq_unenclosed, exists_unenclosed_encloses, Walk.styles_unenclosed
-/
import CodeHighlight.Proofs.GreedyResolution
import CodeHighlight.Theme.Builtin

namespace CodeHighlight

/-! ### Nesting -/

namespace Capture

/-- The range of one capture holds the whole range of another. -/
def Encloses (outer inner : Capture) : Prop :=
  outer.start ≤ inner.start ∧ inner.stop ≤ outer.stop

instance (outer inner : Capture) : Decidable (outer.Encloses inner) :=
  inferInstanceAs (Decidable (_ ∧ _))

/-- A later capture begins no earlier, and begins behind an earlier one or ends inside it. -/
def Nests (earlier later : Capture) : Prop :=
  earlier.start ≤ later.start ∧ (earlier.stop ≤ later.start ∨ later.stop ≤ earlier.stop)

instance (earlier later : Capture) : Decidable (earlier.Nests later) :=
  inferInstanceAs (Decidable (_ ∧ _))

theorem Encloses.refl (capture : Capture) : capture.Encloses capture :=
  ⟨Nat.le_refl _, Nat.le_refl _⟩

theorem Encloses.trans {first second third : Capture} (outer : first.Encloses second)
    (inner : second.Encloses third) : first.Encloses third :=
  ⟨Nat.le_trans outer.1 inner.1, Nat.le_trans inner.2 outer.2⟩

theorem Encloses.covers {outer inner : Capture} (encloses : outer.Encloses inner)
    {position : Nat} (covers : inner.Covers position) : outer.Covers position :=
  ⟨Nat.le_trans encloses.1 covers.1, Nat.lt_of_lt_of_le covers.2 encloses.2⟩

end Capture

/-- Captures as a walk over a tree from its root meets them: each begins no earlier than those
before it, and is disjoint from each of them or inside it. -/
def TreeOrdered (captures : List Capture) : Prop :=
  captures.Pairwise Capture.Nests

instance (captures : List Capture) : Decidable (TreeOrdered captures) :=
  inferInstanceAs (Decidable (captures.Pairwise Capture.Nests))

/-- The captures that none before them encloses, when `earlier` were before all of them. -/
def unenclosedAfter (earlier : List Capture) : List Capture → List Capture
  | [] => []
  | capture :: rest =>
      if ∃ other ∈ earlier, other.Encloses capture then
        unenclosedAfter (earlier ++ [capture]) rest
      else capture :: unenclosedAfter (earlier ++ [capture]) rest

/-- The captures that no capture before them encloses. -/
def unenclosed (captures : List Capture) : List Capture :=
  unenclosedAfter [] captures

example : unenclosed [⟨"string", 0, 4⟩, ⟨"comment", 0, 4⟩, ⟨"type", 1, 3⟩, ⟨"type", 4, 5⟩] =
    [⟨"string", 0, 4⟩, ⟨"type", 4, 5⟩] := by decide

/-! ### How far nested captures reach -/

theorem stop_le_furthestStop {captures : List Capture} {capture : Capture}
    (member : capture ∈ captures) : capture.stop ≤ furthestStop captures := by
  induction captures with
  | nil => cases member
  | cons first rest inductionHypothesis =>
      have furthest : furthestStop (first :: rest) = max first.stop (furthestStop rest) := rfl
      rw [furthest]
      rcases List.mem_cons.mp member with same | later
      · rw [same]
        exact Nat.le_max_left _ _
      · exact Nat.le_trans (inductionHypothesis later) (Nat.le_max_right _ _)

theorem exists_lt_stop_of_lt_furthestStop {captures : List Capture} {position : Nat}
    (behind : position < furthestStop captures) :
    ∃ capture ∈ captures, position < capture.stop := by
  induction captures with
  | nil => exact absurd behind (Nat.not_lt_zero position)
  | cons first rest inductionHypothesis =>
      have furthest : furthestStop (first :: rest) = max first.stop (furthestStop rest) := rfl
      rw [furthest] at behind
      by_cases here : position < first.stop
      · exact ⟨first, List.mem_cons_self, here⟩
      · have later : position < furthestStop rest := by omega
        obtain ⟨capture, member, ends⟩ := inductionHypothesis later
        exact ⟨capture, List.mem_cons_of_mem _ member, ends⟩

theorem furthestStop_append_singleton (captures : List Capture) (capture : Capture) :
    furthestStop (captures ++ [capture]) = max (furthestStop captures) capture.stop := by
  have single : furthestStop [capture] = capture.stop := Nat.max_zero _
  rw [furthestStop_append, single]

/-- A capture that nests with all earlier ones begins behind their largest end exactly when one
of them encloses it. -/
theorem lt_furthestStop_iff {earlier : List Capture} {capture : Capture}
    (nests : ∀ other ∈ earlier, other.Nests capture) (nonempty : capture.start < capture.stop) :
    capture.start < furthestStop earlier ↔ ∃ other ∈ earlier, other.Encloses capture := by
  constructor
  · intro behind
    obtain ⟨other, member, ends⟩ := exists_lt_stop_of_lt_furthestStop behind
    obtain ⟨begins, disjoint | inside⟩ := nests other member
    · exact absurd ends (Nat.not_lt.mpr disjoint)
    · exact ⟨other, member, begins, inside⟩
  · rintro ⟨other, member, encloses⟩
    calc capture.start < capture.stop := nonempty
      _ ≤ other.stop := encloses.2
      _ ≤ furthestStop earlier := stop_le_furthestStop member

/-! ### Selection -/

/-- Captures that are not valid make no difference to the others. -/
theorem selectFrom_filter_validFor (size reach : Nat) (captures : List Capture) :
    selectFrom size reach (captures.filter fun capture => capture.ValidFor size) =
      selectFrom size reach captures := by
  induction captures generalizing reach with
  | nil => rfl
  | cons capture rest inductionHypothesis =>
      by_cases valid : capture.ValidFor size
      · rw [List.filter_cons_of_pos (by simpa using valid), selectFrom, selectFrom,
          inductionHypothesis, inductionHypothesis]
      · have notTaken : ¬ (capture.ValidFor size ∧ reach ≤ capture.start) :=
          fun taken => valid taken.1
        rw [List.filter_cons_of_neg (by simpa using valid), selectFrom, if_neg notTaken,
          inductionHypothesis]

/-- A pass over nested captures always stands at the largest end of all it has read, taken or
dropped, and so takes those that no earlier one encloses. -/
theorem selectFrom_eq_unenclosedAfter {size : Nat} (earlier : List Capture)
    {captures : List Capture} (ordered : TreeOrdered (earlier ++ captures))
    (valid : ∀ capture ∈ captures, capture.ValidFor size) :
    selectFrom size (furthestStop earlier) captures = unenclosedAfter earlier captures := by
  induction captures generalizing earlier with
  | nil => rfl
  | cons capture rest inductionHypothesis =>
      have here : capture.ValidFor size := valid capture List.mem_cons_self
      have nests : ∀ other ∈ earlier, other.Nests capture := by
        intro other member
        exact (List.pairwise_append.mp ordered).2.2 other member capture List.mem_cons_self
      have regrouped : earlier ++ capture :: rest = earlier ++ [capture] ++ rest := by simp
      have follows := inductionHypothesis (earlier ++ [capture]) (regrouped ▸ ordered)
        fun later member => valid later (List.mem_cons_of_mem _ member)
      rw [furthestStop_append_singleton] at follows
      rw [selectFrom, unenclosedAfter]
      by_cases enclosed : ∃ other ∈ earlier, other.Encloses capture
      · have behind := (lt_furthestStop_iff nests here.1).mpr enclosed
        obtain ⟨other, member, encloses⟩ := enclosed
        have reached : max (furthestStop earlier) capture.stop = furthestStop earlier :=
          Nat.max_eq_left (Nat.le_trans encloses.2 (stop_le_furthestStop member))
        rw [reached] at follows
        rw [if_neg fun taken => Nat.not_lt.mpr taken.2 behind,
          if_pos ⟨other, member, encloses⟩, follows]
      · have ahead : furthestStop earlier ≤ capture.start :=
          Nat.not_lt.mp fun behind => enclosed ((lt_furthestStop_iff nests here.1).mp behind)
        have reached : max (furthestStop earlier) capture.stop = capture.stop :=
          Nat.max_eq_right (Nat.le_trans ahead (Nat.le_of_lt here.1))
        rw [reached] at follows
        rw [if_pos ⟨here, ahead⟩, if_neg enclosed, follows]

/-- Of captures whose valid ones nest, those are taken that no earlier valid one encloses. -/
theorem selected_eq_unenclosed {size : Nat} {captures : List Capture}
    (ordered : TreeOrdered (captures.filter fun capture => capture.ValidFor size)) :
    selected size captures =
      unenclosed (captures.filter fun capture => capture.ValidFor size) := by
  have valid : ∀ capture ∈ captures.filter fun capture => capture.ValidFor size,
      capture.ValidFor size := by
    intro capture member
    exact of_decide_eq_true (List.mem_filter.mp member).2
  rw [selected_eq_selectFrom, ← selectFrom_filter_validFor]
  exact selectFrom_eq_unenclosedAfter [] ordered valid

/-! ### Nothing is lost -/

/-- Every capture is enclosed by one that is kept, or by one from before the list. -/
theorem exists_encloses_of_mem (earlier : List Capture) {captures : List Capture}
    {capture : Capture} (member : capture ∈ captures) :
    (∃ other ∈ earlier, other.Encloses capture) ∨
      ∃ run ∈ unenclosedAfter earlier captures, run.Encloses capture := by
  induction captures generalizing earlier with
  | nil => cases member
  | cons first rest inductionHypothesis =>
      rw [unenclosedAfter]
      rcases List.mem_cons.mp member with same | later
      · split
        · rename_i enclosed
          exact Or.inl (same ▸ enclosed)
        · exact Or.inr ⟨first, List.mem_cons_self, same ▸ Capture.Encloses.refl capture⟩
      · rcases inductionHypothesis (earlier ++ [first]) later with outer | run
        · obtain ⟨other, among, encloses⟩ := outer
          rcases List.mem_append.mp among with old | last
          · exact Or.inl ⟨other, old, encloses⟩
          · rw [List.mem_singleton.mp last] at encloses
            split
            · rename_i enclosed
              obtain ⟨outermost, old, around⟩ := enclosed
              exact Or.inl ⟨outermost, old, around.trans encloses⟩
            · exact Or.inr ⟨first, List.mem_cons_self, encloses⟩
        · obtain ⟨run, kept, encloses⟩ := run
          split
          · exact Or.inr ⟨run, kept, encloses⟩
          · exact Or.inr ⟨run, List.mem_cons_of_mem _ kept, encloses⟩

theorem exists_unenclosed_encloses {captures : List Capture} {capture : Capture}
    (member : capture ∈ captures) : ∃ run ∈ unenclosed captures, run.Encloses capture := by
  rcases exists_encloses_of_mem [] member with ⟨_, none, _⟩ | kept
  · cases none
  · exact kept

theorem mem_of_mem_unenclosedAfter {earlier captures : List Capture} {capture : Capture}
    (member : capture ∈ unenclosedAfter earlier captures) : capture ∈ captures := by
  induction captures generalizing earlier with
  | nil => exact member
  | cons first rest inductionHypothesis =>
      rw [unenclosedAfter] at member
      split at member
      · exact List.mem_cons_of_mem _ (inductionHypothesis member)
      · rcases List.mem_cons.mp member with same | later
        · exact same ▸ List.mem_cons_self
        · exact List.mem_cons_of_mem _ (inductionHypothesis later)

/-- The captures that are kept cover what all captures cover. -/
theorem covers_unenclosed_iff (captures : List Capture) (position : Nat) :
    (∃ run ∈ unenclosed captures, run.Covers position) ↔
      ∃ capture ∈ captures, capture.Covers position := by
  constructor
  · rintro ⟨run, kept, covers⟩
    exact ⟨run, mem_of_mem_unenclosedAfter kept, covers⟩
  · rintro ⟨capture, member, covers⟩
    obtain ⟨run, kept, encloses⟩ := exists_unenclosed_encloses member
    exact ⟨run, kept, encloses.covers covers⟩

/-- When the valid captures nest, a writer is told of a run for exactly those that no earlier
valid capture encloses, each over its whole range and with its own tag.  Every valid capture lies
inside one of these runs, and the runs cover exactly the bytes that valid captures cover. -/
theorem Walk.styles_unenclosed (theme : Theme) (source : Bytes) (lineNumbers : Bool)
    (found : List Match)
    (ordered : TreeOrdered
      ((feedOrder found).filter fun capture => capture.ValidFor source.length)) :
    let valid := (feedOrder found).filter fun capture => capture.ValidFor source.length
    let runs := unenclosed valid
    let told := ((Walk.start source lineNumbers).complete theme found).2
    bytewise (unlabelled told) = bytewise (script theme source 0 runs) ∧
      (∀ capture ∈ valid, ∃ run ∈ runs, run.Encloses capture) ∧
      (∀ position, (∃ run ∈ runs, run.Covers position) ↔
        ∃ capture ∈ valid, capture.Covers position) := by
  intro valid runs told
  refine ⟨?_, ?_, covers_unenclosed_iff valid⟩
  · rw [Walk.bytewise_unlabelled_complete, selected_eq_unenclosed ordered]
  · intro capture member
    exact exists_unenclosed_encloses member

/-- Two captures of one range and one inside it become one run; another begins right behind
it, and one leaves the source. -/
theorem Walk.styles_unenclosed_adjacent :
    let found : List Match := [[⟨"type", 1, 3⟩, ⟨"string", 0, 3⟩, ⟨"comment", 0, 3⟩],
      [⟨"keyword", 2, 9⟩, ⟨"keyword", 3, 4⟩]]
    let source : Bytes := [0x61, newline, 0x62, 0x63]
    let valid := (feedOrder found).filter fun capture => capture.ValidFor source.length
    let told := ((Walk.start source true).complete Theme.standard found).2
    TreeOrdered valid ∧
      bytewise (unlabelled told) =
        bytewise (script Theme.standard source 0 [⟨"string", 0, 3⟩, ⟨"keyword", 3, 4⟩]) := by
  have inOrder : feedOrder [[⟨"type", 1, 3⟩, ⟨"string", 0, 3⟩, ⟨"comment", 0, 3⟩],
      [⟨"keyword", 2, 9⟩, ⟨"keyword", 3, 4⟩]] =
      [⟨"string", 0, 3⟩, ⟨"comment", 0, 3⟩, ⟨"type", 1, 3⟩, ⟨"keyword", 2, 9⟩,
        ⟨"keyword", 3, 4⟩] := by
    simp [feedOrder, Match.inOrder, List.mergeSort, List.MergeSort.Internal.splitInTwo]
  intro found source valid told
  have ordered : TreeOrdered valid := by
    simp only [valid, found, inOrder]
    decide
  have runs : unenclosed valid = [⟨"string", 0, 3⟩, ⟨"keyword", 3, 4⟩] := by
    simp only [valid, found, inOrder]
    decide
  rw [← runs]
  exact ⟨ordered, (Walk.styles_unenclosed Theme.standard source true found ordered).1⟩

end CodeHighlight
