/-
Module: CodeHighlight.Proofs.StableOrder
Purpose: The order in which the captures of a match are read.  Sorting by a number keeps the order
  of items with the same number, and there is only one list that is sorted and keeps it.  So items
  can be left out before or after, and so can a map be applied that keeps the order of the numbers.
Main exports:
  sortedBy, putBy, sortedBy_cons, filter_sortedBy, map_sortedBy, sortedBy_of_pairwise,
  filter_number_sortedBy, eq_of_filter_number_eq, eq_sortedBy_iff, feedOrder_filter_ne_nil,
  feedOrder_map_filter, feedOrder_of_pairwise_flatten
-/
import CodeHighlight.Proofs.Selection
import Mathlib.Data.List.Sort

namespace CodeHighlight

/-! ### Sorting by a number -/

section ByNumber

variable {Item Other : Type} (number : Item → Nat)

/-- The items by their numbers.  Those with the same number keep their order. -/
def sortedBy (items : List Item) : List Item :=
  items.mergeSort fun first second => number first ≤ number second

/-- The item put before the first of the items whose number is not smaller. -/
def putBy (item : Item) (items : List Item) : List Item :=
  items.orderedInsert (fun first second => number first ≤ number second) item

theorem putBy_cons_of_le {item next : Item} (rest : List Item)
    (first : number item ≤ number next) :
    putBy number item (next :: rest) = item :: next :: rest :=
  List.orderedInsert_cons_of_le _ rest first

theorem putBy_cons_of_lt {item next : Item} (rest : List Item)
    (later : number next < number item) :
    putBy number item (next :: rest) = next :: putBy number item rest :=
  List.orderedInsert_of_not_le _ rest (Nat.not_le.mpr later)

theorem transitive_decide_le (first second third : Item)
    (one : decide (number first ≤ number second) = true)
    (two : decide (number second ≤ number third) = true) :
    decide (number first ≤ number third) = true := by
  rw [decide_eq_true_eq] at *
  exact Nat.le_trans one two

theorem total_decide_le (first second : Item) :
    (decide (number first ≤ number second) || decide (number second ≤ number first)) = true := by
  rw [Bool.or_eq_true, decide_eq_true_eq, decide_eq_true_eq]
  exact Nat.le_total _ _

theorem pairwise_sortedBy (items : List Item) :
    (sortedBy number items).Pairwise fun first second => number first ≤ number second :=
  (List.pairwise_mergeSort (transitive_decide_le number) (total_decide_le number) items).imp
    of_decide_eq_true

theorem sortedBy_nil : sortedBy number [] = [] :=
  List.mergeSort_nil

/-- An item in front of others is put where it belongs among the others, before all that have its
number. -/
theorem sortedBy_cons (item : Item) (rest : List Item) :
    sortedBy number (item :: rest) = putBy number item (sortedBy number rest) := by
  obtain ⟨smaller, larger, whole, split, isSmaller⟩ :=
    List.mergeSort_cons (transitive_decide_le number) (total_decide_le number) item rest
  have sorted := pairwise_sortedBy number (item :: rest)
  unfold sortedBy at sorted ⊢
  rw [whole] at sorted ⊢
  rw [split]
  have behind : putBy number item larger = item :: larger := by
    cases larger with
    | nil => rfl
    | cons next others =>
        have follows := (List.pairwise_cons.mp (List.pairwise_append.mp sorted).2.1).1
        exact putBy_cons_of_le number others (follows next List.mem_cons_self)
  clear whole split sorted
  induction smaller with
  | nil => exact behind.symm
  | cons next others inductionHypothesis =>
      have later : number next < number item := by
        simpa using isSmaller next List.mem_cons_self
      rw [List.cons_append, List.cons_append, putBy_cons_of_lt number _ later,
        ← inductionHypothesis fun other member => isSmaller other (List.mem_cons_of_mem _ member)]

/-- An item that is put among sorted items is left out or put among those that are kept. -/
theorem filter_putBy {items : List Item} (keep : Item → Bool) (item : Item)
    (sorted : items.Pairwise fun first second => number first ≤ number second) :
    (putBy number item items).filter keep =
      if keep item = true then putBy number item (items.filter keep) else items.filter keep := by
  induction items with
  | nil => exact List.filter_cons
  | cons next rest inductionHypothesis =>
      obtain ⟨follows, others⟩ := List.pairwise_cons.mp sorted
      by_cases first : number item ≤ number next
      · -- All that is kept comes after the item, whichever of it is first.
        have front : putBy number item ((next :: rest).filter keep) =
            item :: (next :: rest).filter keep := by
          cases kept : (next :: rest).filter keep with
          | nil => rfl
          | cons other more =>
              have among : other ∈ next :: rest :=
                List.mem_of_mem_filter (kept ▸ List.mem_cons_self)
              apply putBy_cons_of_le
              rcases List.mem_cons.mp among with same | further
              · rw [same]
                exact first
              · exact Nat.le_trans first (follows other further)
        rw [putBy_cons_of_le number rest first, List.filter_cons, front]
      · have later : number next < number item := Nat.not_le.mp first
        rw [putBy_cons_of_lt number rest later, List.filter_cons, inductionHypothesis others,
          List.filter_cons]
        by_cases kept : keep next = true
        · simp only [kept, if_true, putBy_cons_of_lt number (rest.filter keep) later]
          split
          · rfl
          · rfl
        · simp only [kept, Bool.false_eq_true, if_false]

/-- Items may be left out before or after sorting. -/
theorem filter_sortedBy (keep : Item → Bool) (items : List Item) :
    (sortedBy number items).filter keep = sortedBy number (items.filter keep) := by
  induction items with
  | nil => rw [List.filter_nil, sortedBy_nil, List.filter_nil]
  | cons item rest inductionHypothesis =>
      rw [sortedBy_cons, filter_putBy number keep item (pairwise_sortedBy number rest),
        inductionHypothesis, List.filter_cons]
      split
      · exact (sortedBy_cons number item _).symm
      · rfl

/-- A map that keeps the order of the numbers may be applied before or after sorting. -/
theorem map_sortedBy (other : Other → Nat) (image : Item → Other)
    (agree : ∀ first second,
      number first ≤ number second ↔ other (image first) ≤ other (image second))
    (items : List Item) :
    (sortedBy number items).map image = sortedBy other (items.map image) := by
  apply List.map_mergeSort
  intro first _ second _
  exact decide_eq_decide.mpr (agree first second)

theorem sortedBy_of_pairwise {items : List Item}
    (sorted : items.Pairwise fun first second => number first ≤ number second) :
    sortedBy number items = items := by
  apply List.mergeSort_of_pairwise
  exact sorted.imp decide_eq_true

/-! ### One order only -/

/-- Sorting keeps the order of the items with any one number. -/
theorem filter_number_sortedBy (value : Nat) (items : List Item) :
    ((sortedBy number items).filter fun item => number item = value) =
      items.filter fun item => number item = value := by
  rw [filter_sortedBy]
  apply sortedBy_of_pairwise
  rw [List.pairwise_filter]
  apply List.pairwise_of_forall
  intro first second firstHas secondHas
  have same : number first = number second :=
    (of_decide_eq_true firstHas).trans (of_decide_eq_true secondHas).symm
  exact Nat.le_of_eq same

/-- Lists that list the items with any one number alike have the same items. -/
theorem mem_iff_of_filter_number_eq {first second : List Item}
    (alike : ∀ value, (first.filter fun item => number item = value) =
      second.filter fun item => number item = value) (item : Item) :
    item ∈ first ↔ item ∈ second := by
  have listed := congrArg (item ∈ ·) (alike (number item))
  simpa using listed

/-- Sorted lists are equal when they list the items with any one number alike.  Both begin with an
item of the smallest number, and then with the first of those. -/
theorem eq_of_filter_number_eq {first second : List Item}
    (firstSorted : first.Pairwise fun one other => number one ≤ number other)
    (secondSorted : second.Pairwise fun one other => number one ≤ number other)
    (alike : ∀ value, (first.filter fun item => number item = value) =
      second.filter fun item => number item = value) : first = second := by
  have among := mem_iff_of_filter_number_eq number alike
  induction first generalizing second with
  | nil =>
      symm
      apply List.eq_nil_iff_forall_not_mem.mpr
      intro item member
      cases (among item).mpr member
  | cons one rest inductionHypothesis =>
      cases second with
      | nil => cases (among one).mp List.mem_cons_self
      | cons other others =>
          obtain ⟨oneFirst, restSorted⟩ := List.pairwise_cons.mp firstSorted
          obtain ⟨otherFirst, othersSorted⟩ := List.pairwise_cons.mp secondSorted
          have sameNumber : number one = number other := by
            apply Nat.le_antisymm
            · rcases List.mem_cons.mp ((among other).mpr List.mem_cons_self) with same | later
              · rw [same]
              · exact oneFirst other later
            · rcases List.mem_cons.mp ((among one).mp List.mem_cons_self) with same | later
              · rw [same]
              · exact otherFirst one later
          have same : one = other := by
            have begins := alike (number one)
            rw [List.filter_cons_of_pos (by simp),
              List.filter_cons_of_pos (by simp [sameNumber])] at begins
            exact (List.cons.inj begins).1
          subst same
          have tailsAlike : ∀ value, (rest.filter fun item => number item = value) =
              others.filter fun item => number item = value := by
            intro value
            have whole := alike value
            simp only [List.filter_cons] at whole
            split at whole
            · exact (List.cons.inj whole).2
            · exact whole
          rw [inductionHypothesis restSorted othersSorted tailsAlike
            (mem_iff_of_filter_number_eq number tailsAlike)]

/-- Sorting answers the one arrangement of the items that is sorted and keeps the order of the items
with any one number. -/
theorem eq_sortedBy_iff {items sorted : List Item} :
    sorted = sortedBy number items ↔
      sorted.Perm items ∧
        (sorted.Pairwise fun first second => number first ≤ number second) ∧
        ∀ value, (sorted.filter fun item => number item = value) =
          items.filter fun item => number item = value := by
  constructor
  · intro same
    rw [same]
    exact ⟨List.mergeSort_perm items _, pairwise_sortedBy number items,
      fun value => filter_number_sortedBy number value items⟩
  · rintro ⟨_, ordered, alike⟩
    apply eq_of_filter_number_eq number ordered (pairwise_sortedBy number items)
    intro value
    rw [alike, filter_number_sortedBy]

end ByNumber

/-! ### Reading orders -/

/-- A match without captures makes no difference. -/
theorem feedOrder_filter_ne_nil (found : List Match) :
    feedOrder (found.filter fun captures => captures ≠ []) = feedOrder found := by
  induction found with
  | nil => rfl
  | cons captures rest inductionHypothesis =>
      have read : ∀ matches' : List Match, feedOrder (captures :: matches') =
          captures.inOrder ++ feedOrder matches' := fun _ => List.flatMap_cons
      by_cases empty : captures = []
      · rw [List.filter_cons_of_neg (by simpa using empty), inductionHypothesis, read, empty,
          Match.inOrder, List.mergeSort_nil, List.nil_append]
      · rw [List.filter_cons_of_pos (by simpa using empty), read, read, inductionHypothesis]

/-- Captures may be left out of the matches or out of the reading order. -/
theorem feedOrder_map_filter (keep : Capture → Bool) (found : List Match) :
    feedOrder (found.map (List.filter keep)) = (feedOrder found).filter keep := by
  rw [feedOrder, feedOrder, List.filter_flatMap, List.flatMap_map]
  apply List.flatMap_congr
  intro captures _
  exact (filter_sortedBy Capture.start keep captures).symm

/-- Matches that list their captures in order are read as they stand. -/
theorem feedOrder_of_pairwise_flatten {found : List Match}
    (ordered : found.flatten.Pairwise fun first second => first.start ≤ second.start) :
    feedOrder found = found.flatten := by
  rw [feedOrder, ← List.flatMap_id]
  apply List.flatMap_congr
  intro captures member
  apply sortedBy_of_pairwise
  exact (List.pairwise_flatten.mp ordered).1 captures member

end CodeHighlight
