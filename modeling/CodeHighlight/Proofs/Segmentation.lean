/-
Module: CodeHighlight.Proofs.Segmentation
Purpose: What a pass over a source cuts it into.  However many captures are read, the pass has
  taken those that the rule of `CodeHighlight.Proofs.Selection` takes, stands at their last
  end, and has cut their ranges and the gaps between them; with the rest of the source, these
  segments are the source.
Main exports:
  slice, plainPiece, segmentsFrom, Resolution.Advanced, Resolution.advanced_readCapture,
  Resolution.advanced_run_readMatch, Resolution.rest_eq_plainPiece, segmentsOf,
  run_readMatch_append_rest, bytes_segmentsOf, bytes_ne_nil_of_mem_segmentsOf
-/
import CodeHighlight.Proofs.Selection

namespace CodeHighlight

/-! ### Ranges of a source -/

/-- The bytes of a source from `start` up to but without `stop`. -/
def slice (source : Bytes) (start stop : Nat) : Bytes :=
  (source.drop start).take (stop - start)

theorem slice_zero (source : Bytes) (stop : Nat) : slice source 0 stop = source.take stop := by
  simp [slice]

theorem slice_self (source : Bytes) (position : Nat) : slice source position position = [] := by
  simp [slice]

/-- Neighbouring ranges make up one range. -/
theorem slice_append (source : Bytes) {start middle stop : Nat} (first : start ≤ middle)
    (second : middle ≤ stop) :
    slice source start middle ++ slice source middle stop = slice source start stop := by
  have split : stop - start = (middle - start) + (stop - middle) := by omega
  have reached : source.drop middle = (source.drop start).drop (middle - start) := by
    rw [List.drop_drop]
    congr 1
    omega
  unfold slice
  rw [split, reached, ← List.take_add]

theorem slice_append_drop (source : Bytes) {start stop : Nat} (ordered : start ≤ stop) :
    slice source start stop ++ source.drop stop = source.drop start := by
  have reached : source.drop stop = (source.drop start).drop (stop - start) := by
    rw [List.drop_drop]
    congr 1
    omega
  unfold slice
  rw [reached, List.take_append_drop]

theorem slice_ne_nil {source : Bytes} {start stop : Nat} (ordered : start < stop)
    (inside : stop ≤ source.length) : slice source start stop ≠ [] := by
  intro empty
  have none : (slice source start stop).length = 0 := by rw [empty]; rfl
  simp only [slice, List.length_take, List.length_drop] at none
  omega

/-! ### Segments of taken captures -/

/-- Bytes as a plain segment, if there are any. -/
def plainPiece (bytes : Bytes) : List Segment :=
  if bytes = [] then [] else [.plain bytes]

/-- The ranges of taken captures, each after the gap before it. -/
def segmentsFrom (source : Bytes) (reach : Nat) : List Capture → List Segment
  | [] => []
  | capture :: rest =>
      plainPiece (slice source reach capture.start) ++
        .tagged capture.tag (slice source capture.start capture.stop) ::
          segmentsFrom source capture.stop rest

theorem bytes_plainPiece (bytes : Bytes) : (plainPiece bytes).flatMap Segment.bytes = bytes := by
  unfold plainPiece
  split
  · rename_i empty
    rw [empty]
    rfl
  · simp [Segment.bytes]

theorem bytes_ne_nil_of_mem_plainPiece {bytes : Bytes} :
    ∀ segment ∈ plainPiece bytes, segment.bytes ≠ [] := by
  intro segment member
  unfold plainPiece at member
  split at member
  · cases member
  · rename_i nonempty
    rw [List.mem_singleton.mp member]
    exact nonempty

theorem segmentsFrom_append (source : Bytes) (reach : Nat) (first second : List Capture) :
    segmentsFrom source reach (first ++ second) =
      segmentsFrom source reach first ++
        segmentsFrom source (reachAfter reach first) second := by
  induction first generalizing reach with
  | nil => rfl
  | cons capture rest inductionHypothesis =>
      simp only [List.cons_append, segmentsFrom, inductionHypothesis, List.append_assoc]
      rfl

/-- The segments of consecutive captures are the source up to their last end. -/
theorem bytes_segmentsFrom {source : Bytes} {size reach : Nat} {taken : List Capture}
    (consecutive : Consecutive size reach taken) :
    (segmentsFrom source reach taken).flatMap Segment.bytes =
      slice source reach (reachAfter reach taken) := by
  induction taken generalizing reach with
  | nil => exact (slice_self source reach).symm
  | cons capture rest inductionHypothesis =>
      obtain ⟨begins, valid, follows⟩ := consecutive
      have forward : capture.start ≤ capture.stop := Nat.le_of_lt valid.1
      rw [segmentsFrom, List.flatMap_append, bytes_plainPiece, List.flatMap_cons,
        inductionHypothesis follows, Segment.bytes,
        slice_append source forward (le_reachAfter follows),
        slice_append source begins (Nat.le_trans forward (le_reachAfter follows))]
      rfl

/-- No segment of consecutive captures is empty. -/
theorem bytes_ne_nil_of_mem_segmentsFrom {source : Bytes} {reach : Nat} {taken : List Capture}
    (consecutive : Consecutive source.length reach taken) :
    ∀ segment ∈ segmentsFrom source reach taken, segment.bytes ≠ [] := by
  induction taken generalizing reach with
  | nil => simp [segmentsFrom]
  | cons capture rest inductionHypothesis =>
      obtain ⟨begins, valid, follows⟩ := consecutive
      intro segment member
      rw [segmentsFrom, List.mem_append, List.mem_cons] at member
      rcases member with gap | range | later
      · exact bytes_ne_nil_of_mem_plainPiece segment gap
      · rw [range]
        exact slice_ne_nil valid.1 valid.2
      · exact inductionHypothesis follows segment later

/-!
### One step and a whole pass

`Advanced` is what reading does to a pass, for a capture, for a match and for all matches: it
is kept by `trans`, so the run lemmas are the step lemma applied along the list.
-/

namespace Resolution

/-- A pass has moved on by taking these captures and has cut their segments. -/
structure Advanced (before : Resolution) (taken : List Capture)
    (after : Resolution × List Segment) : Prop where
  source_eq : after.1.source = before.source
  cursor_eq : after.1.cursor = reachAfter before.cursor taken
  segments_eq : after.2 = segmentsFrom before.source before.cursor taken

theorem Advanced.recount (state : Resolution) (change : Tally → Tally) :
    Advanced state [] (state.recount change, []) :=
  ⟨rfl, rfl, rfl⟩

theorem Advanced.trans {before : Resolution} {first second : List Capture}
    {middle after : Resolution × List Segment} (one : Advanced before first middle)
    (two : Advanced middle.1 second after) :
    Advanced before (first ++ second) (after.1, middle.2 ++ after.2) where
  source_eq := by rw [two.source_eq, one.source_eq]
  cursor_eq := by rw [two.cursor_eq, one.cursor_eq, reachAfter_append]
  segments_eq := by
    rw [two.segments_eq, one.segments_eq, one.source_eq, one.cursor_eq, segmentsFrom_append]

theorem Advanced.size_eq {before : Resolution} {taken : List Capture}
    {after : Resolution × List Segment} (moved : Advanced before taken after) :
    after.1.size = before.size := by
  rw [after.1.size_eq, before.size_eq, moved.source_eq]

theorem length_remaining (state : Resolution) :
    state.remaining.length = state.size - state.cursor := by
  rw [state.remaining_eq, state.size_eq, List.length_drop]

/-- No more bytes than are left become a plain piece, if there are any. -/
theorem plainBefore_eq {state : Resolution} {count : Nat}
    (inside : count ≤ state.size - state.cursor) :
    state.plainBefore count = plainPiece (state.remaining.take count) := by
  unfold plainBefore plainPiece
  by_cases none : count = 0
  · simp [none]
  · have nonempty : state.remaining.take count ≠ [] := by
      intro empty
      have zero : (state.remaining.take count).length = 0 := by rw [empty]; rfl
      rw [List.length_take, length_remaining] at zero
      omega
    rw [if_neg none, if_neg nonempty]

/-- What is left is the source from the cursor on. -/
theorem rest_eq_plainPiece (state : Resolution) :
    state.rest = plainPiece (state.source.drop state.cursor) := by
  have all : state.remaining.take (state.size - state.cursor) = state.remaining :=
    List.take_of_length_le (Nat.le_of_eq (length_remaining state))
  rw [rest, plainBefore_eq (Nat.le_refl _), all, state.remaining_eq]

/-- One capture: it is taken exactly when the rule takes it from the cursor on. -/
theorem advanced_readCapture (state : Resolution) (capture : Capture) :
    Advanced state (selectFrom state.size state.cursor [capture]) (readCapture state capture) := by
  simp only [selectFrom, readCapture]
  by_cases valid : capture.ValidFor state.size
  · by_cases passed : capture.start < state.cursor
    · have notTaken : ¬ (capture.ValidFor state.size ∧ state.cursor ≤ capture.start) := by
        intro both
        exact Nat.not_lt.mpr both.2 passed
      rw [if_neg notTaken, if_pos valid, if_pos passed]
      exact Advanced.recount state _
    · have begins : state.cursor ≤ capture.start := Nat.not_lt.mp passed
      have taken : capture.ValidFor state.size ∧ state.cursor ≤ capture.start := ⟨valid, begins⟩
      have gap : state.cursor + (capture.start - state.cursor) = capture.start := by omega
      have width : capture.start + (capture.stop - capture.start) = capture.stop :=
        Nat.add_sub_cancel' (Nat.le_of_lt valid.1)
      have before : capture.start - state.cursor ≤ state.size - state.cursor := by
        apply Nat.sub_le_sub_right
        exact Nat.le_trans (Nat.le_of_lt valid.1) valid.2
      rw [if_pos taken, if_pos valid, if_neg passed]
      refine ⟨rfl, ?_, ?_⟩
      · simp only [Resolution.recount, advance, reachAfter]
        rw [gap, width]
      · simp only [advance, segmentsFrom]
        rw [plainBefore_eq before, state.remaining_eq, List.drop_drop, gap]
        rfl
  · have notTaken : ¬ (capture.ValidFor state.size ∧ state.cursor ≤ capture.start) :=
      fun both => valid both.1
    rw [if_neg notTaken, if_neg valid]
    exact Advanced.recount state _

theorem advanced_run_readCapture (state : Resolution) (captures : List Capture) :
    Advanced state (selectFrom state.size state.cursor captures)
      (readCapture.run state captures) := by
  induction captures generalizing state with
  | nil => exact Advanced.recount state id
  | cons capture rest inductionHypothesis =>
      have one := advanced_readCapture state capture
      have others := inductionHypothesis (readCapture state capture).1
      rw [one.size_eq, one.cursor_eq] at others
      have cut : capture :: rest = [capture] ++ rest := rfl
      rw [Transducer.run_cons, cut, selectFrom_append]
      exact one.trans others

theorem advanced_readMatch (state : Resolution) (captures : Match) :
    Advanced state (selectFrom state.size state.cursor captures.inOrder)
      (readMatch state captures) := by
  have counted := Advanced.recount state fun tally =>
    { tally with matchCount := tally.matchCount + 1 }
  exact counted.trans (advanced_run_readCapture _ captures.inOrder)

/-- All matches: the captures are taken as if they stood in one list. -/
theorem advanced_run_readMatch (state : Resolution) (found : List Match) :
    Advanced state (selectFrom state.size state.cursor (feedOrder found))
      (readMatch.run state found) := by
  induction found generalizing state with
  | nil => exact Advanced.recount state id
  | cons captures rest inductionHypothesis =>
      have one := advanced_readMatch state captures
      have others := inductionHypothesis (readMatch state captures).1
      rw [one.size_eq, one.cursor_eq] at others
      have cut : feedOrder (captures :: rest) = captures.inOrder ++ feedOrder rest := rfl
      rw [Transducer.run_cons, cut, selectFrom_append]
      exact one.trans others

end Resolution

/-! ### The segments of a rendering -/

/-- The segments that the matches found in a source cut it into. -/
def segmentsOf (source : Bytes) (found : List Match) : List Segment :=
  let taken := selectFrom source.length 0 (feedOrder found)
  segmentsFrom source 0 taken ++ plainPiece (source.drop (reachAfter 0 taken))

/-- A pass that reads all matches and then writes what is left cuts the source into its
segments. -/
theorem run_readMatch_append_rest (source : Bytes) (found : List Match) :
    (Resolution.readMatch.run (.start source) found).2 ++
        (Resolution.readMatch.run (.start source) found).1.rest = segmentsOf source found := by
  have moved := Resolution.advanced_run_readMatch (.start source) found
  rw [Resolution.rest_eq_plainPiece, moved.segments_eq, moved.source_eq, moved.cursor_eq]
  rfl

theorem bytes_segmentsOf (source : Bytes) (found : List Match) :
    (segmentsOf source found).flatMap Segment.bytes = source := by
  have consecutive := consecutive_selectFrom source.length 0 (feedOrder found)
  have whole := slice_append_drop source (Nat.zero_le (reachAfter 0
    (selectFrom source.length 0 (feedOrder found))))
  unfold segmentsOf
  rw [List.flatMap_append, bytes_segmentsFrom consecutive, bytes_plainPiece, whole,
    List.drop_zero]

theorem bytes_ne_nil_of_mem_segmentsOf {source : Bytes} {found : List Match} :
    ∀ segment ∈ segmentsOf source found, segment.bytes ≠ [] := by
  intro segment member
  unfold segmentsOf at member
  rcases List.mem_append.mp member with taken | rest
  · exact bytes_ne_nil_of_mem_segmentsFrom (consecutive_selectFrom _ 0 _) segment taken
  · exact bytes_ne_nil_of_mem_plainPiece segment rest

end CodeHighlight
