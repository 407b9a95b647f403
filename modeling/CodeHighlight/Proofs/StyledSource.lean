/-
Module: CodeHighlight.Proofs.StyledSource
Purpose: What every byte of a source is to look like.  It has the style of the capture that owns
  it and is plain when there is none; and it may stand in the middle of a run, so that whatever
  is written right before it is written into that run.  The segments of a rendering say the same
  of every byte.
Main exports:
  Ink, Theme.runStyle, styleAt, carriedAt, inks, Segment.inks,
  styleAt_of_mem_consecutive, flatMap_inks_segmentsOf
-/
import CodeHighlight.Proofs.LineLabels
import CodeHighlight.Proofs.Segmentation

namespace CodeHighlight

/-! ### The look of a byte -/

/-- A source byte with its style.  The third field is the style of the run that comes from the
byte before into this one, plain when a run begins here or none is open. -/
structure Ink where
  byte : UInt8
  style : Style
  carried : Style
deriving Repr, DecidableEq

/-- The terminal style of a run with a tag. -/
def Theme.runStyle (theme : Theme) (tag : Tag) : Style :=
  (theme.tagStyle tag).terminal

/-- The style of the capture that covers a position, plain when there is none. -/
def styleAt (theme : Theme) (taken : List Capture) (position : Nat) : Style :=
  (taken.find? fun capture => capture.Covers position).elim .plain fun capture =>
    theme.runStyle capture.tag

/-- The style of the capture that covers a position and the one before it, plain when there is
none. -/
def carriedAt (theme : Theme) (taken : List Capture) (position : Nat) : Style :=
  (taken.find? fun capture => capture.Covers position ∧ capture.start < position).elim .plain
    fun capture => theme.runStyle capture.tag

/-- The look of a byte at its position. -/
def inkAt (theme : Theme) (taken : List Capture) : UInt8 × Nat → Ink
  | (byte, position) =>
      { byte := byte
        style := styleAt theme taken position
        carried := carriedAt theme taken position }

/-- The look of every byte of a source whose captures were resolved to these. -/
def inks (theme : Theme) (source : Bytes) (taken : List Capture) : List Ink :=
  source.zipIdx.map (inkAt theme taken)

/-- The look of every byte of a segment. -/
def Segment.inks (theme : Theme) : Segment → List Ink
  | plain bytes => bytes.map fun byte => ⟨byte, .plain, .plain⟩
  | tagged _ [] => []
  | tagged tag (first :: rest) =>
      ⟨first, theme.runStyle tag, .plain⟩ ::
        rest.map fun byte => ⟨byte, theme.runStyle tag, theme.runStyle tag⟩

theorem Segment.map_byte_inks (theme : Theme) (segment : Segment) :
    (segment.inks theme).map Ink.byte = segment.bytes := by
  cases segment with
  | plain text => simp [Segment.inks, Segment.bytes, Function.comp_def]
  | tagged tag text =>
      cases text with
      | nil => rfl
      | cons first rest => simp [Segment.inks, Segment.bytes, Function.comp_def]

/-! ### Positions and captures -/

theorem map_zipIdx_congr {Item Image : Type} {items : List Item} {start : Nat}
    {first second : Item × Nat → Image}
    (same : ∀ item position, start ≤ position → position < start + items.length →
      first (item, position) = second (item, position)) :
    (items.zipIdx start).map first = (items.zipIdx start).map second := by
  apply List.map_congr_left
  rintro ⟨item, position⟩ member
  obtain ⟨lower, upper, _⟩ := List.mem_zipIdx member
  exact same item position lower upper

theorem map_zipIdx_eq_map {Item Image : Type} {items : List Item} {start : Nat}
    {placed : Item × Nat → Image} {image : Item → Image}
    (same : ∀ item position, start ≤ position → position < start + items.length →
      placed (item, position) = image item) :
    (items.zipIdx start).map placed = items.map image := by
  calc (items.zipIdx start).map placed
      = (items.zipIdx start).map (image ∘ Prod.fst) := map_zipIdx_congr same
    _ = ((items.zipIdx start).map Prod.fst).map image := List.map_map.symm
    _ = items.map image := by rw [List.zipIdx_map_fst]

section Positions

variable {theme : Theme} {capture : Capture} {taken : List Capture} {position : Nat}

theorem styleAt_of_lt (later : ∀ other ∈ taken, position < other.start) :
    styleAt theme taken position = .plain := by
  have noOwner : (taken.find? fun other => other.Covers position) = none := by
    apply List.find?_eq_none.mpr
    intro other member covers
    exact absurd (of_decide_eq_true covers).1 (Nat.not_le.mpr (later other member))
  rw [styleAt, noOwner]
  rfl

theorem carriedAt_of_le (later : ∀ other ∈ taken, position ≤ other.start) :
    carriedAt theme taken position = .plain := by
  have noRun : (taken.find? fun other =>
      other.Covers position ∧ other.start < position) = none := by
    apply List.find?_eq_none.mpr
    intro other member both
    exact absurd (of_decide_eq_true both).2 (Nat.not_lt.mpr (later other member))
  rw [carriedAt, noRun]
  rfl

/-- The first capture of a list owns the positions that it covers. -/
theorem styleAt_cons_of_covers (covers : capture.Covers position) :
    styleAt theme (capture :: taken) position = theme.runStyle capture.tag := by
  simp [styleAt, covers]

theorem carriedAt_cons_of_lt (covers : capture.Covers position)
    (within : capture.start < position) :
    carriedAt theme (capture :: taken) position = theme.runStyle capture.tag := by
  simp [carriedAt, covers, within]

/-- Behind its end, the first capture of a list makes no difference. -/
theorem inkAt_cons_of_stop_le (behind : capture.stop ≤ position) (byte : UInt8) :
    inkAt theme (capture :: taken) (byte, position) = inkAt theme taken (byte, position) := by
  have uncovered : ¬ capture.Covers position :=
    fun covers => absurd covers.2 (Nat.not_lt.mpr behind)
  simp [inkAt, styleAt, carriedAt, uncovered]

/-- Of consecutive captures, the one that covers a position owns it. -/
theorem styleAt_of_mem_consecutive {size reach : Nat}
    (consecutive : Consecutive size reach taken) (member : capture ∈ taken)
    (covers : capture.Covers position) :
    styleAt theme taken position = theme.runStyle capture.tag := by
  induction taken generalizing reach with
  | nil => cases member
  | cons first rest inductionHypothesis =>
      obtain ⟨_, _, follows⟩ := consecutive
      rcases List.mem_cons.mp member with same | further
      · rw [← same]
        exact styleAt_cons_of_covers covers
      · have behind : first.stop ≤ position :=
          Nat.le_trans (le_start_of_mem_consecutive follows _ further) covers.1
        have unchanged : styleAt theme (first :: rest) position = styleAt theme rest position :=
          congrArg Ink.style (inkAt_cons_of_stop_le behind 0)
        exact unchanged.trans (inductionHypothesis follows further)

/-! ### Segments and positions -/

/-- Bytes in front of all captures are plain. -/
theorem map_inkAt_of_lt {text : Bytes} {start : Nat}
    (later : ∀ other ∈ taken, start + text.length ≤ other.start) :
    (text.zipIdx start).map (inkAt theme taken) = (Segment.plain text).inks theme := by
  apply map_zipIdx_eq_map
  intro byte position _ upper
  have before : ∀ other ∈ taken, position < other.start := by
    intro other member
    exact Nat.lt_of_lt_of_le upper (later other member)
  rw [inkAt, styleAt_of_lt before,
    carriedAt_of_le fun other member => Nat.le_of_lt (before other member)]

/-- The bytes of a run have its style, and all but the first one carry it. -/
theorem map_inkAt_of_covers {text : Bytes} (width : capture.start + text.length = capture.stop)
    (later : ∀ other ∈ taken, capture.stop ≤ other.start) :
    (text.zipIdx capture.start).map (inkAt theme (capture :: taken)) =
      (Segment.tagged capture.tag text).inks theme := by
  cases text with
  | nil => rfl
  | cons first others =>
      rw [List.length_cons] at width
      have nowhereBefore : ∀ other ∈ capture :: taken, capture.start ≤ other.start := by
        intro other member
        rcases List.mem_cons.mp member with same | further
        · exact Nat.le_of_eq (congrArg Capture.start same.symm)
        · have ends := later other further
          omega
      have front : inkAt theme (capture :: taken) (first, capture.start) =
          ⟨first, theme.runStyle capture.tag, .plain⟩ := by
        rw [inkAt, styleAt_cons_of_covers ⟨Nat.le_refl _, by omega⟩,
          carriedAt_of_le nowhereBefore]
      have back : (others.zipIdx (capture.start + 1)).map (inkAt theme (capture :: taken)) =
          others.map fun byte =>
            ⟨byte, theme.runStyle capture.tag, theme.runStyle capture.tag⟩ := by
        apply map_zipIdx_eq_map
        intro byte position lower upper
        have covers : capture.Covers position := ⟨by omega, by omega⟩
        rw [inkAt, styleAt_cons_of_covers covers, carriedAt_cons_of_lt covers lower]
      rw [List.zipIdx_cons, List.map_cons, front, back, Segment.inks]

end Positions

theorem inks_plainPiece (theme : Theme) (text : Bytes) :
    (plainPiece text).flatMap (Segment.inks theme) = (Segment.plain text).inks theme := by
  unfold plainPiece
  split
  · rename_i empty
    rw [empty]
    rfl
  · exact List.append_nil _

theorem length_slice {source : Bytes} {start stop : Nat} (inside : stop ≤ source.length) :
    (slice source start stop).length = stop - start := by
  rw [slice, List.length_take, List.length_drop]
  omega

/-- The segments of consecutive captures, with the rest of the source, say of every byte what its
position says. -/
theorem flatMap_inks_segmentsFrom (theme : Theme) (source : Bytes) {reach : Nat}
    {taken : List Capture} (consecutive : Consecutive source.length reach taken) :
    (segmentsFrom source reach taken ++
        plainPiece (source.drop (reachAfter reach taken))).flatMap (Segment.inks theme) =
      ((source.drop reach).zipIdx reach).map (inkAt theme taken) := by
  induction taken generalizing reach with
  | nil =>
      rw [segmentsFrom, reachAfter, List.nil_append, inks_plainPiece, map_inkAt_of_lt]
      intro other member
      cases member
  | cons capture rest inductionHypothesis =>
      obtain ⟨begins, valid, follows⟩ := consecutive
      have forward : capture.start ≤ capture.stop := Nat.le_of_lt valid.1
      have startInside : capture.start ≤ source.length := Nat.le_trans forward valid.2
      have gapLength : reach + (slice source reach capture.start).length = capture.start := by
        rw [length_slice startInside]
        omega
      have runLength : capture.start + (slice source capture.start capture.stop).length =
          capture.stop := by
        rw [length_slice valid.2]
        omega
      have cut : source.drop reach = slice source reach capture.start ++
          (slice source capture.start capture.stop ++ source.drop capture.stop) := by
        rw [slice_append_drop source forward, slice_append_drop source begins]
      have restLater := le_start_of_mem_consecutive follows
      have gap : ((slice source reach capture.start).zipIdx reach).map
            (inkAt theme (capture :: rest)) =
          (Segment.plain (slice source reach capture.start)).inks theme := by
        apply map_inkAt_of_lt
        intro other member
        rw [gapLength]
        rcases List.mem_cons.mp member with same | further
        · exact Nat.le_of_eq (congrArg Capture.start same.symm)
        · exact Nat.le_trans forward (restLater other further)
      have behind : ((source.drop capture.stop).zipIdx capture.stop).map
            (inkAt theme (capture :: rest)) =
          ((source.drop capture.stop).zipIdx capture.stop).map (inkAt theme rest) := by
        apply map_zipIdx_congr
        intro byte position lower _
        exact inkAt_cons_of_stop_le lower byte
      rw [cut, List.zipIdx_append, List.map_append, gapLength, gap, List.zipIdx_append,
        List.map_append, runLength, map_inkAt_of_covers runLength restLater, behind,
        ← inductionHypothesis follows, segmentsFrom, reachAfter, List.append_assoc,
        List.cons_append, List.flatMap_append, inks_plainPiece, List.flatMap_cons]

/-- The segments of a rendering say of every byte what its position among the selected captures
says. -/
theorem flatMap_inks_segmentsOf (theme : Theme) (source : Bytes) (found : List Match) :
    (segmentsOf source found).flatMap (Segment.inks theme) =
      inks theme source (selected source.length (feedOrder found)) := by
  rw [segmentsOf, selected_eq_selectFrom,
    flatMap_inks_segmentsFrom theme source (consecutive_selectFrom _ 0 _)]
  rfl

end CodeHighlight
