/-
Module: CodeHighlight.Proofs.SideBySide
Purpose: Highlighting is local.  Two sources side by side, the matches of the second moved behind
  the first, give the two outputs side by side and the counts of both, when no capture of the first
  reaches into the second.  What is plain at the end of the first and at the beginning of the
  second is one gap there, but no writer shows where a plain text was cut.
Main exports:
  Capture.shift, Match.shift, Statistics.plus, fatesFrom_of_stop_le, fatesFrom_shift,
  selectFrom_of_stop_le, selectFrom_shift, selected_append_shift, fates_append_shift,
  script_shift, bytewise_script_append, writeEvents_bytewise, writeEvents_script_append,
  render_eq_writeEvents_script, render_append
-/
import CodeHighlight.Proofs.NormalForm

namespace CodeHighlight

/-- The capture moved to the right. -/
def Capture.shift (offset : Nat) (capture : Capture) : Capture :=
  { capture with start := offset + capture.start, stop := offset + capture.stop }

/-- The captures of a match moved to the right. -/
def Match.shift (offset : Nat) (captures : Match) : Match :=
  captures.map (Capture.shift offset)

/-- The counts of two renderings together. -/
def Statistics.plus (first second : Statistics) : Statistics where
  matchCount := first.matchCount + second.matchCount
  styled := first.styled + second.styled
  invalid := first.invalid + second.invalid
  overlapped := first.overlapped + second.overlapped
  lineLabels := first.lineLabels + second.lineLabels

/-! ### Captures in more source -/

/-- More source behind a capture makes no difference to it. -/
theorem fateAt_of_stop_le {size : Nat} {capture : Capture} (inside : capture.stop ≤ size)
    (more reach : Nat) : fateAt (size + more) reach capture = fateAt size reach capture := by
  have valid : capture.ValidFor (size + more) ↔ capture.ValidFor size :=
    and_congr_right fun _ => iff_of_true (Nat.le_add_right_of_le inside) inside
  simp only [fateAt, valid]

/-- More source before a capture that moves along makes no difference to it. -/
theorem fateAt_shift (size offset reach : Nat) (capture : Capture) :
    fateAt (offset + size) reach (capture.shift offset) = fateAt size (reach - offset) capture := by
  have valid : (capture.shift offset).ValidFor (offset + size) ↔ capture.ValidFor size := by
    simp only [Capture.ValidFor, Capture.shift, Nat.add_lt_add_iff_left, Nat.add_le_add_iff_left]
  have passed : (capture.shift offset).start < reach ↔ capture.start < reach - offset :=
    Nat.lt_sub_iff_add_lt'.symm
  simp only [fateAt, valid, passed]

theorem fatesFrom_of_stop_le {size : Nat} {captures : List Capture}
    (inside : ∀ capture ∈ captures, capture.stop ≤ size) (more reach : Nat) :
    fatesFrom (size + more) reach captures = fatesFrom size reach captures := by
  induction captures generalizing reach with
  | nil => rfl
  | cons capture rest inductionHypothesis =>
      have here := fateAt_of_stop_le (inside capture List.mem_cons_self) more reach
      have others := inductionHypothesis fun other member =>
        inside other (List.mem_cons_of_mem _ member)
      by_cases taken : fateAt size reach capture = .styled
      · rw [fatesFrom_cons_of_fateAt_eq taken, fatesFrom_cons_of_fateAt_eq (here.trans taken),
          others]
      · rw [fatesFrom_cons_of_fateAt_ne taken, fatesFrom_cons_of_fateAt_ne (here ▸ taken), here,
          others]

/-- Captures that move along have the fates that they have from where the pass stands in their own
source. -/
theorem fatesFrom_shift (size offset reach : Nat) (captures : List Capture) :
    fatesFrom (offset + size) reach (captures.map (Capture.shift offset)) =
      fatesFrom size (reach - offset) captures := by
  induction captures generalizing reach with
  | nil => rfl
  | cons capture rest inductionHypothesis =>
      have here := fateAt_shift size offset reach capture
      have ends : (capture.shift offset).stop - offset = capture.stop :=
        Nat.add_sub_cancel_left offset capture.stop
      rw [List.map_cons]
      by_cases taken : fateAt size (reach - offset) capture = .styled
      · rw [fatesFrom_cons_of_fateAt_eq taken, fatesFrom_cons_of_fateAt_eq (here.trans taken),
          inductionHypothesis, ends]
      · rw [fatesFrom_cons_of_fateAt_ne taken, fatesFrom_cons_of_fateAt_ne (here ▸ taken), here,
          inductionHypothesis]

/-! Captures with the same fates are taken alike. -/

theorem selectFrom_of_stop_le {size : Nat} {captures : List Capture}
    (inside : ∀ capture ∈ captures, capture.stop ≤ size) (more reach : Nat) :
    selectFrom (size + more) reach captures = selectFrom size reach captures := by
  rw [← filter_zip_fatesFrom, fatesFrom_of_stop_le inside, filter_zip_fatesFrom]

theorem selectFrom_shift (size offset reach : Nat) (captures : List Capture) :
    selectFrom (offset + size) reach (captures.map (Capture.shift offset)) =
      (selectFrom size (reach - offset) captures).map (Capture.shift offset) := by
  rw [← filter_zip_fatesFrom, fatesFrom_shift, List.zip_map_left, List.filter_map, List.map_map,
    ← filter_zip_fatesFrom size, List.map_map]
  rfl

theorem feedOrder_shift (offset : Nat) (found : List Match) :
    feedOrder (found.map (Match.shift offset)) = (feedOrder found).map (Capture.shift offset) := by
  rw [feedOrder, feedOrder, List.map_flatMap, List.flatMap_map]
  apply List.flatMap_congr
  intro captures _
  refine (map_sortedBy Capture.start Capture.start (Capture.shift offset) ?_ captures).symm
  intro first second
  exact Nat.add_le_add_iff_left.symm

/-! ### The captures of both sources -/

section Sources

variable (first second : Bytes) {before : List Match}

/-- The captures of the first source leave the pass inside it. -/
theorem reachAfter_sub_length (captures : List Capture) :
    reachAfter 0 (selectFrom first.length 0 captures) - first.length = 0 :=
  Nat.sub_eq_zero_of_le
    (reachAfter_le (consecutive_selectFrom first.length 0 captures) (Nat.zero_le _))

/-- In two sources side by side the captures of each are taken as in their own source. -/
theorem selected_append_shift
    (inside : ∀ capture ∈ feedOrder before, capture.stop ≤ first.length) (after : List Match) :
    selected (first ++ second).length
        (feedOrder (before ++ after.map (Match.shift first.length))) =
      selected first.length (feedOrder before) ++
        (selected second.length (feedOrder after)).map (Capture.shift first.length) := by
  simp only [selected_eq_selectFrom, feedOrder_append, feedOrder_shift, selectFrom_append,
    List.length_append, selectFrom_of_stop_le inside, selectFrom_shift, reachAfter_sub_length]

/-- In two sources side by side the captures of each have the fates as in their own source. -/
theorem fates_append_shift
    (inside : ∀ capture ∈ feedOrder before, capture.stop ≤ first.length) (after : List Match) :
    fates (first ++ second) (before ++ after.map (Match.shift first.length)) =
      fates first before ++ fates second after := by
  simp only [fates_eq, feedOrder_append, feedOrder_shift, fatesFrom_append, List.length_append,
    selectFrom_of_stop_le inside, fatesFrom_of_stop_le inside, fatesFrom_shift,
    reachAfter_sub_length]

/-! ### The script of both sources -/

theorem slice_append_of_le (start : Nat) {stop : Nat} (inside : stop ≤ first.length) :
    slice (first ++ second) start stop = slice first start stop := by
  by_cases empty : stop ≤ start
  · have none : stop - start = 0 := Nat.sub_eq_zero_of_le empty
    rw [slice, slice, none, List.take_zero, List.take_zero]
  · have begins : start ≤ first.length := Nat.le_trans (Nat.le_of_not_le empty) inside
    have length : stop - start ≤ (first.drop start).length := by
      rw [List.length_drop]
      exact Nat.sub_le_sub_right inside start
    rw [slice, slice, List.drop_append_of_le_length begins, List.take_append_of_le_length length]

theorem drop_append_add (start : Nat) :
    (first ++ second).drop (first.length + start) = second.drop start := by
  rw [← List.drop_drop, List.drop_left]

theorem slice_append_add (start stop : Nat) :
    slice (first ++ second) (first.length + start) (first.length + stop) =
      slice second start stop := by
  rw [slice, slice, drop_append_add, Nat.add_sub_add_left]

/-- A gap that begins in the first source and ends in the second. -/
theorem slice_append_across {start : Nat} (begins : start ≤ first.length) (stop : Nat) :
    slice (first ++ second) start (first.length + stop) =
      first.drop start ++ slice second 0 stop := by
  have front : slice (first ++ second) start first.length = first.drop start := by
    rw [slice_append_of_le first second start (Nat.le_refl _), slice, List.take_of_length_le]
    rw [List.length_drop]
  have back : slice (first ++ second) first.length (first.length + stop) = slice second 0 stop :=
    slice_append_add first second 0 stop
  rw [← front, ← back, slice_append _ begins (Nat.le_add_right _ _)]

/-- Behind the first source the script is that of the second. -/
theorem script_shift (theme : Theme) (reach : Nat) (taken : List Capture) :
    script theme (first ++ second) (first.length + reach)
        (taken.map (Capture.shift first.length)) =
      script theme second reach taken := by
  induction taken generalizing reach with
  | nil => exact congrArg (fun bytes => [Event.text bytes]) (drop_append_add first second reach)
  | cons capture rest inductionHypothesis =>
      have follows := inductionHypothesis capture.stop
      simp only [List.map_cons, script, Capture.shift, slice_append_add] at follows ⊢
      rw [follows]

/-- When the first source has no more captures, what is left of it and the beginning of the second
are one text. -/
theorem bytewise_script_across (theme : Theme) {reach : Nat} (begins : reach ≤ first.length)
    (others : List Capture) :
    bytewise (script theme (first ++ second) reach
        (others.map (Capture.shift first.length))) =
      bytewise (.text (first.drop reach) :: script theme second 0 others) := by
  cases others with
  | nil =>
      have joined : (first ++ second).drop reach = first.drop reach ++ second :=
        List.drop_append_of_le_length begins
      rw [List.map_nil, script, script, joined, List.drop_zero, bytewise_text_append]
      exact (bytewise_append [.text (first.drop reach)] [.text second]).symm
  | cons capture rest =>
      have gap := slice_append_across first second begins capture.start
      have follows := script_shift first second theme capture.stop rest
      simp only [List.map_cons, script, Capture.shift, gap, slice_append_add] at follows ⊢
      rw [follows]
      simp only [bytewise_cons, Event.atoms, List.map_append, List.append_assoc]

/-- The script of both sources is the one and then the other, up to how text is cut. -/
theorem bytewise_script_append (theme : Theme) {reach : Nat} {taken : List Capture}
    (consecutive : Consecutive first.length reach taken) (begins : reach ≤ first.length)
    (others : List Capture) :
    bytewise (script theme (first ++ second) reach
        (taken ++ others.map (Capture.shift first.length))) =
      bytewise (script theme first reach taken ++ script theme second 0 others) := by
  induction taken generalizing reach with
  | nil => exact bytewise_script_across first second theme begins others
  | cons capture rest inductionHypothesis =>
      obtain ⟨_, valid, follows⟩ := consecutive
      have startInside : capture.start ≤ first.length :=
        Nat.le_trans (Nat.le_of_lt valid.1) valid.2
      have told := inductionHypothesis follows valid.2
      have gap := slice_append_of_le first second reach startInside
      have range := slice_append_of_le first second capture.start valid.2
      simp only [List.cons_append, script, gap, range, bytewise_cons, told]

end Sources

/-! ### Writers -/

/-- No writer shows where text was cut. -/
theorem writeEvents_bytewise (theme : Theme) (events : List Event) (format : OutputFormat) :
    writeEvents theme (bytewise events) format = writeEvents theme events format := by
  cases format with
  | terminal => exact congrArg Prod.snd (Terminal.run_write_bytewise theme.labelStyle none events)
  | markup => exact congrArg Prod.snd (Markup.run_write_bytewise false events)

/-- A writer that comes back to a state after text and after a run is in it after a script. -/
theorem fst_run_script {State : Type} {write : Transducer State Event UInt8} {closed : State}
    (afterText : ∀ bytes, (write closed (.text bytes)).1 = closed)
    (afterRun : ∀ style bytes,
      (write.run closed [.openRun style, .text bytes, .closeRun]).1 = closed)
    (theme : Theme) (source : Bytes) (reach : Nat) (taken : List Capture) :
    (write.run closed (script theme source reach taken)).1 = closed := by
  induction taken generalizing reach with
  | nil => rw [script, Transducer.run_singleton, afterText]
  | cons capture rest inductionHypothesis =>
      have run := afterRun (theme.tagStyle capture.tag)
        (slice source capture.start capture.stop)
      have cut : script theme source reach (capture :: rest) =
          [.text (slice source reach capture.start)] ++
            [.openRun (theme.tagStyle capture.tag),
              .text (slice source capture.start capture.stop), .closeRun] ++
            script theme source capture.stop rest := rfl
      rw [cut, Transducer.run_append, Transducer.run_append, Transducer.run_singleton, afterText,
        run, inductionHypothesis]

/-- What follows a script is written as if it stood alone. -/
theorem writeEvents_script_append (theme : Theme) (source : Bytes) (reach : Nat)
    (taken : List Capture) (events : List Event) (format : OutputFormat) :
    writeEvents theme (script theme source reach taken ++ events) format =
      writeEvents theme (script theme source reach taken) format ++
        writeEvents theme events format := by
  cases format with
  | terminal =>
      have closed : ((Terminal.write theme.labelStyle).run none
          (script theme source reach taken)).1 = none :=
        fst_run_script (fun _ => rfl) (fun _ _ => rfl) theme source reach taken
      simp only [writeEvents, Transducer.run_append, closed]
  | markup =>
      have closed : (Markup.write.run false (script theme source reach taken)).1 = false :=
        fst_run_script (fun _ => rfl) (fun _ _ => rfl) theme source reach taken
      simp only [writeEvents, Transducer.run_append, closed]

/-! ### A rendering -/

/-- Without line numbers an output is that of the script of the selected captures. -/
theorem render_eq_writeEvents_script (source : Bytes) (found : List Match) (theme : Theme)
    (format : OutputFormat) :
    render source found theme ⟨format, false⟩ =
      writeEvents theme (script theme source 0 (selected source.length (feedOrder found)))
        format := by
  have noLabels : ((Walk.start source false).complete theme found).2.countP Event.isLabel = 0 := by
    rw [← length_placedLabels, Walk.placedLabels_complete]
    rfl
  have told : unlabelled ((Walk.start source false).complete theme found).2 =
      ((Walk.start source false).complete theme found).2 := by
    apply List.filter_eq_self.mpr
    intro event member
    simpa using List.countP_eq_zero.mp noLabels event member
  have output : render source found theme ⟨format, false⟩ =
      writeEvents theme ((Walk.start source false).complete theme found).2 format := rfl
  rw [output, ← writeEvents_bytewise, ← told, Walk.bytewise_unlabelled_complete,
    writeEvents_bytewise]

/-- When no capture of the first source reaches behind it, two sources side by side have their
outputs side by side and their counts together. -/
theorem render_append (first second : Bytes) (before after : List Match) (theme : Theme)
    (format : OutputFormat)
    (inside : ∀ captures ∈ before, ∀ capture ∈ captures, capture.stop ≤ first.length) :
    let one := renderWithStatistics first before theme ⟨format, false⟩
    let two := renderWithStatistics second after theme ⟨format, false⟩
    renderWithStatistics (first ++ second) (before ++ after.map (Match.shift first.length)) theme
        ⟨format, false⟩ =
      (one.1 ++ two.1, one.2.plus two.2) := by
  intro one two
  have insideOrder : ∀ capture ∈ feedOrder before, capture.stop ≤ first.length := by
    intro capture member
    obtain ⟨captures, among, isMember⟩ := mem_feedOrder_iff.mp member
    exact inside captures among capture isMember
  have consecutive := consecutive_selected first.length (feedOrder before)
  have output : render (first ++ second) (before ++ after.map (Match.shift first.length)) theme
      ⟨format, false⟩ = one.1 ++ two.1 := by
    have outputOne : one.1 = _ := render_eq_writeEvents_script first before theme format
    have outputTwo : two.1 = _ := render_eq_writeEvents_script second after theme format
    rw [render_eq_writeEvents_script, selected_append_shift first second insideOrder,
      ← writeEvents_bytewise,
      bytewise_script_append first second theme consecutive (Nat.zero_le _), writeEvents_bytewise,
      writeEvents_script_append, outputOne, outputTwo]
  have counts : (renderWithStatistics (first ++ second)
      (before ++ after.map (Match.shift first.length)) theme ⟨format, false⟩).2 =
        one.2.plus two.2 := by
    have countsOne : one.2 = _ := statistics_eq_fates first before theme ⟨format, false⟩
    have countsTwo : two.2 = _ := statistics_eq_fates second after theme ⟨format, false⟩
    rw [statistics_eq_fates, fates_append_shift first second insideOrder, countsOne, countsTwo]
    simp [Tally.counting, Statistics.plus]
  exact Prod.ext output counts

/-- Plain text on both sides of where the sources meet, and a capture that leaves the second. -/
theorem render_append_adjacent :
    let first := Utf8.encode "if <"
    let second := Utf8.encode "x = 1"
    let before : List Match := [[⟨"keyword", 0, 2⟩], [⟨"string", 1, 1⟩]]
    let after : List Match := [[⟨"number", 4, 5⟩], [⟨"comment", 4, 6⟩]]
    let one := renderWithStatistics first before Theme.standard ⟨.markup, false⟩
    let two := renderWithStatistics second after Theme.standard ⟨.markup, false⟩
    (∀ captures ∈ before, ∀ capture ∈ captures, capture.stop ≤ first.length) ∧
      renderWithStatistics (first ++ second)
          [[⟨"keyword", 0, 2⟩], [⟨"string", 1, 1⟩], [⟨"number", 8, 9⟩], [⟨"comment", 8, 10⟩]]
          Theme.standard ⟨.markup, false⟩ =
        (one.1 ++ two.1, one.2.plus two.2) := by
  intro first second before after one two
  have inside : ∀ captures ∈ before, ∀ capture ∈ captures, capture.stop ≤ first.length := by
    decide
  exact ⟨inside, render_append first second before after Theme.standard .markup inside⟩

end CodeHighlight
