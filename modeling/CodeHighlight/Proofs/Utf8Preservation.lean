/-
Module: CodeHighlight.Proofs.Utf8Preservation
Purpose: Valid text stays valid text.  When no valid capture begins or ends inside of a character,
  every piece that a writer is told of is valid: runs and gaps are cut at captures, and text is
  cut behind newlines.  What the writers add is text of their own, and so is the page around it.
Main exports:
  valid_of_mem_segmentsOf, valid_of_mem_write, valid_of_mem_run_readSegment,
  valid_run_write, Terminal.valid_write, Markup.valid_escape, Markup.valid_write, Page.valid_wrap,
  valid_render
-/
import CodeHighlight.Page
import CodeHighlight.Proofs.CharacterBoundary
import CodeHighlight.Proofs.MarkupText
import CodeHighlight.Proofs.TerminalText

namespace CodeHighlight

open Utf8 (Valid IsBoundary)

/-! ### Segments -/

/-- No capture begins or ends inside of a character of the source. -/
def Capture.KeepsCharacters (source : Bytes) (capture : Capture) : Prop :=
  IsBoundary source capture.start ∧ IsBoundary source capture.stop

instance (source : Bytes) (capture : Capture) : Decidable (capture.KeepsCharacters source) :=
  inferInstanceAs (Decidable (_ ∧ _))

theorem valid_of_mem_plainPiece {bytes : Bytes} (valid : Valid bytes) :
    ∀ segment ∈ plainPiece bytes, Valid segment.bytes := by
  intro segment member
  unfold plainPiece at member
  split at member
  · cases member
  · rw [List.mem_singleton.mp member]
    exact valid

section Segments

variable {source : Bytes}

/-- A pass that takes captures without cutting characters stands at a boundary. -/
theorem isBoundary_reachAfter {reach : Nat} {taken : List Capture}
    (here : IsBoundary source reach)
    (kept : ∀ capture ∈ taken, capture.KeepsCharacters source) :
    IsBoundary source (reachAfter reach taken) := by
  induction taken generalizing reach with
  | nil => exact here
  | cons capture rest inductionHypothesis =>
      apply inductionHypothesis
      · exact (kept capture List.mem_cons_self).2
      · intro later member
        exact kept later (List.mem_cons_of_mem _ member)

theorem valid_of_mem_segmentsFrom (valid : Valid source) {reach : Nat} {taken : List Capture}
    (here : IsBoundary source reach) (consecutive : Consecutive source.length reach taken)
    (kept : ∀ capture ∈ taken, capture.KeepsCharacters source) :
    ∀ segment ∈ segmentsFrom source reach taken, Valid segment.bytes := by
  induction taken generalizing reach with
  | nil =>
      intro segment member
      cases member
  | cons capture rest inductionHypothesis =>
      obtain ⟨begins, inside, follows⟩ := consecutive
      obtain ⟨first, last⟩ := kept capture List.mem_cons_self
      intro segment member
      rw [segmentsFrom, List.mem_append, List.mem_cons] at member
      rcases member with gap | range | later
      · exact valid_of_mem_plainPiece (valid.slice here first begins) segment gap
      · rw [range]
        exact valid.slice first last (Nat.le_of_lt inside.1)
      · apply inductionHypothesis last follows _ segment later
        intro other among
        exact kept other (List.mem_cons_of_mem _ among)

/-- The segments of a valid source are valid when no valid capture cuts a character. -/
theorem valid_of_mem_segmentsOf (valid : Valid source) {found : List Match}
    (kept : ∀ captures ∈ found, ∀ capture ∈ captures, capture.ValidFor source.length →
      capture.KeepsCharacters source) :
    ∀ segment ∈ segmentsOf source found, Valid segment.bytes := by
  have consecutive := consecutive_selectFrom source.length 0 (feedOrder found)
  have keptTaken : ∀ capture ∈ selectFrom source.length 0 (feedOrder found),
      capture.KeepsCharacters source := by
    intro capture member
    obtain ⟨captures, isFound, among⟩ := mem_feedOrder_iff.mp (mem_of_mem_selectFrom member)
    apply kept captures isFound capture among
    exact validFor_of_mem_consecutive consecutive capture member
  have begins : IsBoundary source 0 := valid.isBoundary_zero
  intro segment member
  rcases List.mem_append.mp member with taken | rest
  · exact valid_of_mem_segmentsFrom valid begins consecutive keptTaken segment taken
  · apply valid_of_mem_plainPiece _ segment rest
    exact (valid.cut (isBoundary_reachAfter begins keptTaken)).2

end Segments

/-! ### Events -/

namespace LineNumbering

theorem valid_of_mem_mark (numbering : LineNumbering) :
    ∀ event ∈ numbering.mark.2, Valid event.textBytes := by
  intro event member
  unfold mark at member
  split at member
  · rw [List.mem_singleton.mp member]
    exact Utf8.valid_nil
  · cases member

/-- Valid bytes are written in valid pieces. -/
theorem valid_of_mem_write (numbering : LineNumbering) {bytes : Bytes} (valid : Valid bytes) :
    ∀ event ∈ (numbering.write bytes).2, Valid event.textBytes := by
  cases enabled : numbering.enabled with
  | false =>
      rw [write_of_disabled enabled]
      intro event member
      rw [List.mem_singleton.mp member]
      exact valid
  | true =>
      rw [write_of_enabled enabled]
      apply Transducer.forall_mem_run writePiece (fun event => Valid event.textBytes)
      intro line isLine state event member
      rcases List.mem_append.mp member with label | text
      · exact valid_of_mem_mark state event label
      · rw [List.mem_singleton.mp text]
        exact valid.of_mem_lines line isLine

theorem valid_of_mem_run_readSegment (theme : Theme) (numbering : LineNumbering)
    {segments : List Segment} (valid : ∀ segment ∈ segments, Valid segment.bytes) :
    ∀ event ∈ ((readSegment theme).run numbering segments).2, Valid event.textBytes := by
  apply Transducer.forall_mem_run (readSegment theme) (fun event => Valid event.textBytes)
  intro segment among state event member
  have validSegment := valid segment among
  cases segment with
  | plain bytes => exact valid_of_mem_write state validSegment event member
  | tagged tag bytes =>
      simp only [readSegment, List.mem_append, List.mem_singleton] at member
      rcases member with ((label | opening) | body) | closing
      · exact valid_of_mem_mark state event label
      · rw [opening]
        exact Utf8.valid_nil
      · exact valid_of_mem_write state.mark.1 validSegment event body
      · rw [closing]
        exact Utf8.valid_nil

end LineNumbering

/-! ### Writers -/

/-- A writer that makes valid text of every event with valid text makes it of all of them. -/
theorem valid_run_write {Writer : Type} (write : Transducer Writer Event UInt8)
    (each : ∀ state event, Valid event.textBytes → Valid (write state event).2)
    (state : Writer) {events : List Event} (valid : ∀ event ∈ events, Valid event.textBytes) :
    Valid (write.run state events).2 := by
  apply Transducer.holds_run write Valid Utf8.valid_nil
  · intro first second one two
    exact one.append two
  · intro event member state
    exact each state event (valid event member)

theorem valid_rightJustified (width number : Nat) :
    Valid (Decimal.rightJustified width number) := by
  apply Utf8.valid_of_ascii
  intro byte member
  rcases Decimal.mem_rightJustified member with blank | digit
  · rw [blank]
    decide
  · exact UInt8.lt_of_le_of_lt digit.2 (by decide)

namespace Terminal

theorem valid_sequence (parameters : List Nat) : Valid (graphicSequence parameters) := by
  apply Utf8.valid_of_ascii
  intro byte member
  simp only [graphicSequence, List.mem_cons, List.mem_append, List.not_mem_nil,
    or_false] at member
  rcases member with escape | bracket | parameter | final
  · rw [escape]
    decide
  · rw [bracket]
    decide
  · rcases mem_intercalate_digits parameter with separator | digit
    · rw [separator]
      decide
    · exact UInt8.lt_of_le_of_lt digit.2 (by decide)
  · rw [final]
    decide

theorem valid_write (labelStyle : Style) (active : Writer) (event : Event)
    (valid : Valid event.textBytes) : Valid (write labelStyle active event).2 := by
  cases event with
  | openRun style => exact valid_sequence _
  | closeRun => exact valid_sequence _
  | text bytes => exact valid
  | label line width =>
      have number : Valid (label labelStyle line width) := by
        apply Valid.append
        · apply Valid.append
          · apply Valid.append
            · exact (valid_sequence _).append (valid_rightJustified width line)
            · exact Utf8.valid_encode "│"
          · exact valid_sequence _
        · exact Utf8.valid_encode " "
      apply number.append
      cases active with
      | none => exact Utf8.valid_nil
      | some style => exact valid_sequence _

end Terminal

namespace Markup

/-- An entity stands for a whole character, so escaping keeps text valid. -/
theorem valid_escape {bytes : Bytes} (valid : Valid bytes) : Valid (escape bytes) := by
  obtain ⟨characters, rfl⟩ := Utf8.valid_iff_characters.mp valid
  clear valid
  induction characters with
  | nil => exact Utf8.valid_nil
  | cons character rest inductionHypothesis =>
      rw [List.flatMap_cons, escape_append]
      apply Valid.append _ inductionHypothesis
      have single : Valid (String.utf8EncodeChar character) := Utf8.valid_character character
      by_cases special : ∃ byte ∈ String.utf8EncodeChar character, escaped byte ≠ [byte]
      · -- The bytes with an entity are characters by themselves.
        obtain ⟨byte, member, other⟩ := special
        have entity : byte < 0x80 ∧ Valid (escaped byte) := by
          rcases escaped_cases byte with ⟨is, same⟩ | ⟨is, same⟩ | ⟨is, same⟩ | ⟨_, same⟩
          · exact ⟨is ▸ by decide, same ▸ Utf8.valid_encode _⟩
          · exact ⟨is ▸ by decide, same ▸ Utf8.valid_encode _⟩
          · exact ⟨is ▸ by decide, same ▸ Utf8.valid_encode _⟩
          · exact absurd same other
        rw [Utf8.character_of_mem member entity.1, escape_eq, List.flatMap_singleton]
        exact entity.2
      · have unchanged : escape (String.utf8EncodeChar character) =
            String.utf8EncodeChar character := by
          rw [escape_eq, List.flatMap_congr (g := fun byte => [byte]), List.flatMap_singleton']
          intro byte member
          by_contra other
          exact special ⟨byte, member, other⟩
        rw [unchanged]
        exact single

theorem valid_write (spanOpen : Writer) (event : Event) (valid : Valid event.textBytes) :
    Valid (write spanOpen event).2 := by
  have spanStarts : ∀ className, Valid (spanStart className) := by
    intro className
    apply Valid.append
    · exact (Utf8.valid_encode _).append (Utf8.valid_encode _)
    · exact Utf8.valid_encode _
  cases event with
  | openRun style =>
      simp only [write]
      split
      · exact spanStarts _
      · exact Utf8.valid_nil
  | closeRun =>
      simp only [write]
      split
      · exact Utf8.valid_encode "</span>"
      · exact Utf8.valid_nil
  | text bytes => exact valid_escape valid
  | label line width =>
      apply Valid.append
      · exact (spanStarts labelClass).append (valid_rightJustified width line)
      · exact Utf8.valid_encode "</span>"

end Markup

/-- A page around valid text is valid. -/
theorem Page.valid_wrap (page : Page) {body : Bytes} (valid : Valid body) :
    Valid (page.wrap body) := by
  unfold wrap
  split
  · exact ((Utf8.valid_encode _).append valid).append (Utf8.valid_encode _)
  · exact ((Utf8.valid_encode _).append valid).append (Utf8.valid_encode _)

/-! ### A rendering -/

/-- A valid source is rendered as valid text when no valid capture begins or ends inside of a
character, and so is every page around it. -/
theorem valid_render {source : Bytes} (valid : Valid source) {found : List Match}
    (kept : ∀ captures ∈ found, ∀ capture ∈ captures, capture.ValidFor source.length →
      capture.KeepsCharacters source)
    (theme : Theme) (settings : RenderSettings) (page : Page) :
    Valid (render source found theme settings) ∧
      Valid (page.wrap (render source found theme settings)) := by
  have told : ∀ event ∈ ((Walk.start source settings.lineNumbers).complete theme found).2,
      Valid event.textBytes := by
    rw [Walk.snd_complete]
    apply LineNumbering.valid_of_mem_run_readSegment
    exact valid_of_mem_segmentsOf valid kept
  have rendered : Valid (render source found theme settings) := by
    rcases settings with ⟨format, lineNumbers⟩
    cases format with
    | terminal => exact valid_run_write _ (Terminal.valid_write theme.labelStyle) none told
    | markup => exact valid_run_write _ Markup.valid_write false told
  exact ⟨rendered, page.valid_wrap rendered⟩

/-- A run ends behind the newline after a letter of two bytes.  A capture that begins inside of
that letter leaves the source, so it makes no difference. -/
theorem valid_render_accented :
    let source := Utf8.encode "é\n<"
    let found : List Match := [[⟨"comment", 1, 9⟩, ⟨"string", 0, 3⟩], [⟨"type", 3, 4⟩]]
    let body := render source found Theme.standard ⟨.markup, true⟩
    Valid source ∧
      (∀ captures ∈ found, ∀ capture ∈ captures, capture.ValidFor source.length →
        capture.KeepsCharacters source) ∧
      Valid body ∧ Valid ((Page.ofTheme Theme.standard).wrap body) := by
  intro source found body
  have valid : Valid source := Utf8.valid_encode _
  have kept : ∀ captures ∈ found, ∀ capture ∈ captures, capture.ValidFor source.length →
      capture.KeepsCharacters source := by decide +kernel
  exact ⟨valid, kept, valid_render valid kept Theme.standard ⟨.markup, true⟩ _⟩

end CodeHighlight
