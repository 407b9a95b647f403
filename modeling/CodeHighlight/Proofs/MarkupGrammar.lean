/-
Module: CodeHighlight.Proofs.MarkupGrammar
Purpose: The language of markup output.  A document is a sequence of items and class spans.  An
  item is a character, escaped where it must be, or a line label; a class span holds items only,
  and at least one character.  No byte of a source or of a tag can leave this language.
Main exports:
  plainByte, character, blank, digit, lineLabel, item, classSpan, document, escape_mem_items,
  label_mem_lineLabel, run_write_inline, run_write_segment, render_mem_document
-/
import CodeHighlight.Proofs.GreedyResolution
import CodeHighlight.Proofs.MarkupText
import Mathlib.Computability.Language

/-- Sets of byte texts, with concatenation and repetition. -/
abbrev ByteLanguage : Type :=
  Language UInt8

namespace CodeHighlight.Markup

open scoped Computability

/-! ### The grammar -/

/-- A byte that is not `<`, `>` or `&`. -/
def plainByte : ByteLanguage :=
  {text | ∃ byte : UInt8, (byte ≠ 0x3C ∧ byte ≠ 0x3E ∧ byte ≠ 0x26) ∧ text = [byte]}

/-- A plain byte, or the entity of one that is not plain. -/
def character : ByteLanguage :=
  plainByte + {Utf8.encode "&amp;"} + {Utf8.encode "&lt;"} + {Utf8.encode "&gt;"}

/-- A space. -/
def blank : ByteLanguage :=
  {Utf8.encode " "}

/-- A decimal digit. -/
def digit : ByteLanguage :=
  {text | ∃ byte : UInt8, (0x30 ≤ byte ∧ byte ≤ 0x39) ∧ text = [byte]}

/-- A span of the label class with spaces and then a decimal number. -/
def lineLabel : ByteLanguage :=
  {Utf8.encode "<span class=\"line-number\">"} * blank∗ * (digit * digit∗) *
    {Utf8.encode "</span>"}

/-- A character or a line label. -/
def item : ByteLanguage :=
  character + lineLabel

/-- A span of a highlight class with items in it, at least one of them a character. -/
def classSpan : ByteLanguage :=
  {text | ∃ highlightClass : HighlightClass,
    text ∈ {Utf8.encode "<span class=\""} * {Utf8.encode highlightClass.styleName} *
      {Utf8.encode "\">"} * (item∗ * character * item∗) * {Utf8.encode "</span>"}}

/-- Items and class spans in any order. -/
def document : ByteLanguage :=
  (item + classSpan)∗

theorem append_mem_kstar {language : ByteLanguage} {first second : Bytes}
    (one : first ∈ language∗) (two : second ∈ language∗) : first ++ second ∈ language∗ := by
  rw [← kstar_mul_kstar language]
  exact Language.append_mem_mul one two

theorem mem_kstar_of_mem {language : ByteLanguage} {text : Bytes} (one : text ∈ language) :
    text ∈ language∗ :=
  (le_kstar : language ≤ language∗) one

/-- Pieces of a language, one for each of a list, make up a repetition of it. -/
theorem flatMap_mem_kstar {Piece : Type} {language : ByteLanguage} {image : Piece → Bytes}
    {pieces : List Piece} (each : ∀ piece ∈ pieces, image piece ∈ language) :
    pieces.flatMap image ∈ language∗ := by
  rw [List.flatMap_def]
  apply Language.join_mem_kstar
  intro text member
  obtain ⟨piece, among, same⟩ := List.mem_map.mp member
  rw [← same]
  exact each piece among

/-- Bytes that are each of a language make up a repetition of it. -/
theorem mem_kstar_of_singletons {language : ByteLanguage} {bytes : Bytes}
    (each : ∀ byte ∈ bytes, [byte] ∈ language) : bytes ∈ language∗ := by
  have whole := flatMap_mem_kstar each
  rwa [List.flatMap_singleton'] at whole

theorem append_mem_document {first second : Bytes} (one : first ∈ document)
    (two : second ∈ document) : first ++ second ∈ document :=
  append_mem_kstar one two

theorem mem_document_of_mem_items {text : Bytes} (items : text ∈ item∗) : text ∈ document :=
  kstar_mono (le_self_add : item ≤ item + classSpan) items

theorem mem_document_of_mem_classSpan {text : Bytes} (span : text ∈ classSpan) :
    text ∈ document :=
  mem_kstar_of_mem (Or.inr span)

/-! ### Text and labels -/

theorem escaped_mem_character (byte : UInt8) : escaped byte ∈ character := by
  rcases escaped_cases byte with ⟨_, same⟩ | ⟨_, same⟩ | ⟨_, same⟩ | ⟨others, same⟩
  · rw [same]
    exact Or.inl (Or.inl (Or.inr rfl))
  · rw [same]
    exact Or.inl (Or.inr rfl)
  · rw [same]
    exact Or.inr rfl
  · rw [same]
    exact Or.inl (Or.inl (Or.inl ⟨byte, ⟨others.2.1, others.2.2, others.1⟩, rfl⟩))

theorem escape_mem_items (text : Bytes) : escape text ∈ item∗ := by
  rw [escape_eq]
  apply flatMap_mem_kstar
  intro byte _
  exact Or.inl (escaped_mem_character byte)

theorem digits_mem (number : Nat) : Decimal.digits number ∈ digit * digit∗ := by
  have single : ∀ byte ∈ Decimal.digits number, [byte] ∈ digit := by
    intro byte member
    exact ⟨byte, Decimal.bounds_of_mem_digits member, rfl⟩
  cases cut : Decimal.digits number with
  | nil => exact absurd cut (Decimal.digits_ne_nil number)
  | cons first rest =>
      rw [cut] at single
      apply Language.append_mem_mul (single first List.mem_cons_self)
      apply mem_kstar_of_singletons
      intro byte member
      exact single byte (List.mem_cons_of_mem _ member)

theorem label_mem_lineLabel (line width : Nat) : label line width ∈ lineLabel := by
  have blanks : ∀ count, List.replicate count (0x20 : UInt8) ∈ blank∗ := by
    intro count
    apply mem_kstar_of_singletons
    intro byte member
    rw [List.eq_of_mem_replicate member]
    rfl
  have number := Language.append_mem_mul
    (blanks (width - (Decimal.digits line).length)) (digits_mem line)
  have opened : spanStart labelClass ++ Decimal.rightJustified width line ∈
      {Utf8.encode "<span class=\"line-number\">"} * blank∗ * (digit * digit∗) := by
    rw [mul_assoc]
    exact Language.append_mem_mul rfl number
  exact Language.append_mem_mul opened rfl

/-! ### Instructions -/

/-- Text and labels leave the writer as it is and become items; with any text, at least one of
them is a character. -/
theorem run_write_inline (spanOpen : Writer) (events : List Event)
    (inline : ∀ event ∈ events, event.isBracket = false) :
    (write.run spanOpen events).1 = spanOpen ∧
      (write.run spanOpen events).2 ∈ item∗ ∧
      (textOf events ≠ [] → (write.run spanOpen events).2 ∈ item∗ * character * item∗) := by
  induction events with
  | nil => exact ⟨rfl, Language.nil_mem_kstar _, fun nonempty => absurd rfl nonempty⟩
  | cons event rest inductionHypothesis =>
      obtain ⟨state, items, full⟩ := inductionHypothesis fun later member =>
        inline later (List.mem_cons_of_mem _ member)
      rw [Transducer.run_cons, textOf_cons]
      cases event with
      | openRun style => cases inline (.openRun style) List.mem_cons_self
      | closeRun => cases inline .closeRun List.mem_cons_self
      | label line width =>
          have front : label line width ∈ item∗ :=
            mem_kstar_of_mem (Or.inr (label_mem_lineLabel line width))
          refine ⟨state, append_mem_kstar front items, ?_⟩
          intro nonempty
          obtain ⟨before, mem, after, memAfter, joined⟩ := Language.mem_mul.mp (full nonempty)
          obtain ⟨one, memOne, two, memTwo, joinedBefore⟩ := Language.mem_mul.mp mem
          have moved : label line width ++ one ∈ item∗ := append_mem_kstar front memOne
          have whole := Language.append_mem_mul (Language.append_mem_mul moved memTwo) memAfter
          simp only [write]
          rw [← joined, ← joinedBefore]
          simpa only [List.append_assoc] using whole
      | text bytes =>
          refine ⟨state, append_mem_kstar (escape_mem_items bytes) items, ?_⟩
          intro nonempty
          cases bytes with
          | nil => exact full nonempty
          | cons byte others =>
              have after := append_mem_kstar (escape_mem_items others) items
              have whole := Language.append_mem_mul
                (Language.append_mem_mul (Language.nil_mem_kstar item)
                  (escaped_mem_character byte)) after
              simp only [write]
              rw [escape_cons, List.append_assoc]
              exact whole

/-- A segment that is not empty becomes part of a document, and its span is closed. -/
theorem run_write_segment (theme : Theme) (numbering : LineNumbering) {segment : Segment}
    (nonempty : segment.bytes ≠ []) :
    (write.run false (LineNumbering.readSegment theme numbering segment).2).1 = false ∧
      (write.run false (LineNumbering.readSegment theme numbering segment).2).2 ∈ document := by
  cases segment with
  | plain bytes =>
      obtain ⟨state, items, _⟩ :=
        run_write_inline false _ (LineNumbering.isBracket_write numbering bytes)
      exact ⟨state, mem_document_of_mem_items items⟩
  | tagged tag bytes =>
      obtain ⟨labelState, labelItems, _⟩ :=
        run_write_inline false _ (LineNumbering.isBracket_mark numbering)
      have full : textOf (numbering.mark.1.write bytes).2 ≠ [] := by
        rw [LineNumbering.textOf_write]
        exact nonempty
      simp only [LineNumbering.readSegment, Transducer.run_append, Transducer.run_singleton,
        labelState]
      cases markup : (theme.tagStyle tag).markup with
      | none =>
          obtain ⟨state, items, _⟩ :=
            run_write_inline false _ (LineNumbering.isBracket_write numbering.mark.1 bytes)
          have whole := mem_document_of_mem_items (append_mem_kstar labelItems items)
          simpa [write, markup, state] using whole
      | some highlightClass =>
          obtain ⟨state, _, items⟩ :=
            run_write_inline true _ (LineNumbering.isBracket_write numbering.mark.1 bytes)
          have opening : spanStart highlightClass.styleName ∈
              ({Utf8.encode "<span class=\""} * {Utf8.encode highlightClass.styleName} *
                {Utf8.encode "\">"} : ByteLanguage) :=
            Language.append_mem_mul (Language.append_mem_mul rfl rfl) rfl
          have span : spanStart highlightClass.styleName ++
              (write.run true (numbering.mark.1.write bytes).2).2 ++ spanEnd ∈ classSpan :=
            ⟨highlightClass, Language.append_mem_mul
              (Language.append_mem_mul opening (items full)) rfl⟩
          have whole := append_mem_document (mem_document_of_mem_items labelItems)
            (mem_document_of_mem_classSpan span)
          simpa [write, markup, state] using whole

theorem run_write_segments (theme : Theme) (numbering : LineNumbering) (segments : List Segment)
    (nonempty : ∀ segment ∈ segments, segment.bytes ≠ []) :
    (write.run false ((LineNumbering.readSegment theme).run numbering segments).2).2 ∈
      document := by
  induction segments generalizing numbering with
  | nil => exact Language.nil_mem_kstar _
  | cons segment rest inductionHypothesis =>
      obtain ⟨state, front⟩ :=
        run_write_segment theme numbering (nonempty segment List.mem_cons_self)
      have others := inductionHypothesis (LineNumbering.readSegment theme numbering segment).1
        fun later member => nonempty later (List.mem_cons_of_mem _ member)
      rw [Transducer.run_cons, Transducer.run_append, state]
      exact append_mem_document front others

/-- Markup output is a document, whatever the source and the tags are. -/
theorem render_mem_document (source : Bytes) (found : List Match) (theme : Theme)
    (lineNumbers : Bool) : render source found theme ⟨.markup, lineNumbers⟩ ∈ document := by
  have told : render source found theme ⟨.markup, lineNumbers⟩ =
      (write.run false ((Walk.start source lineNumbers).complete theme found).2).2 := rfl
  rw [told, Walk.snd_complete]
  exact run_write_segments theme _ _ bytes_ne_nil_of_mem_segmentsOf

end CodeHighlight.Markup
