/-
Module: CodeHighlight.Proofs.MarkupText
Purpose: Reading the source back from markup.  A reader of the flat output removes the line
  labels, then the tags, and then decodes the three entities; it is left with the source.  No
  escaped byte can be taken for a part of a tag or of a label, since none is `<` or `>`, and
  decoding from left to right meets every entity where it was written.
Main exports:
  withoutLabels, withoutTags, unescape, entities, escaped_cases, lessThan_notMem_escape,
  unescape_escape, exists_entity_isPrefix, escape_encodes, withoutLabels_run_write,
  withoutTags_run_write, unescape_run_write, unescape_withoutTags_withoutLabels_render
-/
import CodeHighlight.Proofs.GreedyResolution
import CodeHighlight.Proofs.Passage

namespace CodeHighlight.Markup

/-! ### The reader -/

/-- The text without its line labels. -/
def withoutLabels (text : Bytes) : Bytes :=
  withoutPassages (Utf8.encode "<span class=\"line-number\">") (Utf8.encode "</span>") text

/-- The text without its tags. -/
def withoutTags (text : Bytes) : Bytes :=
  withoutPassages (Utf8.encode "<") (Utf8.encode ">") text

/-- Decodes entities from left to right.  Everything else stays. -/
def unescape : Bytes → Bytes
  | [] => []
  | byte :: rest =>
      if (Utf8.encode "&amp;").isPrefixOf (byte :: rest) then 0x26 :: unescape (rest.drop 4)
      else if (Utf8.encode "&lt;").isPrefixOf (byte :: rest) then 0x3C :: unescape (rest.drop 3)
      else if (Utf8.encode "&gt;").isPrefixOf (byte :: rest) then 0x3E :: unescape (rest.drop 3)
      else byte :: unescape rest
termination_by text => text.length
decreasing_by all_goals simp only [List.length_drop, List.length_cons]; omega

/-- The entities that are decoded. -/
def entities : List Bytes :=
  [Utf8.encode "&amp;", Utf8.encode "&lt;", Utf8.encode "&gt;"]

/-! ### Escaped text -/

/-- The entity of a byte, or the byte itself. -/
theorem escaped_cases (byte : UInt8) :
    byte = 0x26 ∧ escaped byte = Utf8.encode "&amp;" ∨
      byte = 0x3C ∧ escaped byte = Utf8.encode "&lt;" ∨
      byte = 0x3E ∧ escaped byte = Utf8.encode "&gt;" ∨
      (byte ≠ 0x26 ∧ byte ≠ 0x3C ∧ byte ≠ 0x3E) ∧ escaped byte = [byte] := by
  unfold escaped entity?
  by_cases ampersand : byte = 0x26
  · exact Or.inl ⟨ampersand, by rw [if_pos ampersand]; rfl⟩
  · rw [if_neg ampersand]
    by_cases lessThan : byte = 0x3C
    · exact Or.inr (Or.inl ⟨lessThan, by rw [if_pos lessThan]; rfl⟩)
    · rw [if_neg lessThan]
      by_cases greaterThan : byte = 0x3E
      · exact Or.inr (Or.inr (Or.inl ⟨greaterThan, by rw [if_pos greaterThan]; rfl⟩))
      · refine Or.inr (Or.inr (Or.inr ⟨⟨ampersand, lessThan, greaterThan⟩, ?_⟩))
        rw [if_neg greaterThan]
        rfl

theorem escaped_mem_entities_or (byte : UInt8) :
    escaped byte ∈ entities ∨
      (byte ≠ 0x26 ∧ byte ≠ 0x3C ∧ byte ≠ 0x3E) ∧ escaped byte = [byte] := by
  rcases escaped_cases byte with ⟨_, same⟩ | ⟨_, same⟩ | ⟨_, same⟩ | others
  · exact Or.inl (by rw [same]; decide)
  · exact Or.inl (by rw [same]; decide)
  · exact Or.inl (by rw [same]; decide)
  · exact Or.inr others

/-- No escaped byte begins or ends a tag. -/
theorem ne_of_mem_escape {text : Bytes} {byte : UInt8} (member : byte ∈ escape text) :
    byte ≠ 0x3C ∧ byte ≠ 0x3E := by
  have unmarked : ∀ entity ∈ entities, (0x3C : UInt8) ∉ entity ∧ (0x3E : UInt8) ∉ entity := by
    decide
  rw [escape_eq] at member
  obtain ⟨source, _, inEscaped⟩ := List.mem_flatMap.mp member
  rcases escaped_mem_entities_or source with isEntity | ⟨others, same⟩
  · have absent := unmarked _ isEntity
    exact ⟨ne_of_mem_of_not_mem inEscaped absent.1, ne_of_mem_of_not_mem inEscaped absent.2⟩
  · rw [same, List.mem_singleton] at inEscaped
    rw [inEscaped]
    exact others.2

theorem lessThan_notMem_escape (text : Bytes) : (0x3C : UInt8) ∉ escape text :=
  fun member => (ne_of_mem_escape member).1 rfl

theorem greaterThan_notMem_escape (text : Bytes) : (0x3E : UInt8) ∉ escape text :=
  fun member => (ne_of_mem_escape member).2 rfl

/-- An escaped byte is decoded to that byte, whatever follows it. -/
theorem unescape_escaped_append (byte : UInt8) (rest : Bytes) :
    unescape (escaped byte ++ rest) = byte :: unescape rest := by
  rcases escaped_cases byte with ⟨is, same⟩ | ⟨is, same⟩ | ⟨is, same⟩ | ⟨others, same⟩
  · have cut : Utf8.encode "&amp;" ++ rest = 0x26 :: 0x61 :: 0x6D :: 0x70 :: 0x3B :: rest := rfl
    rw [same, is, cut, unescape]
    rfl
  · have cut : Utf8.encode "&lt;" ++ rest = 0x26 :: 0x6C :: 0x74 :: 0x3B :: rest := rfl
    rw [same, is, cut, unescape]
    rfl
  · have cut : Utf8.encode "&gt;" ++ rest = 0x26 :: 0x67 :: 0x74 :: 0x3B :: rest := rfl
    rw [same, is, cut, unescape]
    rfl
  · have ampersand : byte ≠ 0x26 := others.1
    rw [same, List.cons_append, unescape, isPrefixOf_cons_of_ne rfl ampersand,
      isPrefixOf_cons_of_ne rfl ampersand, isPrefixOf_cons_of_ne rfl ampersand]
    rfl

theorem unescape_escape (text : Bytes) : unescape (escape text) = text := by
  induction text with
  | nil => rw [escape_nil, unescape]
  | cons byte rest inductionHypothesis =>
      rw [escape_cons, unescape_escaped_append, inductionHypothesis]

/-!
### Ampersands

An ampersand in escaped text is the first byte of an entity, since entities have no other one.  The
ends of the text that begin with it are followed through the escaped bytes.
-/

/-- What a byte becomes begins with its only ampersand, or has none. -/
theorem escaped_ampersand (byte : UInt8) :
    (∃ letters, (0x26 : UInt8) ∉ letters ∧ escaped byte = 0x26 :: letters ∧
        0x26 :: letters ∈ entities) ∨
      (0x26 : UInt8) ∉ escaped byte := by
  have shape : ∀ entity ∈ entities,
      entity = 0x26 :: entity.tail ∧ (0x26 : UInt8) ∉ entity.tail := by
    decide
  rcases escaped_mem_entities_or byte with isEntity | ⟨others, same⟩
  · obtain ⟨begins, absent⟩ := shape _ isEntity
    exact Or.inl ⟨(escaped byte).tail, absent, begins, begins ▸ isEntity⟩
  · apply Or.inr
    rw [same, List.mem_singleton]
    exact Ne.symm others.1

/-- An end of a text that begins with a byte lies within the end of the text in which the byte
occurs. -/
theorem cons_isSuffix_of_notMem {mark : UInt8} {front back after : Bytes} (absent : mark ∉ front)
    (isEnd : mark :: after <:+ front ++ back) : mark :: after <:+ back := by
  induction front with
  | nil => exact isEnd
  | cons byte rest inductionHypothesis =>
      rw [List.mem_cons, not_or] at absent
      rcases List.suffix_cons_iff.mp isEnd with same | later
      · exact absurd (List.cons.inj same).1 absent.1
      · exact inductionHypothesis absent.2 later

theorem exists_entity_isPrefix {text after : Bytes} (isEnd : 0x26 :: after <:+ escape text) :
    ∃ entity ∈ entities, entity <+: 0x26 :: after := by
  induction text with
  | nil => cases List.suffix_nil.mp isEnd
  | cons byte rest inductionHypothesis =>
      rw [escape_cons] at isEnd
      rcases escaped_ampersand byte with ⟨letters, absent, same, isEntity⟩ | absent
      · rw [same, List.cons_append, List.suffix_cons_iff] at isEnd
        rcases isEnd with here | later
        · refine ⟨0x26 :: letters, isEntity, ?_⟩
          rw [here]
          exact List.prefix_append (0x26 :: letters) (escape rest)
        · exact inductionHypothesis (cons_isSuffix_of_notMem absent later)
      · exact inductionHypothesis (cons_isSuffix_of_notMem absent isEnd)

/-- Escaping appends each byte's entity, or the byte itself, and keeps what was written before; it
goes on from one text to the next.  Escaped text has no byte that begins or ends a tag, and no
ampersand but those of the three entities.  Decoding these from left to right gives the text back,
whatever it looks like, so no two texts are escaped alike. -/
theorem escape_encodes (written text first second : Bytes) :
    appendEscaped written text = written ++ escape text ∧
      escape text = text.flatMap escaped ∧
      escape (first ++ second) = escape first ++ escape second ∧
      ((0x3C : UInt8) ∉ escape text ∧ (0x3E : UInt8) ∉ escape text) ∧
      (∀ before after, escape text = before ++ 0x26 :: after →
        ∃ entity ∈ entities, entity <+: 0x26 :: after) ∧
      unescape (escape text) = text ∧
      Function.Injective escape := by
  refine ⟨?_, escape_eq text, escape_append first second,
    ⟨lessThan_notMem_escape text, greaterThan_notMem_escape text⟩, ?_, unescape_escape text, ?_⟩
  · rw [appendEscaped_eq, escape_eq]
  · intro before after cut
    apply exists_entity_isPrefix
    rw [cut]
    exact List.suffix_append before (0x26 :: after)
  · have decodes : Function.LeftInverse unescape escape := unescape_escape
    exact decodes.injective

/-- A text that looks like an entity is told apart from the byte that the entity stands for. -/
example : escape (Utf8.encode "&lt;") = Utf8.encode "&amp;lt;" ∧
    escape (Utf8.encode "<") = Utf8.encode "&lt;" := by
  decide

/-! ### Labels -/

theorem withoutLabels_append_of_notMem {text : Bytes} (absent : (0x3C : UInt8) ∉ text)
    (rest : Bytes) : withoutLabels (text ++ rest) = text ++ withoutLabels rest :=
  withoutPassages_append_of_notMem _ _ rfl absent rest

/-- A tag that begins no label stays. -/
theorem withoutLabels_tag {tag rest : Bytes} (absent : (0x3C : UInt8) ∉ tag)
    (other : (Utf8.encode "<span class=\"line-number\">").isPrefixOf (0x3C :: (tag ++ rest)) =
      false) :
    withoutLabels (0x3C :: tag ++ rest) = 0x3C :: tag ++ withoutLabels rest := by
  rw [List.cons_append, withoutLabels, withoutPassages_cons other]
  exact congrArg _ (withoutLabels_append_of_notMem absent rest)

theorem withoutLabels_spanStart (highlightClass : HighlightClass) (rest : Bytes) :
    withoutLabels (spanStart highlightClass.styleName ++ rest) =
      spanStart highlightClass.styleName ++ withoutLabels rest := by
  have cut : spanStart highlightClass.styleName =
      0x3C :: (spanStart highlightClass.styleName).tail := rfl
  rw [cut]
  apply withoutLabels_tag
  · cases highlightClass <;> decide
  · cases highlightClass <;> rfl

theorem withoutLabels_spanEnd (rest : Bytes) :
    withoutLabels (spanEnd ++ rest) = spanEnd ++ withoutLabels rest := by
  have cut : spanEnd = 0x3C :: spanEnd.tail := rfl
  rw [cut]
  apply withoutLabels_tag
  · decide
  · rfl

theorem lessThan_notMem_rightJustified (width line : Nat) :
    (0x3C : UInt8) ∉ Decimal.rightJustified width line := by
  intro member
  have kinds := Decimal.mem_rightJustified member
  revert kinds
  decide

theorem withoutLabels_label (line width : Nat) (rest : Bytes) :
    withoutLabels (label line width ++ rest) = withoutLabels rest :=
  withoutPassages_passage _ _ (by decide) rfl (lessThan_notMem_rightJustified width line) rest

/-- Removing labels from the output is writing without them. -/
theorem withoutLabels_run_write (spanOpen : Writer) (events : List Event) :
    withoutLabels (write.run spanOpen events).2 = (write.run spanOpen (unlabelled events)).2 := by
  induction events generalizing spanOpen with
  | nil => exact withoutPassages_nil _ _
  | cons event rest inductionHypothesis =>
      rw [Transducer.run_cons]
      cases event with
      | openRun style =>
          have kept : unlabelled (.openRun style :: rest) = .openRun style :: unlabelled rest := rfl
          rw [kept, Transducer.run_cons, ← inductionHypothesis]
          cases markup : style.markup with
          | none => simp [write, markup]
          | some highlightClass => simp only [write, markup, withoutLabels_spanStart]
      | closeRun =>
          have kept : unlabelled (.closeRun :: rest) = .closeRun :: unlabelled rest := rfl
          rw [kept, Transducer.run_cons, ← inductionHypothesis]
          cases spanOpen with
          | false => simp [write]
          | true => exact withoutLabels_spanEnd _
      | text bytes =>
          have kept : unlabelled (.text bytes :: rest) = .text bytes :: unlabelled rest := rfl
          rw [kept, Transducer.run_cons, ← inductionHypothesis]
          exact withoutLabels_append_of_notMem (lessThan_notMem_escape bytes) _
      | label line width =>
          have dropped : unlabelled (.label line width :: rest) = unlabelled rest := rfl
          rw [dropped, ← inductionHypothesis]
          exact withoutLabels_label line width _

/-! ### Tags -/

/-- A tag is removed: nothing in it but its end is `>`. -/
theorem withoutTags_tag {tag rest : Bytes} (absent : (0x3E : UInt8) ∉ tag) :
    withoutTags (0x3C :: (tag ++ [0x3E] ++ rest)) = withoutTags rest :=
  withoutPassages_passage (Utf8.encode "<") (Utf8.encode ">") (by decide) rfl absent rest

theorem withoutTags_spanStart (highlightClass : HighlightClass) (rest : Bytes) :
    withoutTags (spanStart highlightClass.styleName ++ rest) = withoutTags rest := by
  have cut : spanStart highlightClass.styleName =
      0x3C :: ((spanStart highlightClass.styleName).tail.dropLast ++ [0x3E]) := by
    cases highlightClass <;> rfl
  rw [cut]
  apply withoutTags_tag
  cases highlightClass <;> decide

theorem withoutTags_spanEnd (rest : Bytes) :
    withoutTags (spanEnd ++ rest) = withoutTags rest := by
  have absent : (0x3E : UInt8) ∉ Utf8.encode "/span" := by decide
  exact withoutTags_tag absent

/-- Without labels, removing tags from the output leaves the escaped text. -/
theorem withoutTags_run_write (spanOpen : Writer) (events : List Event)
    (noLabels : ∀ event ∈ events, event.isLabel = false) :
    withoutTags (write.run spanOpen events).2 = escape (textOf events) := by
  induction events generalizing spanOpen with
  | nil => exact withoutPassages_nil _ _
  | cons event rest inductionHypothesis =>
      have others := fun next => inductionHypothesis next fun later member =>
        noLabels later (List.mem_cons_of_mem _ member)
      rw [Transducer.run_cons, textOf_cons]
      cases event with
      | openRun style =>
          cases markup : style.markup with
          | none => simp only [write, markup, List.nil_append, others, Event.textBytes]
          | some highlightClass =>
              simp only [write, markup, withoutTags_spanStart, others, Event.textBytes,
                List.nil_append]
      | closeRun =>
          cases spanOpen with
          | false => exact others false
          | true => exact (withoutTags_spanEnd _).trans (others false)
      | text bytes =>
          rw [Event.textBytes, escape_append, ← others spanOpen]
          exact withoutPassages_append_of_notMem _ _ rfl (lessThan_notMem_escape bytes) _
      | label line width => cases noLabels (.label line width) List.mem_cons_self

/-! ### A rendering -/

/-- The reader is left with the text that the writer was told of. -/
theorem unescape_run_write (events : List Event) :
    unescape (withoutTags (withoutLabels (write.run false events).2)) = textOf events := by
  have noLabels : ∀ event ∈ unlabelled events, event.isLabel = false := by
    intro event member
    have test := (List.mem_filter.mp member).2
    simpa using test
  rw [withoutLabels_run_write, withoutTags_run_write false _ noLabels, textOf_unlabelled,
    unescape_escape]

/-- Markup without labels and tags, its entities decoded, is the source. -/
theorem unescape_withoutTags_withoutLabels_render (source : Bytes) (found : List Match)
    (theme : Theme) (lineNumbers : Bool) :
    unescape (withoutTags (withoutLabels
      (render source found theme ⟨.markup, lineNumbers⟩))) = source := by
  have told : render source found theme ⟨.markup, lineNumbers⟩ =
      (write.run false ((Walk.start source lineNumbers).complete theme found).2).2 := rfl
  rw [told, unescape_run_write, Walk.textOf_complete]

end CodeHighlight.Markup
