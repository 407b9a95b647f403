/-
Module: CodeHighlight.Proofs.SpanNesting
Purpose: How the spans of markup output nest, whatever sequence of instructions the writer is given.
  Tags are read from the flat bytes, and the spans that are open are kept on a stack.  The writer
  remembers only whether a span is to be closed, which is enough to close none that is not open.
  When no run is opened inside another, there is never more than one span open, and none after a
  run is closed.
Main exports:
  Markup.readTag, Markup.tags, Markup.tags_append, Markup.count_tags, Markup.nest,
  Markup.openSpans, Markup.count_spanEnd_add_length, Markup.writtenTags,
  Markup.isSome_nest_run_write, Event.runOpen?, Markup.Holds, Markup.holds_run_write,
  Markup.spans_nest
-/
import CodeHighlight.Proofs.MarkupMarks

namespace CodeHighlight

namespace Markup

/-! ### Tags in flat text -/

/-- Reads a byte of flat text.  The state is the tag that was begun, newest byte first.  A tag is
complete at the next `>`; another `<` before that begins a tag afresh. -/
def readTag : Transducer (Option Bytes) UInt8 Bytes
  | begun, byte =>
      if byte = 0x3C then (some [byte], [])
      else
        match begun with
        | none => (none, [])
        | some newestFirst =>
            if byte = 0x3E then (none, [(byte :: newestFirst).reverse])
            else (some (byte :: newestFirst), [])

/-- The complete tags in a text, from `<` to `>`. -/
def tags (text : Bytes) : List Bytes :=
  (readTag.run none text).2

/-- A tag as it stands in a text. -/
def tag (content : Bytes) : Bytes :=
  0x3C :: (content ++ [0x3E])

/-- Whether a text neither begins nor ends a tag. -/
structure Inert (text : Bytes) : Prop where
  noStart : (0x3C : UInt8) ∉ text
  noEnd : (0x3E : UInt8) ∉ text

theorem Inert.concat {byte : UInt8} {text : Bytes} (inert : Inert text) (noStart : byte ≠ 0x3C)
    (noEnd : byte ≠ 0x3E) : Inert (text ++ [byte]) := by
  constructor
  · simp [inert.noStart, Ne.symm noStart]
  · simp [inert.noEnd, Ne.symm noEnd]

theorem readTag_start (begun : Option Bytes) : readTag begun 0x3C = (some [0x3C], []) := rfl

theorem readTag_none {byte : UInt8} (other : byte ≠ 0x3C) : readTag none byte = (none, []) := by
  simp [readTag, other]

theorem readTag_end (newestFirst : Bytes) :
    readTag (some newestFirst) 0x3E = (none, [newestFirst.reverse ++ [0x3E]]) := by
  simp [readTag]

theorem readTag_some {byte : UInt8} (newestFirst : Bytes) (noStart : byte ≠ 0x3C)
    (noEnd : byte ≠ 0x3E) :
    readTag (some newestFirst) byte = (some (byte :: newestFirst), []) := by
  simp [readTag, noStart, noEnd]

theorem run_readTag_text {text : Bytes} (absent : (0x3C : UInt8) ∉ text) :
    readTag.run none text = (none, []) := by
  have silent : ∀ byte ∈ text, readTag none byte = (none, []) := fun byte member =>
    readTag_none (ne_of_mem_of_not_mem member absent)
  rw [Transducer.run_of_fixed readTag _ silent, List.flatMap_eq_nil_iff.mpr fun _ _ => rfl]

/-- Behind a text that leaves no tag unfinished, tags are read afresh. -/
theorem tags_append {first : Bytes} (finished : (readTag.run none first).1 = none)
    (second : Bytes) : tags (first ++ second) = tags first ++ tags second := by
  rw [tags, Transducer.run_append, finished]
  rfl

/-- The tags of a text begin with those of any beginning of it. -/
theorem tags_isPrefix {first second : Bytes} (begins : first <+: second) :
    tags first <+: tags second := by
  obtain ⟨rest, cut⟩ := begins
  rw [← cut, tags, tags, Transducer.run_append]
  exact List.prefix_append _ _

/-! ### Counting tags -/

theorem append_cons_cancel {Item : Type} {first second rest others : List Item} {one two : Item}
    (twoAbsent : two ∉ first) (oneAbsent : one ∉ second)
    (same : first ++ one :: rest = second ++ two :: others) : first = second ∧ one = two := by
  rcases List.append_eq_append_iff.mp same with ⟨middle, cut, follows⟩ | ⟨middle, cut, follows⟩
  · cases middle with
    | nil =>
        rw [List.append_nil] at cut
        exact ⟨cut.symm, (List.cons.inj follows).1⟩
    | cons next others =>
        rw [cut, (List.cons.inj follows).1] at oneAbsent
        simp at oneAbsent
  · cases middle with
    | nil =>
        rw [List.append_nil] at cut
        exact ⟨cut, (List.cons.inj follows).1.symm⟩
    | cons next others =>
        rw [cut, (List.cons.inj follows).1] at twoAbsent
        simp at twoAbsent

variable {content begun : Bytes}

/-- A tag stands where its content does and ends there. -/
theorem isPrefixOf_tag (inert : Inert content) (inertBegun : Inert begun) {next : UInt8}
    (ends : next = 0x3C ∨ next = 0x3E) (rest : Bytes) :
    (tag content).isPrefixOf (0x3C :: (begun ++ next :: rest)) =
      decide (begun = content ∧ next = 0x3E) := by
  rw [Bool.eq_iff_iff, List.isPrefixOf_iff_prefix, decide_eq_true_iff, tag,
    List.cons_prefix_cons]
  constructor
  · rintro ⟨_, others, cut⟩
    rw [List.append_assoc, List.singleton_append] at cut
    have nextAbsent : next ∉ content := by
      rcases ends with starts | isEnd
      · exact starts ▸ inert.noStart
      · exact isEnd ▸ inert.noEnd
    obtain ⟨same, isEnd⟩ := append_cons_cancel nextAbsent inertBegun.noEnd cut
    exact ⟨same.symm, isEnd.symm⟩
  · rintro ⟨same, isEnd⟩
    rw [same, isEnd]
    exact ⟨rfl, rest, by simp⟩

theorem occurrences_begun (inertBegun : Inert begun) (rest : Bytes) :
    occurrences (tag content) (0x3C :: (begun ++ rest)) =
      (if (tag content).isPrefixOf (0x3C :: (begun ++ rest)) then 1 else 0) +
        occurrences (tag content) rest := by
  have excluded : Excludes (tag content) begun := excludes_of_notMem rfl inertBegun.noStart
  rw [occurrences, occurrences_append excluded]

theorem occurrences_cons_of_ne {byte : UInt8} (other : byte ≠ 0x3C) (rest : Bytes) :
    occurrences (tag content) (byte :: rest) = occurrences (tag content) rest := by
  rw [occurrences, isPrefixOf_cons_of_ne rfl other]
  exact Nat.zero_add _

/-- A tag is read as often as it occurs, from outside of tags and from inside of one. -/
theorem count_run_readTag (inert : Inert content) (text : Bytes) :
    (readTag.run none text).2.count (tag content) = occurrences (tag content) text ∧
      ∀ begun, Inert begun →
        (readTag.run (some (begun.reverse ++ [0x3C])) text).2.count (tag content) =
          occurrences (tag content) (0x3C :: (begun ++ text)) := by
  induction text with
  | nil =>
      refine ⟨rfl, ?_⟩
      intro begun inertBegun
      have unended : (tag content).isPrefixOf (0x3C :: (begun ++ [])) = false := by
        rw [Bool.eq_false_iff]
        intro begins
        rw [List.isPrefixOf_iff_prefix, List.append_nil, tag, List.cons_prefix_cons] at begins
        exact inertBegun.noEnd (begins.2.subset (by simp))
      rw [occurrences_begun inertBegun, unended]
      rfl
  | cons byte rest inductionHypothesis =>
      obtain ⟨outside, inside⟩ := inductionHypothesis
      have startAgain : ∀ state, (readTag.run state (0x3C :: rest)).2.count (tag content) =
          occurrences (tag content) (0x3C :: rest) := by
        intro state
        rw [Transducer.run_cons, readTag_start]
        exact inside [] ⟨List.not_mem_nil, List.not_mem_nil⟩
      by_cases starts : byte = 0x3C
      · subst starts
        refine ⟨startAgain none, ?_⟩
        intro begun inertBegun
        rw [startAgain, occurrences_begun inertBegun,
          isPrefixOf_tag inert inertBegun (Or.inl rfl)]
        simp
      · refine ⟨?_, ?_⟩
        · rw [Transducer.run_cons, readTag_none starts, occurrences_cons_of_ne starts]
          exact outside
        · intro begun inertBegun
          by_cases ends : byte = 0x3E
          · subst ends
            rw [Transducer.run_cons, readTag_end, occurrences_begun inertBegun,
              isPrefixOf_tag inert inertBegun (Or.inr rfl), occurrences_cons_of_ne starts,
              ← outside, List.count_append, List.reverse_append, List.reverse_reverse]
            by_cases same : begun = content
            · simp [same, tag]
            · simp [same, tag]
          · have further := inside (begun ++ [byte]) (inertBegun.concat starts ends)
            rw [Transducer.run_cons, readTag_some _ starts ends]
            simpa only [List.reverse_concat, List.append_assoc, List.singleton_append,
              List.cons_append, List.nil_append] using further

/-- A tag is read as often as it occurs in the flat text. -/
theorem count_tags (inert : Inert content) (text : Bytes) :
    (tags text).count (tag content) = occurrences (tag content) text :=
  (count_run_readTag inert text).1

/-! ### Spans that are open -/

/-- Whether a tag begins a span. -/
def beginsSpan (tag : Bytes) : Bool :=
  (Utf8.encode "<span").isPrefixOf tag

/-- Reads a tag, with the tags of the spans that are open, the innermost first.  A tag that ends a
span closes the innermost one; there is no answer when none is open. -/
def nest (spans : List Bytes) (tag : Bytes) : Option (List Bytes) :=
  if tag = spanEnd then spans.tail? else some (if beginsSpan tag then tag :: spans else spans)

/-- The spans that are open after a text, as long as it closes only spans that are open. -/
def openSpans (text : Bytes) : Option (List Bytes) :=
  (tags text).foldlM nest []

/-- Every span that was begun is closed or still open. -/
theorem count_spanEnd_add_length {found before after : List Bytes}
    (nested : found.foldlM nest before = some after) :
    found.count spanEnd + after.length = found.countP beginsSpan + before.length := by
  induction found generalizing before with
  | nil =>
      cases nested
      rfl
  | cons tag rest inductionHypothesis =>
      rw [List.foldlM_cons] at nested
      obtain ⟨between, stepped, follows⟩ := Option.bind_eq_some_iff.mp nested
      have others := inductionHypothesis follows
      rw [nest] at stepped
      split at stepped
      · rename_i isEnd
        have noBeginning : ¬ beginsSpan spanEnd = true := by decide
        rw [isEnd, List.count_cons_self, List.countP_cons_of_neg noBeginning]
        cases before with
        | nil => cases stepped
        | cons inner outer =>
            cases stepped
            rw [List.length_cons]
            omega
      · rename_i notEnd
        rw [List.count_cons_of_ne notEnd]
        cases begins : beginsSpan tag with
        | true =>
            rw [begins, if_pos rfl] at stepped
            cases stepped
            rw [List.length_cons] at others
            rw [List.countP_cons_of_pos begins]
            omega
        | false =>
            rw [begins, if_neg Bool.false_ne_true] at stepped
            cases stepped
            rw [List.countP_cons_of_neg (by simp [begins])]
            exact others

/-- A beginning of tags that close only spans that are open does so too. -/
theorem isSome_nest_of_isPrefix {shown whole before : List Bytes} (begins : shown <+: whole)
    (nested : (whole.foldlM nest before).isSome) : (shown.foldlM nest before).isSome := by
  obtain ⟨rest, cut⟩ := begins
  rw [← cut, List.foldlM_append] at nested
  cases reached : shown.foldlM nest before with
  | none =>
      rw [reached] at nested
      cases nested
  | some spans => rfl

/-! ### The tags of the writer -/

theorem run_readTag_spanStart (highlightClass : HighlightClass) :
    readTag.run none (spanStart highlightClass.styleName) =
      (none, [spanStart highlightClass.styleName]) := by
  cases highlightClass <;> decide

theorem run_readTag_label (line width : Nat) :
    readTag.run none (label line width) = (none, [labelStart, spanEnd]) := by
  have opened : readTag.run none labelStart = (none, [labelStart]) := by decide
  have closed : readTag.run none spanEnd = (none, [spanEnd]) := by decide
  have cut : label line width =
      labelStart ++ (Decimal.rightJustified width line ++ spanEnd) :=
    List.append_assoc _ _ _
  rw [cut, Transducer.run_append, opened, Transducer.run_append,
    run_readTag_text (lessThan_notMem_rightJustified width line), closed]
  rfl

/-- The tags that the writer writes for an instruction. -/
def writtenTags (spanOpen : Writer) : Event → List Bytes
  | .openRun style =>
      style.markup.toList.map fun highlightClass => spanStart highlightClass.styleName
  | .closeRun => if spanOpen then [spanEnd] else []
  | .text _ => []
  | .label _ _ => [labelStart, spanEnd]

theorem run_readTag_write (spanOpen : Writer) (event : Event) :
    readTag.run none (write spanOpen event).2 = (none, writtenTags spanOpen event) := by
  cases event with
  | openRun style =>
      cases markup : style.markup with
      | none =>
          simp only [write, writtenTags, markup]
          rfl
      | some highlightClass =>
          simp only [write, writtenTags, markup]
          exact run_readTag_spanStart highlightClass
  | closeRun =>
      cases spanOpen with
      | false => rfl
      | true => decide
  | text bytes => exact run_readTag_text (lessThan_notMem_escape bytes)
  | label line width => exact run_readTag_label line width

/-- The tags of the output are those of its instructions, one after another. -/
theorem tags_run_write_cons (spanOpen : Writer) (event : Event) (rest : List Event) :
    tags (write.run spanOpen (event :: rest)).2 =
      writtenTags spanOpen event ++ tags (write.run (write spanOpen event).1 rest).2 := by
  have read := run_readTag_write spanOpen event
  rw [Transducer.run_cons, tags_append (by rw [read]), tags, read]

theorem foldlM_nest_spanStart (spans : List Bytes) (highlightClass : HighlightClass) :
    [spanStart highlightClass.styleName].foldlM nest spans =
      some (spanStart highlightClass.styleName :: spans) := by
  have other : spanStart highlightClass.styleName ≠ spanEnd := by
    cases highlightClass <;> decide
  have begins : beginsSpan (spanStart highlightClass.styleName) = true := by
    cases highlightClass <;> decide
  rw [List.foldlM_cons, nest, if_neg other, if_pos begins]
  rfl

theorem foldlM_nest_label (spans : List Bytes) :
    [labelStart, spanEnd].foldlM nest spans = some spans := rfl

/-! ### Any sequence of instructions

The writer ends a span only when it has begun one since it last ended one.  So while it has a span
to close, some span is open.
-/

/-- One instruction closes only a span that is open, and a span that is to be closed is open
after it. -/
theorem foldlM_nest_writtenTags {spanOpen : Writer} {spans : List Bytes}
    (held : spanOpen = true → spans ≠ []) (event : Event) :
    ∃ next, (writtenTags spanOpen event).foldlM nest spans = some next ∧
      ((write spanOpen event).1 = true → next ≠ []) := by
  cases event with
  | openRun style =>
      cases markup : style.markup with
      | none =>
          simp only [write, writtenTags, markup]
          exact ⟨spans, rfl, held⟩
      | some highlightClass =>
          simp only [write, writtenTags, markup]
          exact ⟨_, foldlM_nest_spanStart spans highlightClass, fun _ => List.cons_ne_nil _ _⟩
  | closeRun =>
      cases spanOpen with
      | false => exact ⟨spans, rfl, fun isOpen => absurd isOpen Bool.false_ne_true⟩
      | true =>
          cases spans with
          | nil => exact absurd rfl (held rfl)
          | cons inner outer => exact ⟨outer, rfl, fun isOpen => absurd isOpen Bool.false_ne_true⟩
  | text bytes => exact ⟨spans, rfl, held⟩
  | label line width => exact ⟨spans, foldlM_nest_label spans, held⟩

theorem isSome_nest_run_write {spanOpen : Writer} {spans : List Bytes}
    (held : spanOpen = true → spans ≠ []) (events : List Event) :
    ((tags (write.run spanOpen events).2).foldlM nest spans).isSome := by
  induction events generalizing spanOpen spans with
  | nil => rfl
  | cons event rest inductionHypothesis =>
      obtain ⟨next, nested, stillHeld⟩ := foldlM_nest_writtenTags held event
      rw [tags_run_write_cons, List.foldlM_append, nested]
      exact inductionHypothesis stillHeld

end Markup

/-! ### Runs that are not opened inside each other -/

/-- Whether a run is open after an instruction.  There is no answer when it opens a run while one is
open; closing is allowed at any time. -/
def Event.runOpen? (isOpen : Bool) : Event → Option Bool
  | openRun _ => if isOpen then none else some true
  | closeRun => some false
  | _ => some isOpen

namespace Markup

/-- What a writer has open while runs are not opened inside each other: no span, or the one span of
the run that is open. -/
inductive Holds : Bool → Writer → List Bytes → Prop where
  | nothing (isOpen : Bool) : Holds isOpen false []
  | span (highlightClass : HighlightClass) :
      Holds true true [spanStart highlightClass.styleName]

theorem Holds.spans_eq {isOpen : Bool} {spanOpen : Writer} {spans : List Bytes}
    (held : Holds isOpen spanOpen spans) :
    spans = [] ∨ ∃ highlightClass : HighlightClass,
      spans = [spanStart highlightClass.styleName] := by
  cases held with
  | nothing isOpen => exact Or.inl rfl
  | span highlightClass => exact Or.inr ⟨highlightClass, rfl⟩

/-- One instruction keeps the writer at one span at most, and leaves it none when it closes. -/
theorem holds_write {isOpen next : Bool} {spanOpen : Writer} {spans : List Bytes}
    (held : Holds isOpen spanOpen spans) {event : Event}
    (followed : event.runOpen? isOpen = some next) :
    ∃ after, (writtenTags spanOpen event).foldlM nest spans = some after ∧
      Holds next (write spanOpen event).1 after ∧ (event = .closeRun → after = []) := by
  cases event with
  | openRun style =>
      cases isOpen with
      | true => cases followed
      | false =>
          cases followed
          cases held
          cases markup : style.markup with
          | none =>
              simp only [write, writtenTags, markup]
              exact ⟨[], rfl, .nothing true, fun closes => by cases closes⟩
          | some highlightClass =>
              simp only [write, writtenTags, markup]
              exact ⟨_, foldlM_nest_spanStart [] highlightClass, .span highlightClass,
                fun closes => by cases closes⟩
  | closeRun =>
      cases followed
      cases held with
      | nothing isOpen => exact ⟨[], rfl, .nothing false, fun _ => rfl⟩
      | span highlightClass => exact ⟨[], rfl, .nothing false, fun _ => rfl⟩
  | text bytes =>
      cases followed
      exact ⟨spans, rfl, held, fun closes => by cases closes⟩
  | label line width =>
      cases followed
      exact ⟨spans, foldlM_nest_label spans, held, fun closes => by cases closes⟩

theorem holds_run_write {isOpen last : Bool} {spanOpen : Writer} {spans : List Bytes}
    (held : Holds isOpen spanOpen spans) {events : List Event}
    (followed : events.foldlM Event.runOpen? isOpen = some last) :
    ∃ after, (tags (write.run spanOpen events).2).foldlM nest spans = some after ∧
      Holds last (write.run spanOpen events).1 after ∧
      (events.getLast? = some .closeRun → after = []) := by
  induction events generalizing isOpen spanOpen spans with
  | nil =>
      cases followed
      exact ⟨spans, rfl, held, fun closes => by cases closes⟩
  | cons event rest inductionHypothesis =>
      rw [List.foldlM_cons] at followed
      obtain ⟨between, stepped, follows⟩ := Option.bind_eq_some_iff.mp followed
      obtain ⟨reached, nested, stillHeld, closedNow⟩ := holds_write held stepped
      obtain ⟨after, nestedRest, heldAfter, closedLast⟩ := inductionHypothesis stillHeld follows
      rw [tags_run_write_cons, List.foldlM_append, nested, Transducer.run_cons]
      refine ⟨after, nestedRest, heldAfter, ?_⟩
      intro closes
      cases rest with
      | nil =>
          cases nestedRest
          exact closedNow (Option.some.inj closes)
      | cons following others => exact closedLast closes

/-- Whatever instructions the writer is given, every tag in its output that ends a span ends one that
is open, so that in every beginning of the output spans are begun at least as often as ended.  When
no run is opened while one is open, there is no span open between instructions but that of a class,
and there is none after a run is closed. -/
theorem spans_nest (events : List Event) :
    (∀ shown, shown <+: (write.run false events).2 →
        (openSpans shown).isSome ∧
          occurrences (Utf8.encode "</span>") shown ≤ (tags shown).countP beginsSpan) ∧
      ((events.foldlM Event.runOpen? false).isSome →
        ∀ before after, events = before ++ after →
          ∃ spans, openSpans (write.run false before).2 = some spans ∧
            (spans = [] ∨ ∃ highlightClass : HighlightClass,
              spans = [spanStart highlightClass.styleName]) ∧
            (before.getLast? = some .closeRun → spans = [])) := by
  constructor
  · intro shown begins
    have inert : Inert (Utf8.encode "/span") := by constructor <;> decide
    have whole : ((tags (write.run false events).2).foldlM nest []).isSome :=
      isSome_nest_run_write (fun isOpen => absurd isOpen Bool.false_ne_true) events
    have closesOpen := isSome_nest_of_isPrefix (tags_isPrefix begins) whole
    obtain ⟨spans, nested⟩ := Option.isSome_iff_exists.mp closesOpen
    have counted := count_spanEnd_add_length nested
    have occurring : (tags shown).count spanEnd = occurrences (Utf8.encode "</span>") shown :=
      count_tags inert shown
    rw [occurring, List.length_nil] at counted
    exact ⟨closesOpen, by omega⟩
  · intro apart before after cut
    rw [cut, List.foldlM_append] at apart
    obtain ⟨last, followed⟩ : ∃ last, before.foldlM Event.runOpen? false = some last := by
      cases reached : before.foldlM Event.runOpen? false with
      | none =>
          rw [reached] at apart
          cases apart
      | some last => exact ⟨last, rfl⟩
    obtain ⟨spans, nested, held, closed⟩ := holds_run_write (.nothing false) followed
    exact ⟨spans, nested, held.spans_eq, closed⟩

/-- A run that is opened inside another leaves the span of the outer one open, since closing ends
one span only. -/
example : openSpans (write.run false
      [.openRun ⟨.plain, some .keyword, none⟩, .openRun ⟨.plain, some .string, none⟩,
        .text (Utf8.encode "</span>"), .closeRun, .closeRun]).2 =
    some [Utf8.encode "<span class=\"keyword\">"] := by
  decide

end Markup

end CodeHighlight
