/-
Module: CodeHighlight.Proofs.TokenReading
Purpose: Reading keeps the tokens of a JSON text.  Open constructs hold the tokens that were read so
  far, whatever lexeme is taken, and trees in which every pair begins with its key.  Where a key
  may come, the string that is taken is told to be a key, and a colon must follow before the text
  can end.
Main exports:
  Frame.segments, Frame.Sound, SoundFrames, Took, took_takeLexeme?, colonNext_eq_awaitsColon,
  took_foldlM, Document.tokenSegments_of_parse?
-/
import CodeHighlight.Proofs.TokenSegments

namespace CodeHighlight.Json

/-! ### Tokens in open constructs -/

/-- In a pair whose key was read. -/
def Place.inPair : Place → Bool
  | pairColon | pairValue => true
  | _ => false

namespace Frame

/-- The tokens that an open construct holds, and what is between them. -/
def segments (frame : Frame) : List Segment :=
  let held := frame.newestFirst.reverse.flatMap Tree.segments
  if frame.place.inPair then asKey held else held

/-- An open construct as reading builds it.  A pair begins with a string. -/
structure Sound (frame : Frame) : Prop where
  regular : ∀ tree ∈ frame.newestFirst, tree.Regular
  keyFirst : frame.place.inPair = true →
    ∃ parts rest, frame.newestFirst.reverse = Tree.ofParts parts :: rest

variable {frame : Frame} {tree : Tree} {place : Place}

theorem segments_of_not_inPair (outside : frame.place.inPair = false) :
    frame.segments = frame.newestFirst.reverse.flatMap Tree.segments := by
  rw [segments, outside, if_neg Bool.false_ne_true]

theorem segments_of_inPair (inside : frame.place.inPair = true) :
    frame.segments = asKey (frame.newestFirst.reverse.flatMap Tree.segments) := by
  rw [segments, if_pos inside]

/-- What is in a pair behind the key adds to the tokens of the pair. -/
theorem asKey_held_append (sound : frame.Sound) (inside : frame.place.inPair = true)
    (added : List Segment) :
    asKey (frame.newestFirst.reverse.flatMap Tree.segments ++ added) = frame.segments ++ added := by
  obtain ⟨parts, rest, begins⟩ := sound.keyFirst inside
  have nonempty : frame.newestFirst.reverse.flatMap Tree.segments ≠ [] := by
    rw [begins, List.flatMap_cons, Tree.segments_ofParts]
    exact List.cons_ne_nil _ _
  rw [asKey_append nonempty, segments_of_inPair inside]

/-- Adding a tree adds its tokens, as long as a pair stays a pair. -/
theorem segments_add (sound : frame.Sound) (same : place.inPair = frame.place.inPair) :
    (frame.add tree place).segments = frame.segments ++ tree.segments := by
  have held : (frame.add tree place).newestFirst.reverse.flatMap Tree.segments =
      frame.newestFirst.reverse.flatMap Tree.segments ++ tree.segments := by
    simp [add]
  cases inside : frame.place.inPair with
  | false =>
      rw [inside] at same
      rw [segments_of_not_inPair same, held, segments_of_not_inPair inside]
  | true =>
      rw [inside] at same
      rw [segments_of_inPair same, held, asKey_held_append sound inside]

theorem sound_add (sound : frame.Sound) (regular : tree.Regular)
    (same : place.inPair = frame.place.inPair) : (frame.add tree place).Sound where
  regular := by
    intro other member
    rcases List.mem_cons.mp member with isTree | older
    · rw [isTree]
      exact regular
    · exact sound.regular other older
  keyFirst := by
    intro inside
    obtain ⟨parts, rest, begins⟩ := sound.keyFirst (same.symm.trans inside)
    exact ⟨parts, rest ++ [tree], by simp [add, begins]⟩

/-- A closed array or object has the tokens that it had when it was open. -/
theorem segments_close_group {kind : Kind} (noTag : kind.tag? = none) (notPair : kind ≠ .pair)
    (outside : frame.place.inPair = false) :
    (frame.close kind tree).segments = frame.segments ++ tree.segments := by
  rw [close, Tree.segments_group noTag notPair, segments_of_not_inPair outside]
  simp

theorem regular_close_group {kind : Kind} (noTag : kind.tag? = none) (notPair : kind ≠ .pair)
    (sound : frame.Sound) (regular : tree.Regular) : (frame.close kind tree).Regular := by
  apply Tree.Regular.group kind noTag notPair
  intro other member
  rcases List.mem_cons.mp (List.mem_reverse.mp member) with isTree | older
  · rw [isTree]
    exact regular
  · exact sound.regular other older

/-- A closed pair has the tokens that it had when it was open. -/
theorem segments_close_pair (sound : frame.Sound) (inside : frame.place.inPair = true) :
    (frame.close .pair tree).segments = frame.segments ++ tree.segments := by
  have held : (tree :: frame.newestFirst).reverse.flatMap Tree.segments =
      frame.newestFirst.reverse.flatMap Tree.segments ++ tree.segments := by
    simp
  rw [close, Tree.segments, if_neg (by decide), if_pos rfl, held, asKey_held_append sound inside]

theorem regular_close_pair (sound : frame.Sound) (inside : frame.place.inPair = true)
    (regular : tree.Regular) : (frame.close .pair tree).Regular := by
  obtain ⟨parts, rest, begins⟩ := sound.keyFirst inside
  rw [close, List.reverse_cons, begins]
  apply Tree.Regular.pair
  intro other member
  rcases List.mem_append.mp member with older | newest
  · apply sound.regular other
    rw [← List.mem_reverse, begins]
    exact List.mem_cons_of_mem _ older
  · rw [List.mem_singleton.mp newest]
    exact regular

end Frame

/-- The tokens that were read into open constructs, from the outermost one on. -/
def segmentsOfFrames (frames : Frames) : List Segment :=
  frames.reverse.flatMap Frame.segments

theorem segmentsOfFrames_cons (frame : Frame) (outer : Frames) :
    segmentsOfFrames (frame :: outer) = segmentsOfFrames outer ++ frame.segments := by
  simp [segmentsOfFrames]

/-- Open constructs as reading builds them.  What an open pair stands in is no pair. -/
def SoundFrames : Frames → Prop
  | [] => True
  | frame :: outer =>
      frame.Sound ∧ SoundFrames outer ∧
        (frame.place.inPair = true → ∀ object ∈ outer.head?, object.place.inPair = false)

/-- Taking a piece of the text leads from open constructs to others that hold some tokens more. -/
structure Took (added : List Segment) (frames next : Frames) : Prop where
  sound : SoundFrames next
  segments_eq : segmentsOfFrames next = segmentsOfFrames frames ++ added

/-! ### What a step does to the tokens -/

section Steps

variable {frames next : Frames}

/-- A tree that the innermost construct takes adds its tokens. -/
theorem took_add {frame : Frame} {outer : Frames} {tree : Tree} {place : Place}
    (sound : SoundFrames (frame :: outer)) (regular : tree.Regular)
    (same : place.inPair = frame.place.inPair) :
    Took tree.segments (frame :: outer) (frame.add tree place :: outer) where
  sound := by
    refine ⟨Frame.sound_add sound.1 regular same, sound.2.1, ?_⟩
    intro inside
    exact sound.2.2 (same.symm.trans inside)
  segments_eq := by
    rw [segmentsOfFrames_cons, segmentsOfFrames_cons, Frame.segments_add sound.1 same,
      List.append_assoc]

theorem took_takeValue? {value : Tree} (sound : SoundFrames frames) (regular : value.Regular)
    (taken : takeValue? value frames = some next) : Took value.segments frames next := by
  unfold takeValue? at taken
  split at taken
  · rename_i frame outer
    split at taken
    · rename_i _ isPlace
      cases taken
      apply took_add sound regular
      rw [isPlace]
    · rename_i _ isPlace
      cases taken
      apply took_add sound regular
      rw [isPlace]
      rfl
    · rename_i _ isPlace
      cases taken
      apply took_add sound regular
      rw [isPlace]
      rfl
    · rename_i object rest isPlace
      cases taken
      -- The pair closes, and the object around it, which is no pair itself, takes it.
      have inside : frame.place.inPair = true := by
        rw [isPlace]
        rfl
      have outside : object.place.inPair = false := sound.2.2 inside object rfl
      have closed : Took (frame.close .pair value).segments (object :: rest)
          (object.add (frame.close .pair value) .objectNext :: rest) :=
        took_add sound.2.1 (Frame.regular_close_pair sound.1 inside regular) outside.symm
      constructor
      · exact closed.sound
      · rw [closed.segments_eq, Frame.segments_close_pair sound.1 inside,
          segmentsOfFrames_cons frame, List.append_assoc]
    · cases taken
  · cases taken

theorem took_openWith? {place : Place} {symbol : Mark} (outside : place.inPair = false)
    (sound : SoundFrames frames)
    (opened : openWith? place (Tree.ofMark symbol) frames = some next) :
    Took (Tree.ofMark symbol).segments frames next := by
  unfold openWith? at opened
  split at opened
  · split at opened
    · cases opened
      have noPair : ¬ place.inPair = true := Bool.eq_false_iff.mp outside
      constructor
      · refine ⟨⟨?_, fun inside => absurd inside noPair⟩, sound, fun inside => absurd inside noPair⟩
        intro tree member
        rw [List.mem_singleton.mp member]
        exact Tree.regular_ofMark symbol
      · rw [segmentsOfFrames_cons, Frame.segments_of_not_inPair outside]
        simp
    · cases opened
  · cases opened

/-- A closed array or object is a value of the construct around it. -/
theorem took_takeValue?_close {frame : Frame} {outer : Frames} {kind : Kind} {symbol : Mark}
    (noTag : kind.tag? = none) (notPair : kind ≠ .pair) (outside : frame.place.inPair = false)
    (sound : SoundFrames (frame :: outer))
    (taken : takeValue? (frame.close kind (Tree.ofMark symbol)) outer = some next) :
    Took (Tree.ofMark symbol).segments (frame :: outer) next := by
  have regular : (frame.close kind (Tree.ofMark symbol)).Regular :=
    Frame.regular_close_group noTag notPair sound.1 (Tree.regular_ofMark symbol)
  have closed := took_takeValue? sound.2.1 regular taken
  constructor
  · exact closed.sound
  · rw [closed.segments_eq, Frame.segments_close_group noTag notPair outside, segmentsOfFrames_cons,
      List.append_assoc]

theorem took_takeMark? {symbol : Mark} (sound : SoundFrames frames)
    (taken : takeMark? symbol frames = some next) :
    Took (Tree.ofMark symbol).segments frames next := by
  unfold takeMark? at taken
  split at taken
  · simp only at taken
    split at taken
    · exact took_openWith? rfl sound taken
    · exact took_openWith? rfl sound taken
    · rename_i isPlace
      exact took_takeValue?_close rfl (by decide) (by rw [isPlace]; rfl) sound taken
    · rename_i isPlace
      exact took_takeValue?_close rfl (by decide) (by rw [isPlace]; rfl) sound taken
    · rename_i isPlace
      exact took_takeValue?_close rfl (by decide) (by rw [isPlace]; rfl) sound taken
    · rename_i isPlace
      exact took_takeValue?_close rfl (by decide) (by rw [isPlace]; rfl) sound taken
    · rename_i isPlace
      cases taken
      exact took_add sound (Tree.regular_ofMark _) (by rw [isPlace]; rfl)
    · rename_i isPlace
      cases taken
      exact took_add sound (Tree.regular_ofMark _) (by rw [isPlace]; rfl)
    · rename_i isPlace
      cases taken
      exact took_add sound (Tree.regular_ofMark _) (by rw [isPlace]; rfl)
    · cases taken
  · cases taken

/-- Whether a string that comes next is a key. -/
def awaitsKey : Frames → Bool
  | frame :: _ =>
      match frame.place with
      | .objectStart | .objectKey => true
      | _ => false
  | [] => false

/-- Where a string is a value, it is no key. -/
theorem awaitsKey_eq_false {frame : Frame} {outer : Frames}
    (notStart : frame.place = .objectStart → False) (notKey : frame.place = .objectKey → False) :
    awaitsKey (frame :: outer) = false := by
  simp only [awaitsKey]

/-- Opening a pair leaves the object around it as it is, but for its place. -/
theorem took_key {object : Frame} {outer : Frames} {parts : List StringPart}
    (outside : object.place.inPair = false) (sound : SoundFrames (object :: outer)) :
    Took [.tagged keyTag (Lexeme.string parts).bytes] (object :: outer)
      ({ place := .pairColon, newestFirst := [Tree.ofParts parts] } ::
        { object with place := .objectNext } :: outer) where
  sound := by
    refine ⟨⟨?_, fun _ => ⟨parts, [], rfl⟩⟩, ⟨⟨sound.1.regular, ?_⟩, sound.2.1, ?_⟩, ?_⟩
    · intro tree member
      rw [List.mem_singleton.mp member]
      exact Tree.regular_ofParts parts
    · intro inside
      cases inside
    · intro inside
      cases inside
    · intro _ around isAround
      cases isAround
      rfl
  segments_eq := by
    have key : Frame.segments { place := .pairColon, newestFirst := [Tree.ofParts parts] } =
        [.tagged keyTag (Lexeme.string parts).bytes] := by
      rw [Frame.segments_of_inPair rfl, List.reverse_singleton, List.flatMap_singleton,
        Tree.segments_ofParts]
      rfl
    have same : Frame.segments { object with place := .objectNext } = object.segments := by
      rw [Frame.segments_of_not_inPair rfl, Frame.segments_of_not_inPair outside]
    rw [segmentsOfFrames_cons, segmentsOfFrames_cons, key, same, ← segmentsOfFrames_cons]

theorem took_takeString? {parts : List StringPart} (sound : SoundFrames frames)
    (taken : takeString? (Tree.ofParts parts) frames = some next) :
    Took [.over ((Lexeme.string parts).tag? (awaitsKey frames)) (Lexeme.string parts).bytes]
      frames next := by
  unfold takeString? at taken
  split at taken
  · split at taken
    · rename_i object outer _ isPlace
      cases taken
      rw [awaitsKey, isPlace]
      exact took_key (by rw [isPlace]; rfl) sound
    · rename_i object outer _ isPlace
      cases taken
      rw [awaitsKey, isPlace]
      exact took_key (by rw [isPlace]; rfl) sound
    · rename_i object outer _ notStart notKey
      rw [awaitsKey_eq_false notStart notKey, ← Tree.segments_ofLexeme]
      exact took_takeValue? sound (Tree.regular_ofParts parts) taken
  · cases taken

/-- Taking a lexeme adds it to the tokens.  A string is a key where a key may come. -/
theorem took_takeLexeme? {lexeme : Lexeme} (sound : SoundFrames frames)
    (nonempty : lexeme.bytes ≠ []) (taken : takeLexeme? frames lexeme = some next) :
    Took [.over (lexeme.tag? (awaitsKey frames)) lexeme.bytes] frames next := by
  have regular := Tree.Regular.lexeme lexeme nonempty
  have token := Tree.segments_ofLexeme lexeme
  unfold takeLexeme? at taken
  split at taken
  · cases taken
    exact token ▸ took_add sound regular rfl
  · cases taken
    exact token ▸ took_add sound regular rfl
  · exact token ▸ took_takeMark? sound taken
  · exact took_takeString? sound taken
  · exact token ▸ took_takeValue? sound regular taken
  · exact token ▸ took_takeValue? sound regular taken
  · cases taken

/-! ### Colons

A key is told by the colon after it before that colon is read.  Where a text can be read to its
end, a colon comes next exactly when a key was read last.
-/

/-- Whether a colon must come next. -/
def awaitsColon : Frames → Bool
  | frame :: _ => frame.place == .pairColon
  | [] => false

theorem awaitsColon_cons {frame : Frame} {outer : Frames} {place : Place}
    (isPlace : frame.place = place) : awaitsColon (frame :: outer) = (place == .pairColon) := by
  rw [awaitsColon, isPlace]

theorem awaitsColon_takeValue? {value : Tree} (taken : takeValue? value frames = some next) :
    awaitsColon frames = false ∧ awaitsColon next = false := by
  unfold takeValue? at taken
  split at taken
  · split at taken
    · rename_i isPlace
      cases taken
      exact ⟨awaitsColon_cons isPlace, rfl⟩
    · rename_i isPlace
      cases taken
      exact ⟨awaitsColon_cons isPlace, rfl⟩
    · rename_i isPlace
      cases taken
      exact ⟨awaitsColon_cons isPlace, rfl⟩
    · rename_i isPlace
      cases taken
      exact ⟨awaitsColon_cons isPlace, rfl⟩
    · cases taken
  · cases taken

theorem awaitsColon_openWith? {place : Place} {token : Tree}
    (opened : openWith? place token frames = some next) : awaitsColon frames = false := by
  unfold openWith? at opened
  split at opened
  · rename_i frame outer
    split at opened
    · rename_i awaits
      -- A value may come in some places, and none of them is before a colon.
      cases isPlace : frame.place <;> rw [isPlace] at awaits <;> cases awaits <;>
        exact awaitsColon_cons isPlace
    · cases opened
  · cases opened

/-- Where a colon must come no other mark is taken, and elsewhere no colon is. -/
theorem awaitsColon_takeMark? {symbol : Mark} (taken : takeMark? symbol frames = some next) :
    awaitsColon frames = (Lexeme.mark symbol == .mark .colon) := by
  unfold takeMark? at taken
  split at taken
  · simp only at taken
    split at taken
    · exact awaitsColon_openWith? taken
    · exact awaitsColon_openWith? taken
    · exact awaitsColon_cons ‹_›
    · exact awaitsColon_cons ‹_›
    · exact awaitsColon_cons ‹_›
    · exact awaitsColon_cons ‹_›
    · exact awaitsColon_cons ‹_›
    · exact awaitsColon_cons ‹_›
    · exact awaitsColon_cons ‹_›
    · cases taken
  · cases taken

theorem awaitsColon_takeString? {tree : Tree} (taken : takeString? tree frames = some next) :
    awaitsColon frames = false ∧ awaitsColon next = awaitsKey frames := by
  unfold takeString? at taken
  split at taken
  · split at taken
    · rename_i isPlace
      cases taken
      exact ⟨awaitsColon_cons isPlace, by rw [awaitsKey, isPlace]; rfl⟩
    · rename_i isPlace
      cases taken
      exact ⟨awaitsColon_cons isPlace, by rw [awaitsKey, isPlace]; rfl⟩
    · rename_i notStart notKey
      obtain ⟨before, after⟩ := awaitsColon_takeValue? taken
      exact ⟨before, after.trans (awaitsKey_eq_false notStart notKey).symm⟩
  · cases taken

/-- When the rest of a text can be read, a colon comes next where one must come. -/
theorem colonNext_eq_awaitsColon {rest : List Lexeme} {last : Frame}
    (taken : rest.foldlM takeLexeme? frames = some [last]) (ended : last.place = .document) :
    Lexeme.colonNext rest = awaitsColon frames := by
  induction rest generalizing frames with
  | nil =>
      cases taken
      rw [awaitsColon, ended]
      rfl
  | cons lexeme others inductionHypothesis =>
      rw [List.foldlM_cons] at taken
      obtain ⟨between, first, further⟩ := Option.bind_eq_some_iff.mp taken
      have behind := inductionHypothesis further
      unfold takeLexeme? at first
      split at first
      · cases first
        exact behind
      · cases first
        exact behind
      · rename_i symbol
        rw [awaitsColon_takeMark? first]
        rfl
      · rw [(awaitsColon_takeString? first).1]
        rfl
      · rw [(awaitsColon_takeValue? first).1]
        rfl
      · rw [(awaitsColon_takeValue? first).1]
        rfl
      · cases first

/-- Reading to the end of a text takes its tokens. -/
theorem took_foldlM {lexemes : List Lexeme} {last : Frame} (sound : SoundFrames frames)
    (nonempty : ∀ lexeme ∈ lexemes, lexeme.bytes ≠ [])
    (taken : lexemes.foldlM takeLexeme? frames = some [last]) (ended : last.place = .document) :
    Took (Lexeme.tokenSegments lexemes) frames [last] := by
  induction lexemes generalizing frames with
  | nil =>
      cases taken
      exact ⟨sound, (List.append_nil _).symm⟩
  | cons lexeme rest inductionHypothesis =>
      rw [List.foldlM_cons] at taken
      obtain ⟨between, first, others⟩ := Option.bind_eq_some_iff.mp taken
      have one := took_takeLexeme? sound (nonempty lexeme List.mem_cons_self) first
      have further := inductionHypothesis one.sound
        (fun later member => nonempty later (List.mem_cons_of_mem _ member)) others
      have sameTag : lexeme.tag? (awaitsKey frames) = lexeme.tag? (Lexeme.colonNext rest) := by
        cases lexeme with
        | string parts =>
            rw [colonNext_eq_awaitsColon others ended, (awaitsColon_takeString? first).2]
        | _ => rfl
      constructor
      · exact further.sound
      · rw [further.segments_eq, one.segments_eq, List.append_assoc, sameTag]
        rfl

end Steps

/-! ### Documents -/

/-- The tokens of a text that is JSON are those of its document, whose trees are regular. -/
theorem Document.tokenSegments_of_parse? {source : Bytes} {document : Document}
    (parsed : parse? source = some document) :
    ∃ lexemes, Lexeme.read? source = some lexemes ∧
      document.items.flatMap Tree.segments = Lexeme.tokenSegments lexemes ∧
      ∀ tree ∈ document.items, tree.Regular := by
  obtain ⟨lexemes, isRead, made⟩ := Option.bind_eq_some_iff.mp parsed
  obtain ⟨frames, taken, ended⟩ := Option.bind_eq_some_iff.mp made
  refine ⟨lexemes, isRead, ?_⟩
  have nonempty : ∀ lexeme ∈ lexemes, lexeme.bytes ≠ [] := by
    apply Lexeme.bytes_ne_nil_of_mem_readAfter? isRead
    intro lexeme member
    cases member
  have empty : SoundFrames [{ place := .document, newestFirst := [] }] := by
    refine ⟨⟨?_, ?_⟩, trivial, ?_⟩
    · intro tree member
      cases member
    · intro inside
      cases inside
    · intro inside
      cases inside
  split at ended
  · rename_i last
    split at ended
    · rename_i atEnd
      cases ended
      have took := took_foldlM empty nonempty taken atEnd
      have outside : last.place.inPair = false := by
        rw [atEnd]
        rfl
      constructor
      · calc last.newestFirst.reverse.flatMap Tree.segments
            = last.segments := (Frame.segments_of_not_inPair outside).symm
          _ = segmentsOfFrames [last] := by simp [segmentsOfFrames]
          _ = Lexeme.tokenSegments lexemes := took.segments_eq
      · intro tree member
        exact took.sound.1.regular tree (List.mem_reverse.mp member)
    · cases ended
  · cases ended

end CodeHighlight.Json
