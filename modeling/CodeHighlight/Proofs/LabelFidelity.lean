/-
Module: CodeHighlight.Proofs.LabelFidelity
Purpose: How line labels look in a terminal under the themes that come with the program.  A label
  that interrupts a run has the foreground of the label style, but it is bold when that run is:
  the labels have exactly the label style when no bold run goes on over a newline, and only then.
Main exports:
  Style.Upright, Style.LabelLike, LabelLike.over_eq, numberedCells_eq_iff,
  labelStyle_labelLike, upright_runStyle, upright_carriedInto, label_exact_iff_no_bold_run,
  label_bold_within_bold_run
-/
import CodeHighlight.Proofs.TerminalFidelity

namespace CodeHighlight

/-! ### Styles of labels and of runs -/

/-- Neither italic nor underlined. -/
def Style.Upright (style : Style) : Prop :=
  style.italic = false ∧ style.underline = false

instance (style : Style) : Decidable style.Upright :=
  inferInstanceAs (Decidable (_ ∧ _))

/-- A foreground of its own and no attributes. -/
def Style.LabelLike (style : Style) : Prop :=
  style.foreground ≠ .standard ∧ style.bold = false ∧ style.Upright

instance (style : Style) : Decidable style.LabelLike :=
  inferInstanceAs (Decidable (_ ∧ _ ∧ _))

/-- On top of an upright style, only boldness shines through. -/
theorem Style.LabelLike.over_eq {style under : Style} (labelLike : style.LabelLike)
    (upright : under.Upright) : style.over under = { style with bold := under.bold } := by
  obtain ⟨colored, notBold, notItalic, notUnderlined⟩ := labelLike
  obtain ⟨underItalic, underUnderlined⟩ := upright
  have notPlain : style ≠ .plain := by
    intro isPlain
    rw [isPlain] at colored
    exact colored rfl
  rw [Style.over, if_neg notPlain, if_neg colored, notBold, notItalic, notUnderlined,
    underItalic, underUnderlined]
  simp

namespace Theme

/-- Every theme of the program has a foreground for labels, and no attributes. -/
theorem labelStyle_labelLike {theme : Theme} (member : theme ∈ builtin) :
    theme.labelStyle.LabelLike := by
  revert theme
  decide +kernel

theorem upright_terminal_get {theme : Theme} (member : theme ∈ builtin)
    (highlightClass : HighlightClass) : (theme.terminal.get highlightClass).Upright := by
  have everywhere : ∀ theme ∈ builtin, ∀ highlightClass ∈ HighlightClass.all,
      (theme.terminal.get highlightClass).Upright := by
    decide +kernel
  exact everywhere theme member highlightClass highlightClass.mem_all

/-- No theme of the program has italic or underlined runs. -/
theorem upright_runStyle {theme : Theme} (member : theme ∈ builtin) (tag : Tag) :
    (theme.runStyle tag).Upright := by
  rw [runStyle, tagStyle]
  cases Tag.classify tag with
  | none => exact ⟨rfl, rfl⟩
  | some classes => exact upright_terminal_get member classes.terminal

end Theme

/-! ### Interrupted runs -/

theorem upright_carriedAt {theme : Theme} (member : theme ∈ Theme.builtin)
    (taken : List Capture) (position : Nat) : (carriedAt theme taken position).Upright := by
  rw [carriedAt]
  cases taken.find? fun capture => capture.Covers position ∧ capture.start < position with
  | none => exact ⟨rfl, rfl⟩
  | some capture => exact Theme.upright_runStyle member capture.tag

/-- The run that a label interrupts is upright. -/
theorem upright_carriedInto {theme : Theme} (member : theme ∈ Theme.builtin) {source : Bytes}
    {taken : List Capture} {line : List Ink}
    (isLine : line ∈ inkLines (inks theme source taken)) : (carriedInto line).Upright := by
  cases line with
  | nil => exact ⟨rfl, rfl⟩
  | cons ink rest =>
      have among : ink ∈ inks theme source taken := by
        rw [← flatten_cutAfter (inks theme source taken)]
        exact List.mem_flatten.mpr ⟨_, isLine, List.mem_cons_self⟩
      obtain ⟨⟨byte, position⟩, _, same⟩ := List.mem_map.mp among
      have carried : carriedInto (ink :: rest) = carriedAt theme taken position := by
        rw [← same]
        rfl
      rw [carried]
      exact upright_carriedAt member taken position

namespace Terminal

/-! ### Labels on the screen -/

theorem length_labelCells (style : Style) (line width : Nat) :
    (labelCells style line width).length =
      (Decimal.rightJustified width line ++ bar).length + 1 := by
  rw [labelCells, List.length_append, cells, List.length_map]
  rfl

/-- A label that is shown tells the style that it is shown in. -/
theorem labelCells_injective {first second : Style} {line width : Nat}
    (same : labelCells first line width = labelCells second line width) : first = second := by
  -- A label has a bar even where it has no digits, so some byte of it tells the style.
  have numberAndBar : cells first (Decimal.rightJustified width line ++ bar) =
      cells second (Decimal.rightJustified width line ++ bar) :=
    List.append_cancel_right same
  have barShown : (0xE2 : UInt8) ∈ Decimal.rightJustified width line ++ bar :=
    List.mem_append_right _ (by decide)
  have shown := List.map_inj_left.mp numberAndBar 0xE2 barShown
  exact congrArg Cell.style shown

/-- Two looks of labels show the same when they agree on the runs that labels interrupt. -/
theorem numberedCells_eq_iff (first second : Style → Style) (width number : Nat)
    (inked : List (List Ink)) :
    numberedCells first width number inked = numberedCells second width number inked ↔
      ∀ line ∈ inked, first (carriedInto line) = second (carriedInto line) := by
  induction inked generalizing number with
  | nil =>
      constructor
      · intro _ line member
        cases member
      · intro _
        rfl
  | cons line rest inductionHypothesis =>
      rw [numberedCells_cons, numberedCells_cons, List.forall_mem_cons, ← inductionHypothesis]
      constructor
      · intro same
        rw [List.append_assoc, List.append_assoc] at same
        have lengths : (labelCells (first (carriedInto line)) number width).length =
            (labelCells (second (carriedInto line)) number width).length := by
          rw [length_labelCells, length_labelCells]
        obtain ⟨label, others⟩ := List.append_inj same lengths
        exact ⟨labelCells_injective label, List.append_cancel_left others⟩
      · rintro ⟨label, others⟩
        rw [label, others]

/-- Under a theme of the program, a label is shown in the label style, but bold when it interrupts
a bold run.  So all labels are shown exactly in the label style if and only if no line begins in
the middle of a bold run. -/
theorem label_exact_iff_no_bold_run (source : Bytes) (found : List Match) {theme : Theme}
    (member : theme ∈ Theme.builtin) (absent : escapeByte ∉ source) :
    let inked := inkLines (inks theme source (selected source.length (feedOrder found)))
    let shown := (Screen.read.run (.showing .plain)
      (render source found theme ⟨.terminal, true⟩)).2
    shown = numberedCells (fun carried => { theme.labelStyle with bold := carried.bold })
        (labelWidth source) 1 inked ∧
      (shown = numberedCells (fun _ => theme.labelStyle) (labelWidth source) 1 inked ↔
        ∀ line ∈ inked, (carriedInto line).bold = false) := by
  intro inked shown
  have labelLike := Theme.labelStyle_labelLike member
  have onTop : shown = numberedCells theme.labelStyle.over (labelWidth source) 1 inked :=
    congrArg Prod.snd (run_read_render_numbered source found theme absent)
  have boldOnly : shown =
      numberedCells (fun carried => { theme.labelStyle with bold := carried.bold })
        (labelWidth source) 1 inked := by
    rw [onTop, numberedCells_eq_iff]
    intro line isLine
    exact labelLike.over_eq (upright_carriedInto member isLine)
  refine ⟨boldOnly, ?_⟩
  rw [boldOnly, numberedCells_eq_iff]
  constructor
  · intro allExact line isLine
    have bold := congrArg Style.bold (allExact line isLine)
    exact bold.trans labelLike.2.1
  · intro noBoldRun line isLine
    simp only [noBoldRun line isLine]
    rw [← labelLike.2.1]

/-- Both labels of a red run over two lines are exactly in the label style. -/
theorem label_exact_within_red_run :
    let red : Style := .ofForeground (.named .red)
    let source : Bytes := [0x61, newline, 0x62]
    Theme.standard ∈ Theme.builtin ∧ escapeByte ∉ source ∧
      (Screen.read.run (.showing .plain)
          (render source [[⟨"keyword", 0, 3⟩]] Theme.standard ⟨.terminal, true⟩)).2 =
        labelCells Theme.standard.labelStyle 1 4 ++ cells red [0x61, newline] ++
          (labelCells Theme.standard.labelStyle 2 4 ++ cells red [0x62]) := by
  have inOrder : feedOrder [[⟨"keyword", 0, 3⟩]] = [⟨"keyword", 0, 3⟩] := by
    simp [feedOrder, Match.inOrder]
  have member : Theme.standard ∈ Theme.builtin := List.mem_cons_self
  have absent : escapeByte ∉ ([0x61, newline, 0x62] : Bytes) := by decide
  intro red source
  have looks := label_exact_iff_no_bold_run source [[⟨"keyword", 0, 3⟩]] member absent
  rw [inOrder] at looks
  refine ⟨member, absent, (looks.2.mpr ?_).trans ?_⟩
  · decide +kernel
  · decide +kernel

/-- The second label of a bold run over two lines is bold, though the label style is not. -/
theorem label_bold_within_bold_run :
    let boldRed : Style := ⟨.named .red, true, false, false⟩
    let source : Bytes := [0x61, newline, 0x62]
    Theme.standard ∈ Theme.builtin ∧ escapeByte ∉ source ∧
      Theme.standard.labelStyle.bold = false ∧
      (Screen.read.run (.showing .plain)
          (render source [[⟨"keyword.control", 0, 3⟩]] Theme.standard ⟨.terminal, true⟩)).2 =
        labelCells Theme.standard.labelStyle 1 4 ++ cells boldRed [0x61, newline] ++
          (labelCells { Theme.standard.labelStyle with bold := true } 2 4 ++
            cells boldRed [0x62]) := by
  have inOrder : feedOrder [[⟨"keyword.control", 0, 3⟩]] = [⟨"keyword.control", 0, 3⟩] := by
    simp [feedOrder, Match.inOrder]
  have absent : escapeByte ∉ ([0x61, newline, 0x62] : Bytes) := by decide
  intro boldRed source
  refine ⟨List.mem_cons_self, absent, rfl, ?_⟩
  rw [run_read_render_numbered source _ Theme.standard absent, inOrder]
  decide +kernel

end Terminal

end CodeHighlight
