import CodeHighlight.Main
import CodeHighlight.Proofs.Segmentation
import CodeHighlight.Proofs.EventView
import CodeHighlight.Proofs.LineLabels
import CodeHighlight.Proofs.GreedyResolution
import CodeHighlight.Proofs.Passage
import CodeHighlight.Proofs.TerminalText
import CodeHighlight.Proofs.MarkupText
import CodeHighlight.Proofs.MarkupGrammar
import CodeHighlight.Proofs.NestedCaptures
import CodeHighlight.Proofs.StyledSource
import CodeHighlight.Proofs.GraphicParameters
import CodeHighlight.Proofs.TerminalScreen
import CodeHighlight.Proofs.TerminalFidelity
import CodeHighlight.Proofs.LabelFidelity
import CodeHighlight.Proofs.DocumentText
import CodeHighlight.Proofs.NodeOrder
import CodeHighlight.Proofs.QueryMatches
import CodeHighlight.Proofs.OutermostNodes
import CodeHighlight.Proofs.CharacterBoundary
import CodeHighlight.Proofs.Utf8Preservation
import CodeHighlight.Proofs.LabelColumn
import CodeHighlight.Proofs.Occurrence
import CodeHighlight.Proofs.CodeBlock
import CodeHighlight.Proofs.FileReplacement
import CodeHighlight.Proofs.RunOutcome
import CodeHighlight.Proofs.StandardQuery
import CodeHighlight.Proofs.Layout
import CodeHighlight.Proofs.ThemeIndependence
import CodeHighlight.Proofs.LabelSequence
import CodeHighlight.Proofs.NormalForm
import CodeHighlight.Proofs.SideBySide
import CodeHighlight.Proofs.MatchOrder
import CodeHighlight.Proofs.Refeeding
import CodeHighlight.Proofs.EventAccounting
import CodeHighlight.Proofs.ArgumentSpelling
import CodeHighlight.Proofs.TagBeginnings
import CodeHighlight.Proofs.NumberingCalls
import CodeHighlight.Proofs.LanguageLookup
import CodeHighlight.Proofs.PathExtension
import CodeHighlight.Proofs.SpanNesting
import CodeHighlight.Proofs.StyleRestoration
