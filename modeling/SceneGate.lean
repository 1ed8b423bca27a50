import SceneGate.Check.Gate
import SceneGate.Check.Issue
import SceneGate.Check.Repair
import SceneGate.Check.Scene
import SceneGate.Check.StrayProse
import SceneGate.Edits
import SceneGate.Generate.Loop
import SceneGate.Generate.Prompt
import SceneGate.Generate.Response
import SceneGate.Proofs.Acceptance
import SceneGate.Proofs.Accounts
import SceneGate.Proofs.BlockTree
import SceneGate.Proofs.Blocks
import SceneGate.Proofs.Brackets
import SceneGate.Proofs.CompoundStatements
import SceneGate.Proofs.Determined
import SceneGate.Proofs.FreshLine
import SceneGate.Proofs.Fuel
import SceneGate.Proofs.Headway
import SceneGate.Proofs.Idle
import SceneGate.Proofs.KindSet
import SceneGate.Proofs.LaidOut
import SceneGate.Proofs.LayoutText
import SceneGate.Proofs.Lossless
import SceneGate.Proofs.Munching
import SceneGate.Proofs.NamePlaces
import SceneGate.Proofs.Names
import SceneGate.Proofs.Neighbours
import SceneGate.Proofs.Nodes
import SceneGate.Proofs.Operators
import SceneGate.Proofs.Outlines
import SceneGate.Proofs.Precedence
import SceneGate.Proofs.Programs
import SceneGate.Proofs.QuotedLines
import SceneGate.Proofs.QuotedTokens
import SceneGate.Proofs.QuotedTrees
import SceneGate.Proofs.Quotes
import SceneGate.Proofs.RawTokens
import SceneGate.Proofs.Reading
import SceneGate.Proofs.SideBySide
import SceneGate.Proofs.SimpleStatements
import SceneGate.Proofs.StatementLines
import SceneGate.Proofs.Stranded
import SceneGate.Proofs.Targets
import SceneGate.Proofs.TokensKept
import SceneGate.Proofs.Twins
import SceneGate.Proofs.Watch
import SceneGate.Proofs.WordReading
import SceneGate.Proofs.Written
import SceneGate.Proofs.TokenShapes
import SceneGate.Proofs.LikeLayouts
import SceneGate.Proofs.LineFeeds
import SceneGate.Proofs.OutlineViews
import SceneGate.Proofs.BlankLines
import SceneGate.Proofs.LastLine
import SceneGate.Proofs.LineEndings
import SceneGate.Render.Settings
import SceneGate.Rules.AxisLabels
import SceneGate.Rules.DeprecatedNames
import SceneGate.Rules.GroupTargets
import SceneGate.Rules.InlineText
import SceneGate.Rules.LegacyText
import SceneGate.Rules.QuoteWords
import SceneGate.Rules.Rule
import SceneGate.Rules.Standard
import SceneGate.Rules.StringCall
import SceneGate.Source.Fault
import SceneGate.Source.Grammar.Expressions
import SceneGate.Source.Grammar.Form
import SceneGate.Source.Grammar.Statements
import SceneGate.Source.Kind
import SceneGate.Source.Layout
import SceneGate.Source.Lexer
import SceneGate.Source.Literal
import SceneGate.Source.Parse
import SceneGate.Source.Progress
import SceneGate.Source.Token
import SceneGate.Source.Tree
import SceneGate.Source.View
import SceneGate.Text.Basic
import SceneGate.Text.Blank
import SceneGate.Text.Identifier
import SceneGate.Text.Lines
import SceneGate.Text.LowerCase
import SceneGate.Text.Prose
import SceneGate.Text.Quoted
import SceneGate.Text.Ranges
import SceneGate.Text.Search
import SceneGate.Text.Word
import SceneGate.Vocabulary
import SceneGate.Proofs.ArgumentLists
import SceneGate.Proofs.GroupedWords
import SceneGate.Proofs.Molds
import SceneGate.Proofs.ProgramTrees
import SceneGate.Proofs.Regrouping
import SceneGate.Proofs.Dialogue
import SceneGate.Proofs.LogicalLines
import SceneGate.Proofs.Advance
import SceneGate.Proofs.GroupPasses
import SceneGate.Proofs.SceneClasses
import SceneGate.Proofs.InsertedQuotes
import SceneGate.Proofs.NodeEdges
import SceneGate.Proofs.Tallies
import SceneGate.Proofs.NodeParts
import SceneGate.Proofs.FormulaBraces
import SceneGate.Proofs.LabelCalls
import SceneGate.Proofs.LineByLine
import SceneGate.Proofs.Literals
import SceneGate.Proofs.Fences
import SceneGate.Proofs.Positions
import SceneGate.Proofs.Renamings
import SceneGate.Proofs.QuotedAgain
import SceneGate.Proofs.Displays
import SceneGate.Proofs.ImportLines
import SceneGate.Proofs.FaultOrder
import SceneGate.Proofs.RuleSpans
import SceneGate.Proofs.RenamedTokens
import SceneGate.Proofs.FoundCalls
import SceneGate.Proofs.Fronts
import SceneGate.Proofs.RenewedWords
import SceneGate.Proofs.Rewriting
import SceneGate.Proofs.RenewedCalls
import SceneGate.Proofs.LegacyCalls
import SceneGate.Proofs.RenamedTrees
import SceneGate.Proofs.StandardRules
