import LiquidLint.Analysis.Analyzer
import LiquidLint.Analysis.Correction
import LiquidLint.Analysis.Findings
import LiquidLint.Analysis.Totals
import LiquidLint.Analysis.Visit
import LiquidLint.Check.Basic
import LiquidLint.Check.Offense
import LiquidLint.Check.Script
import LiquidLint.Check.Severity
import LiquidLint.Check.Suppression
import LiquidLint.Command.Arguments
import LiquidLint.Command.Basic
import LiquidLint.Command.Check
import LiquidLint.Command.Flag
import LiquidLint.Command.Help
import LiquidLint.Command.Info
import LiquidLint.Command.Run
import LiquidLint.Command.Spec
import LiquidLint.Command.Watch
import LiquidLint.Config.Basic
import LiquidLint.Config.Discovery
import LiquidLint.Config.Environment
import LiquidLint.Config.Layer
import LiquidLint.Config.Load
import LiquidLint.Config.Read
import LiquidLint.Config.Template
import LiquidLint.Config.Validation
import LiquidLint.Config.Write
import LiquidLint.Disk.Basic
import LiquidLint.Disk.Info
import LiquidLint.Disk.Listing
import LiquidLint.Disk.Store
import LiquidLint.Disk.Write
import LiquidLint.Failure
import LiquidLint.Fix.Corrector
import LiquidLint.Fix.Diff
import LiquidLint.Fix.Edit
import LiquidLint.Glob.Compile
import LiquidLint.Glob.Matcher
import LiquidLint.Glob.Pattern
import LiquidLint.Liquid.Expression
import LiquidLint.Liquid.Node
import LiquidLint.Liquid.Tag
import LiquidLint.Liquid.Token
import LiquidLint.Liquid.Tree
import LiquidLint.Log.Entry
import LiquidLint.Markup.Attribute
import LiquidLint.Markup.Mask
import LiquidLint.Markup.Token
import LiquidLint.Markup.Tree
import LiquidLint.Project.Category
import LiquidLint.Project.Vendor
import LiquidLint.Report.Basic
import LiquidLint.Report.Json
import LiquidLint.Report.Style
import LiquidLint.Report.Summary
import LiquidLint.Rule.All
import LiquidLint.Rule.Assignment
import LiquidLint.Rule.Deprecation
import LiquidLint.Rule.Element
import LiquidLint.Rule.Reference
import LiquidLint.Rule.Spacing
import LiquidLint.Rule.Syntax
import LiquidLint.Run.Basic
import LiquidLint.Run.Result
import LiquidLint.Run.Selection
import LiquidLint.Session
import LiquidLint.Source.File
import LiquidLint.Source.Node
import LiquidLint.Source.Position
import LiquidLint.Store.Memory
import LiquidLint.Store.Snapshot
import LiquidLint.Table
import LiquidLint.Text.Base64
import LiquidLint.Text.Basic
import LiquidLint.Text.Blank
import LiquidLint.Text.Case
import LiquidLint.Text.CaseRuns
import LiquidLint.Text.Digest
import LiquidLint.Text.Duration
import LiquidLint.Text.Letter
import LiquidLint.Text.Numeral
import LiquidLint.Text.Path
import LiquidLint.Text.Printable
import LiquidLint.Text.Quoted
import LiquidLint.Text.Record
import LiquidLint.Text.Regex
import LiquidLint.Text.Utf8
import LiquidLint.Text.Width
import LiquidLint.Watch.Basic
import LiquidLint.Yaml.Decode
import LiquidLint.Yaml.Event
import LiquidLint.Yaml.Node
import LiquidLint.Yaml.Scalar
import LiquidLint.Yaml.Stream
import LiquidLint.Yaml.Token
import LiquidLint.Yaml.TokenQueue
import LiquidLint.Yaml.Writer
import LiquidLint.Main
import LiquidLint.Proofs.TokenPlaces
import LiquidLint.Proofs.TreeSteps
import LiquidLint.Proofs.TreePlaces
import LiquidLint.Proofs.TreeTotals
import LiquidLint.Proofs.TreePieces
import LiquidLint.Proofs.TreeCoverage
import LiquidLint.Proofs.BareTags
import LiquidLint.Proofs.BlockNesting
import LiquidLint.Proofs.BlockClosing
import LiquidLint.Proofs.TidyText
import LiquidLint.Proofs.TreeRecasts
import LiquidLint.Proofs.TokenMoves
import LiquidLint.Proofs.TidyReading
import LiquidLint.Proofs.EditScript
import LiquidLint.Proofs.SpacingReports
import LiquidLint.Proofs.TreeBraces
import LiquidLint.Proofs.SingleCheck
import LiquidLint.Proofs.StoredForm
import LiquidLint.Proofs.TokenTexts
import LiquidLint.Proofs.SpacingVisits
import LiquidLint.Proofs.TidyTemplates
import LiquidLint.Proofs.EditMerge
import LiquidLint.Proofs.StoredEdits
import LiquidLint.Proofs.OrderedTables
import LiquidLint.Proofs.SessionVersions
import LiquidLint.Proofs.Tallies
import LiquidLint.Proofs.CorrectionPasses
import LiquidLint.Proofs.SessionPublishing
import LiquidLint.Proofs.FileVisits
import LiquidLint.Proofs.FreshStarts
import LiquidLint.Proofs.AnalysisRuns
import LiquidLint.Proofs.CompleteRuns
import LiquidLint.Proofs.SubsetRuns
import LiquidLint.Proofs.CheckIsolation
import LiquidLint.Proofs.RunOrder
import LiquidLint.Proofs.ProjectFindings
import LiquidLint.Proofs.WatcherSteps
import LiquidLint.Proofs.WatcherRuns
import LiquidLint.Proofs.PathNames
import LiquidLint.Proofs.DiskTrees
import LiquidLint.Proofs.DiskChanges
import LiquidLint.Proofs.WatcherMirror
import LiquidLint.Proofs.TextSeams
import LiquidLint.Proofs.InlineTags
import LiquidLint.Proofs.CleanFixes
import LiquidLint.Proofs.FileVersions
import LiquidLint.Proofs.CleanCorrections
import LiquidLint.Proofs.MemoryWrites
import LiquidLint.Proofs.RunPlans
import LiquidLint.Proofs.FixRuns
import LiquidLint.Proofs.AnalyzerLifecycle
import LiquidLint.Proofs.TreeFirings
import LiquidLint.Proofs.HandlerCalls
import LiquidLint.Proofs.LeftOutPaths
import LiquidLint.Proofs.Masking
import LiquidLint.Proofs.StoredInverse
import LiquidLint.Proofs.TextPlaces
import LiquidLint.Proofs.MarkupPlaces
import LiquidLint.Proofs.WordReading
import LiquidLint.Proofs.NameScans
import LiquidLint.Proofs.ExpressionNames
import LiquidLint.Proofs.UnreadAssignments
import LiquidLint.Proofs.HunkPatches
import LiquidLint.Proofs.MinimalScripts
import LiquidLint.Proofs.VisibleChanges
import LiquidLint.Proofs.AcceptedEdits
import LiquidLint.Proofs.TreeOrder
import LiquidLint.Proofs.TagRemoval
import LiquidLint.Proofs.AssignmentRemovals
import LiquidLint.Proofs.CommentBodies
import LiquidLint.Proofs.SuppressionHistory
import LiquidLint.Proofs.ReferencePlaces
import LiquidLint.Proofs.LogicalNames
import LiquidLint.Proofs.CrossFileChecks
import LiquidLint.Proofs.DeprecatedTags
import LiquidLint.Proofs.WriteTurns
import LiquidLint.Proofs.WriteHistory
import LiquidLint.Proofs.RepeatedRuns
import LiquidLint.Proofs.TreeOutlines
import LiquidLint.Proofs.LineTags
import LiquidLint.Proofs.OffenseOrder
import LiquidLint.Proofs.ElementTrees
import LiquidLint.Proofs.WarningAccounts
import LiquidLint.Proofs.VerbatimBlocks
import LiquidLint.Proofs.ConfigLayers
import LiquidLint.Proofs.UsableConfigurations
import LiquidLint.Proofs.ApplicationRoots
import LiquidLint.Proofs.SafeWriting
import LiquidLint.Proofs.KeptOriginals
import LiquidLint.Proofs.LinePlaces
import LiquidLint.Proofs.MaskedRegions
import LiquidLint.Proofs.AttributeScans
import LiquidLint.Proofs.OffenseTotals
import LiquidLint.Proofs.NameScans
