import ImportLint.Main
import ImportLint.Proofs.Config.Json
import ImportLint.Proofs.Glob.Hidden
import ImportLint.Proofs.Glob.Meaning
import ImportLint.Proofs.Glob.Spellings
import ImportLint.Proofs.Rule.Violations
import ImportLint.Proofs.Analysis.Discovery
import ImportLint.Proofs.FileTree.Same
import ImportLint.Proofs.Report.Sort
import ImportLint.Proofs.Analysis.Projects
import ImportLint.Proofs.Analysis.Outcome
import ImportLint.Proofs.Config.Spellings
import ImportLint.Proofs.Path.Relative
import ImportLint.Proofs.Text.Utf8
import ImportLint.Proofs.Analysis.Source
import ImportLint.Proofs.Analysis.Discovered
import ImportLint.Proofs.Analysis.Interference
import ImportLint.Proofs.Analysis.Order
import ImportLint.Proofs.Command.Status
import ImportLint.Proofs.Report.RoundTrip
import ImportLint.Proofs.Analysis.Edits
import ImportLint.Proofs.Analysis.GitRules
import ImportLint.Proofs.Command.Choice
import ImportLint.Proofs.Glob.Faults
import ImportLint.Proofs.Glob.Classes
import ImportLint.Proofs.Script.Spans
import ImportLint.Proofs.Script.Specifiers
import ImportLint.Proofs.Text.Lossy
import ImportLint.Proofs.Path.Normalize
import ImportLint.Proofs.Glob.Below
import ImportLint.Proofs.Glob.Reach
import ImportLint.Proofs.Rule.Selection
import ImportLint.Proofs.Analysis.Pruning
import ImportLint.Proofs.Config.Faults
import ImportLint.Proofs.Rule.Questions
import ImportLint.Proofs.Script.Shift
import ImportLint.Proofs.Script.Walk
import ImportLint.Proofs.Report.Aggregation
import ImportLint.Proofs.Glob.NormalForm
import ImportLint.Proofs.Glob.PlacedGroups
import ImportLint.Proofs.Ignore.Settings
