import SqlLint.Main
import SqlLint.Proofs.Linter.Groups
import SqlLint.Proofs.Report.Parsing
import SqlLint.Proofs.Text.Changes
import SqlLint.Proofs.Text.Bounds
import SqlLint.Proofs.Rule.Keys
import SqlLint.Proofs.Server.Documents
import SqlLint.Proofs.Server.Formatting
import SqlLint.Proofs.Server.Diagnostics
import SqlLint.Proofs.Server.Failures
import SqlLint.Proofs.Server.Findings
import SqlLint.Proofs.Server.QuickFixes
import SqlLint.Proofs.Server.Occasions
import SqlLint.Proofs.Server.Refusals
import SqlLint.Proofs.Server.Registrations
import SqlLint.Proofs.Server.ProjectLint
import SqlLint.Proofs.Server.Relinting
import SqlLint.Proofs.Server.Settings
import SqlLint.Proofs.Server.Exclusions
import SqlLint.Proofs.Settings.FromToml
import SqlLint.Proofs.Settings.Layers
import SqlLint.Proofs.Settings.Overwriting
import SqlLint.Proofs.Settings.Recall
import SqlLint.Proofs.Settings.Repeats
import SqlLint.Proofs.Settings.Races
