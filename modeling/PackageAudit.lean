import PackageAudit.Audit
import PackageAudit.Batch
import PackageAudit.Batch.Tasks
import PackageAudit.Check.Basic
import PackageAudit.Check.Builtin
import PackageAudit.Check.Documents
import PackageAudit.Check.Layout
import PackageAudit.Check.Manifest
import PackageAudit.Check.MockData
import PackageAudit.Check.Secrets
import PackageAudit.Check.TestFile
import PackageAudit.Deadline
import PackageAudit.Decimal.Binary64
import PackageAudit.Decimal.Layout
import PackageAudit.Decimal.Rounding
import PackageAudit.Decimal.Shortest
import PackageAudit.Evaluation
import PackageAudit.Evaluation.Tasks
import PackageAudit.Fault
import PackageAudit.Json.Basic
import PackageAudit.Json.Interchange
import PackageAudit.Json.Reader
import PackageAudit.Json.Writer
import PackageAudit.LogLevel
import PackageAudit.Package.Basic
import PackageAudit.Package.Describe
import PackageAudit.Package.Listing
import PackageAudit.Package.Manifest
import PackageAudit.Package.Search
import PackageAudit.Repair.Backup
import PackageAudit.Repair.Basic
import PackageAudit.Repair.Remedies
import PackageAudit.Repair.Run
import PackageAudit.Report.Advice
import PackageAudit.Report.Basic
import PackageAudit.Report.Changes
import PackageAudit.Report.Metrics
import PackageAudit.Report.Score
import PackageAudit.Report.Survey
import PackageAudit.Rule.Basic
import PackageAudit.Rule.Builtin
import PackageAudit.Rule.Catalog
import PackageAudit.Schema
import PackageAudit.Schema.Checked
import PackageAudit.Schema.Moment
import PackageAudit.Schema.Numeral
import PackageAudit.Service
import PackageAudit.Settings
import PackageAudit.Text.Basic
import PackageAudit.Text.Blank
import PackageAudit.Text.Case
import PackageAudit.Text.CaseTable
import PackageAudit.Text.Lines
import PackageAudit.Text.Pattern
import PackageAudit.Text.PrintTable
import PackageAudit.Text.Quoted
import PackageAudit.Text.Regular
import PackageAudit.Text.Utf8
import PackageAudit.Tree.Access
import PackageAudit.Tree.Basic
import PackageAudit.Tree.Fault
import PackageAudit.Tree.Name
import PackageAudit.Tree.Path
import PackageAudit.Tree.Resolve
import PackageAudit.Tree.TextFile
import PackageAudit.Verdict
import PackageAudit.Proofs.Tree.Path
import PackageAudit.Proofs.Tree.Walk
import PackageAudit.Proofs.Tree.Shape
import PackageAudit.Proofs.Tree.Change
import PackageAudit.Proofs.Tree.Access
import PackageAudit.Proofs.Tree.Resolve
import PackageAudit.Proofs.Repair.Journal
import PackageAudit.Proofs.Repair.Step
import PackageAudit.Proofs.Text.Utf8
import PackageAudit.Proofs.Text.Numeral
import PackageAudit.Proofs.Tree.Name
import PackageAudit.Proofs.Repair.Backup
import PackageAudit.Proofs.Repair.Stamp
import PackageAudit.Proofs.Repair.Kept
import PackageAudit.Proofs.Tree.Names
import PackageAudit.Proofs.Package.Listing
import PackageAudit.Proofs.Package.Describe
import PackageAudit.Proofs.Audit
import PackageAudit.Proofs.Check.Builtin
import PackageAudit.Proofs.Repair.Remedies
import PackageAudit.Proofs.Service.Journal
import PackageAudit.Proofs.Text.Lines
import PackageAudit.Proofs.Service.Content
import PackageAudit.Proofs.Service.Outside
import PackageAudit.Proofs.Decimal.Shortest
import PackageAudit.Proofs.Json.Strings
import PackageAudit.Proofs.Decimal.Binary64
import PackageAudit.Proofs.Json.Numbers
import PackageAudit.Proofs.Json.Values
import PackageAudit.Proofs.Json.Document
import PackageAudit.Proofs.Package.Manifest
import PackageAudit.Proofs.Service.Grown
import PackageAudit.Proofs.Repair.Plans
import PackageAudit.Proofs.Repair.Written
import PackageAudit.Proofs.Service.Provided
import PackageAudit.Proofs.Package.Readme
import PackageAudit.Proofs.Service.Passed
import PackageAudit.Proofs.Service.Landing
import PackageAudit.Proofs.Service.Rewritten
import PackageAudit.Proofs.Service.Agreement
import PackageAudit.Proofs.Service.Lossless
import PackageAudit.Proofs.Service.DryRun
import PackageAudit.Proofs.Batch.Run
import PackageAudit.Proofs.Batch.Tasks
import PackageAudit.Proofs.Batch.Outcome
import PackageAudit.Proofs.Service.Idempotent
import PackageAudit.Proofs.Audit.Filters
import PackageAudit.Proofs.Service.Findings
import PackageAudit.Proofs.Package.Candidates
import PackageAudit.Proofs.Package.Search
import PackageAudit.Proofs.Package.Found
import PackageAudit.Proofs.Package.Files
import PackageAudit.Proofs.Package.Followed
import PackageAudit.Proofs.Package.Linked
import PackageAudit.Proofs.Evaluation.Tasks
import PackageAudit.Proofs.Evaluation.Isolated
import PackageAudit.Proofs.Repair.Isolated
import PackageAudit.Proofs.Repair.Gated
import PackageAudit.Proofs.Distinct
import PackageAudit.Proofs.Report.Metrics
import PackageAudit.Proofs.Report.Consistent
import PackageAudit.Proofs.Rule.Registry
import PackageAudit.Proofs.Repair.Limit
import PackageAudit.Proofs.Repair.Carried
import PackageAudit.Proofs.Repair.Counts
import PackageAudit.Proofs.Repair.Restored
import PackageAudit.Proofs.Repair.Needs
import PackageAudit.Proofs.Tree.Lexical
import PackageAudit.Proofs.Service.Members
import PackageAudit.Proofs.Service.Course
import PackageAudit.Proofs.Service.Places
import PackageAudit.Proofs.Service.Commute
import PackageAudit.Proofs.Report.Penalty
import PackageAudit.Proofs.Report.Changes
import PackageAudit.Proofs.Decimal.Order
import PackageAudit.Proofs.Batch.Progress
import PackageAudit.Proofs.Tree.Real
import PackageAudit.Proofs.Package.Depth
import PackageAudit.Proofs.Package.Cycles
import PackageAudit.Proofs.Report.Survey
import PackageAudit.Proofs.Report.Advice
import PackageAudit.Proofs.Schema
import PackageAudit.Proofs.Evaluation.Malformed
import PackageAudit.Proofs.Evaluation.Raised
import PackageAudit.Proofs.Text.Breaks
import PackageAudit.Proofs.Tree.Outline
import PackageAudit.Proofs.Package.Alike
import PackageAudit.Proofs.Check.Reading
import PackageAudit.Proofs.Check.Credential
import PackageAudit.Proofs.Check.Secrets
import PackageAudit.Proofs.Json.Zones
import PackageAudit.Proofs.Check.SecretMembers
import PackageAudit.Proofs.Check.FileSize
import PackageAudit.Proofs.Check.Appended
import PackageAudit.Proofs.Text.Pattern
import PackageAudit.Proofs.Text.Regular
import PackageAudit.Proofs.Text.Split
import PackageAudit.Proofs.Text.LineEnds
import PackageAudit.Proofs.Check.TestFile
import PackageAudit.Proofs.Check.TestFolders
import PackageAudit.Proofs.Check.MockData
import PackageAudit.Proofs.Check.LineNumbers
