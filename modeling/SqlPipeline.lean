import SqlPipeline.Cli.Color
import SqlPipeline.Cli.Command
import SqlPipeline.Cli.Config
import SqlPipeline.Cli.Help
import SqlPipeline.Cli.Options
import SqlPipeline.Cli.Report
import SqlPipeline.Dialect
import SqlPipeline.Digest
import SqlPipeline.Error
import SqlPipeline.Expr
import SqlPipeline.Expr.Reader
import SqlPipeline.Json
import SqlPipeline.Json.Codec
import SqlPipeline.Json.Printer
import SqlPipeline.Json.Reader
import SqlPipeline.Main
import SqlPipeline.Number.Binary64
import SqlPipeline.Number.Count
import SqlPipeline.Number.Decimal
import SqlPipeline.Number.Shortest
import SqlPipeline.Operator
import SqlPipeline.Partition
import SqlPipeline.Pipeline.Build
import SqlPipeline.Pipeline.Load
import SqlPipeline.Pipeline.StepFault
import SqlPipeline.Quantile
import SqlPipeline.Sql.Generate
import SqlPipeline.Sql.Plan
import SqlPipeline.Sql.Printer
import SqlPipeline.Sql.Query
import SqlPipeline.Text
import SqlPipeline.Token
import SqlPipeline.Transform
import SqlPipeline.Tree
import SqlPipeline.Tree.Format
import SqlPipeline.Tree.Narrow
import SqlPipeline.Tree.Usage
import SqlPipeline.Proofs.Columns
import SqlPipeline.Proofs.Stages
import SqlPipeline.Proofs.Narrowing
import SqlPipeline.Proofs.Construction
import SqlPipeline.Proofs.Meaning
import SqlPipeline.Proofs.Agreement
import SqlPipeline.Proofs.NarrowingMeaning
import SqlPipeline.Proofs.QueryMeaning
import SqlPipeline.Proofs.PlanMeaning
import SqlPipeline.Proofs.NodeInvariant
import SqlPipeline.Proofs.Preparation
import SqlPipeline.Proofs.Capabilities
import SqlPipeline.Proofs.Ordering
import SqlPipeline.Proofs.Renarrowing
import SqlPipeline.Proofs.Delegation
import SqlPipeline.Proofs.Tokens
import SqlPipeline.Proofs.Grammar
import SqlPipeline.Proofs.Pieces
import SqlPipeline.Proofs.Builders
import SqlPipeline.Proofs.WordPlaces
import SqlPipeline.Proofs.Sources
import SqlPipeline.Proofs.Introspection
import SqlPipeline.Proofs.Compilation
import SqlPipeline.Proofs.Scoping
import SqlPipeline.Proofs.Staging
import SqlPipeline.Proofs.Widening
import SqlPipeline.Proofs.FewestStages
import SqlPipeline.Proofs.LocalReads
import SqlPipeline.Proofs.Arguments
import SqlPipeline.Proofs.Outcome
import SqlPipeline.Proofs.Anonymity
import SqlPipeline.Proofs.ExactDecimals
import SqlPipeline.Proofs.Documents
import SqlPipeline.Proofs.BatchScope
import SqlPipeline.Proofs.Limits
import SqlPipeline.Proofs.OnePass
import SqlPipeline.Proofs.Quoting
import SqlPipeline.Proofs.Verbatim
import SqlPipeline.Proofs.CountFlags
import SqlPipeline.Proofs.ConfigLines
import SqlPipeline.Proofs.Coloring
import SqlPipeline.Proofs.StagingKeys
import SqlPipeline.Proofs.Renaming
import SqlPipeline.Proofs.TokenPlaces
import SqlPipeline.Proofs.Summaries
