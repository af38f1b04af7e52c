import ApiLint.CommandLine.Run
import ApiLint.Main
import ApiLint.Model
import ApiLint.Text.Alphanumeric
import ApiLint.Proofs.Json.Acceptance
import ApiLint.Proofs.Json.Spans
import ApiLint.Proofs.Graph.ReferenceSites
import ApiLint.Proofs.View.Inline
import ApiLint.Proofs.View.Cycles
import ApiLint.Proofs.Graph.Histories
import ApiLint.Proofs.Graph.Circles
import ApiLint.Proofs.Lint.Warnings
import ApiLint.Proofs.Lint.Tracing
import ApiLint.Proofs.View.Inheritance
import ApiLint.Proofs.Query.Matches
import ApiLint.Proofs.Lint.Targets
import ApiLint.Proofs.View.Following
import ApiLint.Proofs.View.Reach
import ApiLint.Proofs.Query.Tokens
import ApiLint.Proofs.Query.Steps
import ApiLint.Proofs.Query.CanonicalText
import ApiLint.Proofs.Query.Filters
import ApiLint.Proofs.Query.Rendering
import ApiLint.Proofs.Query.Range
import ApiLint.Proofs.Graph.Contents
import ApiLint.Proofs.View.Stepping
import ApiLint.Proofs.Lint.Placement
import ApiLint.Proofs.View.NodeOrder
import ApiLint.Proofs.Query.MatchOrder
import ApiLint.Proofs.Query.Descent
import ApiLint.Proofs.View.Climbs
import ApiLint.Proofs.View.StandIns
import ApiLint.Proofs.Rule.BodySchemas
import ApiLint.Proofs.Rule.Repetitions
import ApiLint.Proofs.Rule.PageableOperations
import ApiLint.Proofs.Graph.Identity
import ApiLint.Proofs.Reference.RoundTrip
import ApiLint.Proofs.Query.DescentOrder
import ApiLint.Proofs.Json.Nesting
import ApiLint.Proofs.Json.ErrorPlaces
import ApiLint.Proofs.Json.Cuts
import ApiLint.Proofs.Json.Bytewise
import ApiLint.Pool
import ApiLint.Proofs.Work.Logic
import ApiLint.Proofs.Work.Pools
import ApiLint.Execution
import ApiLint.Proofs.Work.Alone
import ApiLint.Proofs.Lint.Executions
import ApiLint.Proofs.Lint.Runs
