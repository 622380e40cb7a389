import LayerCheck.Command.Arguments
import LayerCheck.Command.Expansion
import LayerCheck.Command.FileTree
import LayerCheck.Command.Session
import LayerCheck.Command.Wildcard
import LayerCheck.Config.Basic
import LayerCheck.Config.Format
import LayerCheck.Diagnostics
import LayerCheck.Fact.Basic
import LayerCheck.Fact.Recording
import LayerCheck.Fact.Table
import LayerCheck.Fault
import LayerCheck.Layer.Basic
import LayerCheck.Layer.Builtin
import LayerCheck.Layer.Registry
import LayerCheck.Main
import LayerCheck.Metrics
import LayerCheck.Name.Map
import LayerCheck.Name.Nested
import LayerCheck.Name.Set
import LayerCheck.Number.Ascending
import LayerCheck.Number.Decimal
import LayerCheck.Number.Range
import LayerCheck.Number.Word
import LayerCheck.Operator
import LayerCheck.Program.Basic
import LayerCheck.Program.ControlFlow
import LayerCheck.Program.Declarations
import LayerCheck.Program.Visit
import LayerCheck.Refinement.Basic
import LayerCheck.Refinement.Canonical
import LayerCheck.Refinement.Check
import LayerCheck.Refinement.Declared
import LayerCheck.Refinement.Reader
import LayerCheck.Refinement.Scope
import LayerCheck.Refinement.Substitution
import LayerCheck.Schedule.Closure
import LayerCheck.Schedule.Graph
import LayerCheck.Schedule.Json
import LayerCheck.Schedule.Report
import LayerCheck.Schedule.Run
import LayerCheck.Solver.Bounded
import LayerCheck.Solver.Cache
import LayerCheck.Solver.Cases
import LayerCheck.Solver.Elimination
import LayerCheck.Solver.Linear
import LayerCheck.Solver.Odometer
import LayerCheck.Solver.Query
import LayerCheck.Solver.Refutation
import LayerCheck.Syntax.Parse
import LayerCheck.Syntax.Tree
import LayerCheck.Term.Basic
import LayerCheck.Term.Eval
import LayerCheck.Term.Reader
import LayerCheck.Text.Blank
import LayerCheck.Text.Duration
import LayerCheck.Text.Hidden
import LayerCheck.Text.JsonValue
import LayerCheck.Text.Lines
import LayerCheck.Text.Location
import LayerCheck.Text.Quoted
import LayerCheck.Text.Similar
import LayerCheck.Token.Basic
import LayerCheck.Token.Rest
import LayerCheck.Token.Scan
import LayerCheck.Toml.Reader
import LayerCheck.Toml.Scalar
import LayerCheck.Toml.Text
import LayerCheck.Toml.Value
import LayerCheck.Toml.Writer
import LayerCheck.Typing.Declared
import LayerCheck.Typing.Primitive
import LayerCheck.Typing.TypeList
import LayerCheck.Typing.Widening
import LayerCheck.Verify
import LayerCheck.Proofs.Command.Summary
import LayerCheck.Proofs.Except
import LayerCheck.Proofs.Fact.Log
import LayerCheck.Proofs.Fact.Rollback
import LayerCheck.Proofs.Name.Map
import LayerCheck.Proofs.Name.Set
import LayerCheck.Proofs.Refinement.ArgumentMeaning
import LayerCheck.Proofs.Refinement.Assignment
import LayerCheck.Proofs.Refinement.Bodies
import LayerCheck.Proofs.Refinement.Branches
import LayerCheck.Proofs.Refinement.CacheCapacity
import LayerCheck.Proofs.Refinement.Capture
import LayerCheck.Proofs.Refinement.Description
import LayerCheck.Proofs.Refinement.Enclosure
import LayerCheck.Proofs.Refinement.Execution
import LayerCheck.Proofs.Refinement.Freshness
import LayerCheck.Proofs.Refinement.Hereditary
import LayerCheck.Proofs.Refinement.InPlace
import LayerCheck.Proofs.Refinement.Literals
import LayerCheck.Proofs.Refinement.Membership
import LayerCheck.Proofs.Refinement.Names
import LayerCheck.Proofs.Refinement.Points
import LayerCheck.Proofs.Refinement.Positional
import LayerCheck.Proofs.Refinement.Query
import LayerCheck.Proofs.Refinement.ResultMeaning
import LayerCheck.Proofs.Refinement.RoundTrip
import LayerCheck.Proofs.Refinement.Slicing
import LayerCheck.Proofs.Refinement.Soundness
import LayerCheck.Proofs.Refinement.Steps
import LayerCheck.Proofs.Refinement.StraightLine
import LayerCheck.Proofs.Refinement.Tracking
import LayerCheck.Proofs.Schedule.Closure
import LayerCheck.Proofs.Schedule.Construction
import LayerCheck.Proofs.Schedule.Counters
import LayerCheck.Proofs.Schedule.Cycles
import LayerCheck.Proofs.Schedule.FinalStates
import LayerCheck.Proofs.Schedule.History
import LayerCheck.Proofs.Schedule.Isolation
import LayerCheck.Proofs.Schedule.Reachability
import LayerCheck.Proofs.Schedule.Readiness
import LayerCheck.Proofs.Schedule.Strictness
import LayerCheck.Proofs.Schedule.Success
import LayerCheck.Proofs.Solver.Candidates
import LayerCheck.Proofs.Solver.Cover
import LayerCheck.Proofs.Solver.Exactness
import LayerCheck.Proofs.Solver.Infeasibility
import LayerCheck.Proofs.Solver.Inlining
import LayerCheck.Proofs.Solver.LinearForm
import LayerCheck.Proofs.Solver.Memory
import LayerCheck.Proofs.Solver.Recency
import LayerCheck.Proofs.Solver.Reconstruction
import LayerCheck.Proofs.Solver.Refutation
import LayerCheck.Proofs.Solver.Rendering
import LayerCheck.Proofs.Solver.Rounds
import LayerCheck.Proofs.Solver.Search
import LayerCheck.Proofs.Solver.Soundness
import LayerCheck.Proofs.Solver.Spelling
import LayerCheck.Proofs.Solver.Validity
import LayerCheck.Proofs.Solver.WordOperation
import LayerCheck.Proofs.Solver.WordRange
import LayerCheck.Proofs.Syntax.Grammar
import LayerCheck.Proofs.Syntax.Names
import LayerCheck.Proofs.Syntax.Placement
import LayerCheck.Proofs.Syntax.Positions
import LayerCheck.Proofs.Syntax.Shape
import LayerCheck.Proofs.Syntax.Statements
import LayerCheck.Proofs.Syntax.Tokens
import LayerCheck.Proofs.Syntax.Traversal
import LayerCheck.Proofs.Syntax.Walks
import LayerCheck.Proofs.Term.Agreement
import LayerCheck.Proofs.Term.Denotation
import LayerCheck.Proofs.Term.Distinct
import LayerCheck.Proofs.Term.Readable
import LayerCheck.Proofs.Term.Reading
import LayerCheck.Proofs.Term.Typing
import LayerCheck.Proofs.Term.Written
import LayerCheck.Proofs.Text.Bytes
import LayerCheck.Proofs.Text.EditDistance
import LayerCheck.Proofs.Text.Lines
import LayerCheck.Proofs.Text.Offsets
import LayerCheck.Proofs.Token.Cursor
import LayerCheck.Proofs.Token.Scanning
import LayerCheck.Proofs.Token.Spans
import LayerCheck.Proofs.Typing.Principal
