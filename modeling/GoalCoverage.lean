import GoalCoverage.BitSet
import GoalCoverage.Closure
import GoalCoverage.Diagram
import GoalCoverage.Dominance
import GoalCoverage.Drawing
import GoalCoverage.Exploration.Command
import GoalCoverage.Explorer.Run
import GoalCoverage.Failure
import GoalCoverage.Generation.Schedule
import GoalCoverage.Goal.Criterion
import GoalCoverage.IdMap
import GoalCoverage.Label
import GoalCoverage.Numbering
import GoalCoverage.Observer
import GoalCoverage.Program
import GoalCoverage.Proofs.Automaton.Acceptance
import GoalCoverage.Proofs.Automaton.Product
import GoalCoverage.Proofs.Automaton.Reaching
import GoalCoverage.Proofs.Automaton.Resolution
import GoalCoverage.Proofs.Automaton.Run
import GoalCoverage.Proofs.Automaton.Trim
import GoalCoverage.Proofs.Automaton.TrimmedProduct
import GoalCoverage.Proofs.Automaton.Trimming
import GoalCoverage.Proofs.Automaton.Trimness
import GoalCoverage.Proofs.BitSet
import GoalCoverage.Proofs.Diagram.Built
import GoalCoverage.Proofs.Diagram.Canonicity
import GoalCoverage.Proofs.Diagram.Choice
import GoalCoverage.Proofs.Diagram.Computation
import GoalCoverage.Proofs.Diagram.Count
import GoalCoverage.Proofs.Diagram.Cubes
import GoalCoverage.Proofs.Diagram.Features
import GoalCoverage.Proofs.Diagram.Thrift
import GoalCoverage.Proofs.Dominance
import GoalCoverage.Proofs.Drawing.Reading
import GoalCoverage.Proofs.Driver.Exclusion
import GoalCoverage.Proofs.Driver.Lasting
import GoalCoverage.Proofs.Driver.Reaping
import GoalCoverage.Proofs.Driver.Retries
import GoalCoverage.Proofs.Exploration
import GoalCoverage.Proofs.Exploration.Continuations
import GoalCoverage.Proofs.Exploration.Moves
import GoalCoverage.Proofs.Explorer.Attribution
import GoalCoverage.Proofs.Explorer.Bound
import GoalCoverage.Proofs.Explorer.Covering
import GoalCoverage.Proofs.Explorer.Evidence
import GoalCoverage.Proofs.Explorer.Expansion
import GoalCoverage.Proofs.Explorer.History
import GoalCoverage.Proofs.Explorer.Inputs
import GoalCoverage.Proofs.Explorer.Invariant
import GoalCoverage.Proofs.Explorer.Placement
import GoalCoverage.Proofs.Explorer.Reexpansion
import GoalCoverage.Proofs.Explorer.Resumption
import GoalCoverage.Proofs.Explorer.Routes
import GoalCoverage.Proofs.Explorer.Runs
import GoalCoverage.Proofs.Explorer.State
import GoalCoverage.Proofs.Explorer.Successors
import GoalCoverage.Proofs.Explorer.Unrolling
import GoalCoverage.Proofs.Explorer.Upkeep
import GoalCoverage.Proofs.Generation.Agreement
import GoalCoverage.Proofs.Generation.Ending
import GoalCoverage.Proofs.Generation.Harvest
import GoalCoverage.Proofs.Generation.Inquiry
import GoalCoverage.Proofs.Generation.Progress
import GoalCoverage.Proofs.Generation.Replay
import GoalCoverage.Proofs.Generation.Schedule
import GoalCoverage.Proofs.Generation.Search
import GoalCoverage.Proofs.Generation.Session
import GoalCoverage.Proofs.Generation.Start
import GoalCoverage.Proofs.Generation.Testimony
import GoalCoverage.Proofs.Generation.Verdict
import GoalCoverage.Proofs.Generation.Warrant
import GoalCoverage.Proofs.Generation.Witness
import GoalCoverage.Proofs.Goal.Criterion
import GoalCoverage.Proofs.Hunt
import GoalCoverage.Proofs.Label.Intersection
import GoalCoverage.Proofs.Observer
import GoalCoverage.Proofs.Observer.Replay
import GoalCoverage.Proofs.Observer.Tracking
import GoalCoverage.Proofs.Procedure
import GoalCoverage.Proofs.Settings.Properties
import GoalCoverage.Proofs.StateGraph.Alignment
import GoalCoverage.Proofs.StateGraph.Edits
import GoalCoverage.Proofs.StateGraph.Nodes
import GoalCoverage.Proofs.StateGraph.Reclamation
import GoalCoverage.Proofs.StateGraph.Removal
import GoalCoverage.Proofs.StateGraph.Route
import GoalCoverage.Proofs.StateGraph.Tree
import GoalCoverage.Proofs.Suite.Account
import GoalCoverage.Proofs.Suite.Completion
import GoalCoverage.Proofs.Suite.Conservation
import GoalCoverage.Proofs.Suite.Coverings
import GoalCoverage.Proofs.Suite.CrossReferences
import GoalCoverage.Proofs.Suite.Mirroring
import GoalCoverage.Proofs.Suite.Recording
import GoalCoverage.Proofs.Walk
import GoalCoverage.Proofs.Way
import GoalCoverage.Region
import GoalCoverage.Script
import GoalCoverage.Settings.Properties
import GoalCoverage.Suite.Listing
import GoalCoverage.Suite.Statistics
import GoalCoverage.Suite.Timeline
