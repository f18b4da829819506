import DeltaSlice.Canonical
import DeltaSlice.Command
import DeltaSlice.Flow.Builder
import DeltaSlice.Main
import DeltaSlice.Memo
import DeltaSlice.Model.Index
import DeltaSlice.Model.Sketch
import DeltaSlice.Workspace.Graphs
import DeltaSlice.Workspace.Infos
import DeltaSlice.Workspace.States
import DeltaSlice.Workspace.Walk
import DeltaSlice.Proofs.Success
import DeltaSlice.Proofs.Worklist.Exploration
import DeltaSlice.Proofs.Step.Frame
import DeltaSlice.Proofs.Step.Observed
import DeltaSlice.Proofs.Worklist.Distributive
import DeltaSlice.Proofs.Worklist.Walk
import DeltaSlice.Proofs.Pdg.Facts
import DeltaSlice.Proofs.Pdg.Reaching
import DeltaSlice.Proofs.Pdg.Compose
import DeltaSlice.Proofs.Pdg.Key
import DeltaSlice.Proofs.Pdg.Content
import DeltaSlice.Proofs.Pdg.Algebra
import DeltaSlice.Proofs.Dependence.Acts
import DeltaSlice.Proofs.Dependence.Evaluated
import DeltaSlice.Proofs.Dependence.Connect
import DeltaSlice.Proofs.Dependence.Traces
import DeltaSlice.Proofs.Dependence.Graphs
import DeltaSlice.Proofs.Dependence.Control
import DeltaSlice.Proofs.Dependence.ControlEdges
import DeltaSlice.Proofs.Dependence.Returns
import DeltaSlice.Proofs.Dependence.Results
import DeltaSlice.Proofs.Dependence.Transitions
import DeltaSlice.Proofs.Accesses.Stores
import DeltaSlice.Proofs.Accesses.Possible
import DeltaSlice.Proofs.Accesses.Compositions
import DeltaSlice.Proofs.Dependence.Cases
import DeltaSlice.Proofs.Dependence.Arguments
import DeltaSlice.Proofs.Flow.Chains
import DeltaSlice.Proofs.Interleaving
import DeltaSlice.Proofs.SystemGraph
import DeltaSlice.Proofs.Keys.Statements
import DeltaSlice.Proofs.Assembly
import DeltaSlice.Proofs.Slices
import DeltaSlice.Proofs.Keys.Values
import DeltaSlice.Proofs.Keys.States
import DeltaSlice.Proofs.Coarse.States
import DeltaSlice.Proofs.Coarse.Settled
import DeltaSlice.Proofs.Coarse.Steps
import DeltaSlice.Proofs.Coarse.Expressions
import DeltaSlice.Proofs.Coarse.Runs
import DeltaSlice.Proofs.Structured.Configurations
import DeltaSlice.Proofs.Structured.Moves
import DeltaSlice.Proofs.Structured.Control
import DeltaSlice.Proofs.Structured.Scalars
import DeltaSlice.Proofs.Structured.Simulation
import DeltaSlice.Proofs.Structured.Statements
import DeltaSlice.Proofs.Structured.Code
import DeltaSlice.Proofs.Structured.Courses
import DeltaSlice.Proofs.Structured.Drains
import DeltaSlice.Proofs.Structured.Evaluation
import DeltaSlice.Proofs.Exploration.Labels
import DeltaSlice.Proofs.Exploration.Schedules
import DeltaSlice.Proofs.Exploration.Workers
import DeltaSlice.Proofs.Exploration.Independence
import DeltaSlice.Proofs.Waits.Advances
import DeltaSlice.Proofs.Waits.Timers
import DeltaSlice.Proofs.Waits.Wakeups
import DeltaSlice.Proofs.Waits.Stops
import DeltaSlice.Proofs.Waits.Amounts
import DeltaSlice.Proofs.Updates.Steps
import DeltaSlice.Proofs.Updates.Conditions
import DeltaSlice.Proofs.Safety.Code
import DeltaSlice.Proofs.Safety.Cycles
import DeltaSlice.Proofs.Safety.Exploration
import DeltaSlice.Proofs.Flow.Fixpoint
import DeltaSlice.Proofs.Flow.Agreement
import DeltaSlice.Proofs.Flow.Construction
import DeltaSlice.Proofs.Flow.Narrowing
import DeltaSlice.Proofs.Flow.PostDominators
import DeltaSlice.Proofs.Flow.ControlDependence
import DeltaSlice.Proofs.Triggers.Wakeups
import DeltaSlice.Proofs.Triggers.Signals
import DeltaSlice.Proofs.Triggers.Steps
import DeltaSlice.Proofs.Triggers.Resumptions
import DeltaSlice.Proofs.Triggers.Targets
import DeltaSlice.Proofs.Triggers.Delayed
import DeltaSlice.Proofs.Triggers.Notifications
import DeltaSlice.Proofs.Step.Shifts
import DeltaSlice.Proofs.Step.Seats
import DeltaSlice.Proofs.Step.Regions
import DeltaSlice.Proofs.Step.Locals
import DeltaSlice.Proofs.Switches.Cases
import DeltaSlice.Proofs.Switches.Stages
import DeltaSlice.Proofs.Switches.Courses
import DeltaSlice.Proofs.Globals.Graphs
import DeltaSlice.Proofs.Globals.Writes
import DeltaSlice.Proofs.Globals.Agreement
import DeltaSlice.Proofs.Pdg.Invariant
import DeltaSlice.Proofs.Pdg.Closing
import DeltaSlice.Proofs.Termination.Endings
