import DeltaSlice.Workers
import DeltaSlice.Flow.DefUse
import DeltaSlice.SystemGraph

/-!
The dependence analysis: explore the states, collect the dependence graphs of all transitions in one
system graph, and connect them by the definition-use chains of the interleaving.
-/

namespace DeltaSlice

namespace SystemGraph

/-- Integrates the graphs of all recorded transitions under their numbers. -/
def integrateAll (r : Interleaving) : SystemGraph → List Nat → Except Fault SystemGraph
  | g, [] => .ok g
  | g, n :: ns =>
    match r.pdg? n with
    | none => integrateAll r g ns
    | some p =>
      match g.integrate n p with
      | .ok g => integrateAll r g ns
      | .error f => .error f

/-- A data edge for every chain, from the value after one transition to the value before another. -/
def connectAll : SystemGraph → List (Chain Variable) → Except Fault SystemGraph
  | g, [] => .ok g
  | g, c :: cs =>
    match g.addEdge .data ⟨c.source, .output c.var⟩ ⟨c.use, .input c.var⟩ with
    | .ok (_, g) => connectAll g cs
    | .error f => .error (.unhandled f.text)

/-- The system graph of recorded transitions, and the chains that connect it. -/
def build (r : Interleaving) : Except Fault (SystemGraph × List (Chain Variable)) := do
  let g ← integrateAll r .empty (List.range r.size)
  let chains := r.pdgFlow.followChains Variable.text
  let g ← connectAll g chains
  pure (g, chains)

end SystemGraph

/-- A problem for the analysis. -/
structure Task where
  system : System
  setup : Setup
  bounds : Bounds
  canceled : Bool

structure Analysis where
  exploration : Exploration
  graph : SystemGraph
  chains : List (Chain Variable)

namespace Analysis

/-- Why an analysis gave no result: a failure, or a fault that it caught. -/
inductive Problem where
  | failed (f : Failure)
  | internal (f : Fault)
  | exhausted

/-- The text of a caught fault, if it has one. -/
def internalText? (f : Fault) : Option String :=
  f.text?.map fun t =>
    "internal error in dependence analysis: " ++ t ++ " (please report this bug)"

/-- Runs the analysis. -/
def run (t : Task) : Except Problem Analysis :=
  match Simulator.make t.system t.setup with
  | .error f => .error (.failed f)
  | .ok s =>
    match (s.explore t.bounds t.canceled).result with
    | .error (.failed f) => .error (.failed (.during "exploration" f))
    | .error (.broken f) => .error (.internal f)
    | .error .exhausted => .error .exhausted
    | .ok x =>
      match SystemGraph.build x.record with
      | .error f => .error (.internal f)
      | .ok (graph, chains) => .ok ⟨x, graph, chains⟩

/-- The log of the analysis. -/
def log (a : Analysis) : String :=
  "==== Starting analysis\n" ++ String.join (a.exploration.log.map LogLine.text)
    ++ "==== Building SDG from " ++ toString (a.exploration.record.size - 1) ++ " transitions\n"
    ++ a.exploration.record.pdgFlow.followLog Variable.text
    ++ "SDG done: " ++ toString a.graph.nodes.length ++ " nodes, "
    ++ toString a.chains.length ++ " chains\n"

end Analysis

end DeltaSlice
