import DeltaSlice.Interleaving

/-!
System dependence graphs: the dependence graphs of all transitions, each under a number of its own,
and data edges between them. A graph only grows.
-/

namespace DeltaSlice

/-- A node of the graph integrated under a number. -/
structure SystemNodeId where
  graph : Int
  node : NodeId
deriving DecidableEq

def SystemNodeId.text (i : SystemNodeId) : String := "p" ++ toString i.graph ++ i.node.text

structure SystemNode where
  id : SystemNodeId
  outgoing : EdgeSets
  incoming : EdgeSets

structure SystemEdge where
  kind : EdgeKind
  source : SystemNodeId
  target : SystemNodeId
deriving DecidableEq

def SystemEdge.text (e : SystemEdge) : String :=
  e.source.text ++ " -" ++ e.kind.text ++ "-> " ++ e.target.text

structure SystemGraph where
  /-- The integrated graphs by number. -/
  graphs : Table Int Pdg
  nodes : List SystemNode

namespace SystemGraph

def empty : SystemGraph := ⟨.empty, []⟩

def find? (g : SystemGraph) (i : SystemNodeId) : Option Nat := g.nodes.findIdx? fun x => x.id = i

def has (g : SystemGraph) (i : SystemNodeId) : Bool := (g.find? i).isSome

/-- The node with a text; any other text names a statement of no graph. -/
def named (g : SystemGraph) (text : String) : SystemNodeId :=
  ((g.nodes.find? fun x => x.id.text = text).map (·.id)).getD ⟨-1, .statement text⟩

/-- Adds an edge between two nodes; says whether it was new. -/
def insert (g : SystemGraph) (k : EdgeKind) (source target : Nat) : Bool × SystemGraph :=
  if ((g.nodes[source]?).map fun x => (x.outgoing.get k).contains target).getD true then (false, g)
  else
    let nodes := g.nodes.modify source fun x => { x with outgoing := x.outgoing.insert k target }
    (true, { g with
      nodes := nodes.modify target fun x => { x with incoming := x.incoming.insert k source } })

def lookup (g : SystemGraph) (operation : String) (i : SystemNodeId) : Except Failure Nat :=
  match g.find? i with
  | some n => .ok n
  | none => .error (.mismatch operation ("no node " ++ i.text))

/-- Adds an edge between two existing nodes; says whether it was new. -/
def addEdge (g : SystemGraph) (k : EdgeKind) (source target : SystemNodeId) :
    Except Failure (Bool × SystemGraph) := do
  let a ← g.lookup "AddEdge" source
  let b ← g.lookup "AddEdge" target
  pure (g.insert k a b)

/-- Makes a node of its own for every name. -/
def addNodes (number : Int) : SystemGraph → List NodeId → Except Fault SystemGraph
  | g, [] => .ok g
  | g, i :: is =>
    let id : SystemNodeId := ⟨number, i⟩
    if g.has id then .error (.repeatedNode id.text)
    else addNodes number { g with nodes := g.nodes ++ [⟨id, .empty, .empty⟩] } is

/-- Copies a dependence graph under a number that is not in use. -/
def integrate (g : SystemGraph) (number : Int) (p : Pdg) : Except Fault SystemGraph :=
  if g.graphs.contains number then .error (.repeatedGraph number)
  else
    (addNodes number { g with graphs := g.graphs.insert number p } p.nodeIds).map fun g =>
      p.edges.foldl (fun g e =>
        match g.find? ⟨number, e.source⟩, g.find? ⟨number, e.target⟩ with
        | some a, some b => (g.insert e.kind a b).2
        | _, _ => g) g

/-- The numbers of the integrated graphs, ascending. -/
def numbers (g : SystemGraph) : List Int := g.graphs.keys.mergeSort (· ≤ ·)

def nodeIds (g : SystemGraph) : List SystemNodeId := g.nodes.map (·.id)

/-- The dependence graph integrated under a number. -/
def graph? (g : SystemGraph) (number : Int) : Option Pdg := g.graphs.get? number

def idsOf (g : SystemGraph) (ns : NodeSet) : List SystemNodeId :=
  ns.filterMap fun n => (g.nodes[n]?).map (·.id)

/-- All edges by source, kind and target. -/
def edges (g : SystemGraph) : List SystemEdge :=
  g.nodes.flatMap fun x => EdgeKind.all.flatMap fun k =>
    (g.idsOf (x.outgoing.get k)).map fun target => ⟨k, x.id, target⟩

/-- The edges between different graphs. -/
def crossEdges (g : SystemGraph) : List SystemEdge :=
  g.edges.filter fun e => e.source.graph ≠ e.target.graph

/-- The incoming and outgoing edges of a node. -/
def edgesAt (g : SystemGraph) (i : SystemNodeId) :
    Except Failure (List SystemEdge × List SystemEdge) := do
  let n ← g.lookup "Node" i
  let neighbours := fun (sets : SystemNode → EdgeSets) (k : EdgeKind) =>
    g.idsOf (((g.nodes[n]?).map fun x => (sets x).get k).getD [])
  let incoming := EdgeKind.all.flatMap fun k =>
    (neighbours (·.incoming) k).map fun source => SystemEdge.mk k source i
  let outgoing := EdgeKind.all.flatMap fun k =>
    (neighbours (·.outgoing) k).map fun target => SystemEdge.mk k i target
  pure (incoming, outgoing)

/-- The nodes that reach those in the queue, breadth first. -/
def sliceFrom (g : SystemGraph) : Nat → NodeSet → List Nat → List Nat
  | 0, _, _ => []
  | _ + 1, _, [] => []
  | fuel + 1, visited, x :: queue =>
    let above := ((g.nodes[x]?).map (·.incoming.union)).getD []
    let (visited, new) := NodeSet.insertNew visited above
    x :: g.sliceFrom fuel visited (queue ++ new)

/-- The backwards slice: all nodes that a node depends on over edges of any kind, itself first,
breadth first. -/
def slice (g : SystemGraph) (i : SystemNodeId) : Except Failure (List SystemNodeId) :=
  (g.lookup "BackwardsSlice" i).map fun n =>
    g.idsOf (g.sliceFrom (g.nodes.length + 1) [n] [n])

def text (g : SystemGraph) : String :=
  "SDG; " ++ toString g.nodes.length ++ " nodes"
    ++ String.join (g.edges.map fun e => "\n\t" ++ e.text)

end SystemGraph

end DeltaSlice
