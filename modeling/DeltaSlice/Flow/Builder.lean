import DeltaSlice.Flow.PostDominance
import DeltaSlice.Table
import DeltaSlice.Failure

/-!
Flow graphs built node by node. An edge to a node that does not exist is refused, but its source
remembers it; from then on most questions about the graph have no answer.
-/

namespace DeltaSlice

structure BuilderNode where
  succs : List Int
  preds : List Nat
  read : Table String Value
  written : Table String Value

structure FlowBuilder where
  start : Int
  nodes : List BuilderNode

namespace FlowBuilder

def addNode (b : FlowBuilder) : FlowBuilder :=
  { b with nodes := b.nodes ++ [⟨[], [], .empty, .empty⟩] }

/-- A graph of `n` nodes without edges. -/
def ofSize (start : Int) (n : Nat) : FlowBuilder :=
  (List.range n).foldl (fun b _ => b.addNode) ⟨start, []⟩

def index? (b : FlowBuilder) (n : Int) : Option Nat :=
  if 0 ≤ n && n < b.nodes.length then some n.toNat else none

def node? (b : FlowBuilder) (n : Int) : Option BuilderNode := elementAt? b.nodes n

/-- Adds an edge unless it is there. -/
def addEdge (b : FlowBuilder) (source target : Int) : FlowBuilder × Except Fault Unit :=
  match b.index? source, b.node? source with
  | some i, some x =>
    if x.succs.contains target then (b, .ok ())
    else
      let nodes := b.nodes.modify i fun x => { x with succs := x.succs ++ [target] }
      match b.index? target with
      | some j =>
        ({ b with nodes := nodes.modify j fun y => { y with preds := y.preds ++ [i] } }, .ok ())
      | none => ({ b with nodes }, .error .undefined)
  | _, _ => (b, .error .undefined)

/-- Adds an edge; gives the successors of its source and the predecessors of its target. -/
def connect (b : FlowBuilder) (source target : Int) :
    Except Fault (List Int × List Nat) × FlowBuilder :=
  let (b, r) := b.addEdge source target
  (do
    r
    return ((← required (b.node? source)).succs, (← required (b.node? target)).preds), b)

def modifyNode? (b : FlowBuilder) (n : Int) (f : BuilderNode → BuilderNode) : Option FlowBuilder :=
  (b.index? n).map fun i => { b with nodes := b.nodes.modify i f }

def setRead? (b : FlowBuilder) (n : Int) (v : String) (x : Value) : Option FlowBuilder :=
  b.modifyNode? n fun d => { d with read := d.read.insert v x }

def setWritten? (b : FlowBuilder) (n : Int) (v : String) (x : Value) : Option FlowBuilder :=
  b.modifyNode? n fun d => { d with written := d.written.insert v x }

/-- A variable without an entry is never accessed. -/
def lookup (t : Table String Value) (v : String) : Value := (t.get? v).getD (.bool false)

/-- The variables that a node may write, in the order in which they were set. -/
def possiblyWritten (d : BuilderNode) : List String :=
  (d.written.entries.filter fun e => e.2.possibly).map (·.1)

/-- The graph without the edges that lead nowhere. -/
def flow (b : FlowBuilder) : Flow String where
  size := b.nodes.length
  entry := b.start.toNat
  succs n := ((b.nodes[n]?).map fun d => d.succs.filterMap b.index?).getD []
  preds n := ((b.nodes[n]?).map (·.preds)).getD []
  read n v := ((b.nodes[n]?).map fun d => lookup d.read v).getD (.bool false)
  written n v := ((b.nodes[n]?).map fun d => lookup d.written v).getD (.bool false)
  possiblyWritten n := ((b.nodes[n]?).map possiblyWritten).getD []

/-- Whether the entry is a node and no node of a list has an edge that leads nowhere. -/
def isSound (b : FlowBuilder) (nodes : List Nat) : Bool :=
  (b.index? b.start).isSome && nodes.all fun n =>
    ((b.nodes[n]?).map fun d => d.succs.all fun m => (b.index? m).isSome).getD true

/-- The graph for questions about definitions, which follow the edges from the entry. -/
def definitionFlow (b : FlowBuilder) : Except Fault (Flow String) :=
  if b.isSound b.flow.reachable then .ok b.flow else .error .undefined

/-- The graph for questions about all of it. -/
def wholeFlow (b : FlowBuilder) : Except Fault (Flow String) :=
  if b.isSound (List.range b.nodes.length) then .ok b.flow else .error .undefined

end FlowBuilder

end DeltaSlice
