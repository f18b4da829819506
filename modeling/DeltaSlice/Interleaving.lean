import DeltaSlice.Flow.Basic
import DeltaSlice.NodeSet
import DeltaSlice.Simulator.Cycle

/-!
Interleavings: the states and transitions found so far as a flow graph. Every transition is a node,
and one transition precedes another if it ends where the other starts. Node zero stands for the way
into the initial state. A transition is told from others by its states and what was learned from it.
-/

namespace DeltaSlice

/-- A recorded transition between numbered states; the first one starts nowhere. -/
structure RecordNode where
  source : Option Nat
  target : Nat
  info : Option Info
  proc : Option Process

/-- The transitions around a transition. -/
structure Neighbours where
  succs : NodeSet
  preds : NodeSet

def Neighbours.none : Neighbours := ⟨[], []⟩

/-- Puts one node before another, unless it is there. -/
def Neighbours.link (ns : List Neighbours) (a b : Nat) : List Neighbours :=
  if (ns[a]?).any fun x => x.succs.contains b then ns
  else
    (ns.modify a fun x => { x with succs := NodeSet.insert b x.succs }).modify b fun x =>
      { x with preds := NodeSet.insert a x.preds }

structure Interleaving where
  /-- The states by number, each with its key. -/
  states : List (String × State)
  /-- The transitions by number, each with the key of what was learned. -/
  nodes : List (String × RecordNode)
  /-- What stands around each transition. -/
  neighbours : List Neighbours

namespace Interleaving

/-- Only the way into the initial state. -/
def start (st : State) : Interleaving :=
  ⟨[(st.key, st)], [("", ⟨none, 0, none, none⟩)], [.none]⟩

def stateNumber? (r : Interleaving) (key : String) : Option Nat :=
  r.states.findIdx? fun s => s.1 = key

def addState (r : Interleaving) (st : State) : Nat × Bool × Interleaving :=
  let key := st.key
  match r.stateNumber? key with
  | some n => (n, false, r)
  | none => (r.states.length, true, { r with states := r.states ++ [(key, st)] })

def size (r : Interleaving) : Nat := r.nodes.length

def state? (r : Interleaving) (n : Nat) : Option State := (r.states[n]?).map (·.2)

def node? (r : Interleaving) (n : Nat) : Option RecordNode := (r.nodes[n]?).map (·.2)

/-- The numbers of the nodes that satisfy a test. -/
def numbersOf (r : Interleaving) (test : RecordNode → Bool) : NodeSet :=
  (r.nodes.zipIdx.filter fun x => test x.1.2).map (·.2)

/-- The nodes that end in a state. -/
def reaching (r : Interleaving) (s : Nat) : NodeSet := r.numbersOf fun x => x.target = s

/-- The nodes that start in a state. -/
def leaving (r : Interleaving) (s : Nat) : NodeSet := r.numbersOf fun x => x.source = some s

/-- The links that the node `n` needs: after every node that ends where it starts, and before every
node that starts where it ends. -/
def linksOf (r : Interleaving) (n : Nat) (x : RecordNode) : List (Nat × Nat) :=
  ((x.source.map r.reaching).getD []).map (·, n) ++ (r.leaving x.target).map (n, ·)

/-- Adds a node and links it, unless there is one between the same states from which the same was
learned. -/
def addNode (r : Interleaving) (x : RecordNode) : Interleaving :=
  let key := (x.info.map Info.key).getD ""
  if r.nodes.any fun y => y.1 = key && y.2.source = x.source && y.2.target = x.target then r
  else
    let r' := { r with nodes := r.nodes ++ [(key, x)] }
    { r' with
      neighbours := (r'.linksOf r.size x).foldl (fun ns e => Neighbours.link ns e.1 e.2)
        (r.neighbours ++ [.none]) }

/-- Records a transition from a recorded state; gives the number of its end and whether that state
is new. -/
def add (r : Interleaving) (source : State) (t : Transition) :
    Except Fault (Nat × Bool × Interleaving) :=
  match r.stateNumber? source.key with
  | none => .error .unrecorded
  | some n =>
    let (m, new, r) := r.addState t.state
    .ok (m, new, r.addNode ⟨some n, m, t.info, t.proc⟩)

def succs (r : Interleaving) (n : Nat) : NodeSet := ((r.neighbours[n]?).map (·.succs)).getD []

def preds (r : Interleaving) (n : Nat) : NodeSet := ((r.neighbours[n]?).map (·.preds)).getD []

/-- The accesses of a node. -/
def accesses (r : Interleaving) (n : Nat) : Accesses :=
  (((r.node? n).bind (·.info)).bind (·.accesses?)).getD .never

/-- The variables that some node accesses, by text. -/
def vars (r : Interleaving) : List Variable :=
  sortByText Variable.text
    ((List.range r.size).flatMap fun n => (r.accesses n).vars).eraseDups

/-- The accesses of every node, with the variables that it may read or write, by text. -/
def used (r : Interleaving) : List (Accesses × List Variable) :=
  let vs := r.vars
  (List.range r.size).map fun n =>
    let a := r.accesses n
    (a, vs.filter fun v => (a.read v).possibly || (a.written v).possibly)

/-- The dependence graph of a node. -/
def pdg? (r : Interleaving) (n : Nat) : Option Pdg :=
  ((r.node? n).bind (·.info)).bind (·.pdg?)

/-- The flow graph of the transitions under a view of their accesses. -/
def flowWith (r : Interleaving) (view : Nat → Accesses) : Flow Variable :=
  let edges := ((List.range r.size).map fun n => (r.succs n, r.preds n)).toArray
  let views := ((List.range r.size).map fun n => (view n, (view n).possiblyWritten)).toArray
  { size := r.size
    entry := 0
    succs := fun n => ((edges[n]?).map (·.1)).getD []
    preds := fun n => ((edges[n]?).map (·.2)).getD []
    read := fun n v => ((views[n]?).map fun a => a.1.read v).getD (.bool false)
    written := fun n v => ((views[n]?).map fun a => a.1.written v).getD (.bool false)
    possiblyWritten := fun n => ((views[n]?).map (·.2)).getD [] }

/-- The flow graph of the transitions with the accesses that are known of them. -/
def flow (r : Interleaving) : Flow Variable := r.flowWith r.accesses

/-- The flow graph as the dependence graphs see it. -/
def pdgFlow (r : Interleaving) : Flow Variable :=
  r.flowWith fun n => ((r.pdg? n).map Accesses.ofPdg).getD .never

end Interleaving

end DeltaSlice
