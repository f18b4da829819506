import DeltaSlice.NodeSet
import DeltaSlice.Table
import DeltaSlice.Failure
import DeltaSlice.Value.Logic

/-!
Program dependence graphs of single transitions. A graph holds numbered nodes, each with the sets of
its neighbours per kind of edge, the entry of the code being evaluated, and for every variable the
definitions that reach the current point.
-/

namespace DeltaSlice

/-- An evaluation point of the code started for an instance, or the wakeup of a process. -/
inductive StatementId where
  | point (origin : Option Instance) (stack : Stack)
  | wakeup (p : Process)
deriving DecidableEq

namespace StatementId

def key : StatementId → String
  | wakeup p => "process " ++ p.text
  | point origin stack => (origin.map (·.name)).getD "-" ++ " " ++ stack.text

def text (s : StatementId) : String := "[" ++ s.key ++ "]"

end StatementId

/-- Nodes are named by the key of their statement, or by the variable whose value before or after
the transition they stand for. -/
inductive NodeId where
  | entry (statement : String)
  | statement (key : String)
  | input (v : Variable)
  | output (v : Variable)
deriving DecidableEq

namespace NodeId

def text : NodeId → String
  | entry s => "(ENTRY [" ++ s ++ "])"
  | statement s => "(STATEMENT [" ++ s ++ "])"
  | input v => "(IN " ++ v.text ++ ")"
  | output v => "(OUT " ++ v.text ++ ")"

def var? : NodeId → Option Variable
  | input v | output v => some v
  | _ => none

end NodeId

inductive EdgeKind where
  | control
  | data
  | member
deriving DecidableEq

namespace EdgeKind

def all : List EdgeKind := [control, data, member]

def text : EdgeKind → String
  | control => "CONTROL"
  | data => "DATA"
  | member => "MEMBER"

end EdgeKind

/-- One set of neighbours per kind of edge. -/
structure EdgeSets where
  control : NodeSet
  data : NodeSet
  member : NodeSet

namespace EdgeSets

def empty : EdgeSets := ⟨[], [], []⟩

def get (s : EdgeSets) : EdgeKind → NodeSet
  | .control => s.control
  | .data => s.data
  | .member => s.member

def set (s : EdgeSets) (k : EdgeKind) (ns : NodeSet) : EdgeSets :=
  match k with
  | .control => { s with control := ns }
  | .data => { s with data := ns }
  | .member => { s with member := ns }

def insert (s : EdgeSets) (k : EdgeKind) (n : Nat) : EdgeSets :=
  s.set k (NodeSet.insert n (s.get k))

/-- The neighbours over edges of any kind. -/
def union (s : EdgeSets) : NodeSet := NodeSet.union (NodeSet.union s.control s.data) s.member

end EdgeSets

structure PdgNode where
  id : NodeId
  /-- Nodes of variables have no statement. -/
  statement : Option StatementId
  outgoing : EdgeSets
  incoming : EdgeSets

/-- The definitions of a variable that reach the current point. `outer` stands for one before the
transition. -/
structure Definitions where
  nodes : NodeSet
  outer : Bool
deriving DecidableEq

structure Pdg where
  nodes : List PdgNode
  entry : Option Nat
  reaching : Table Variable Definitions

/-- An edge by the names of its ends. -/
structure PdgEdge where
  kind : EdgeKind
  source : NodeId
  target : NodeId
deriving DecidableEq

def PdgEdge.text (e : PdgEdge) : String :=
  e.source.text ++ " -" ++ e.kind.text ++ "-> " ++ e.target.text

namespace Pdg

def empty : Pdg := ⟨[], none, .empty⟩

/-- The number of the node with the given name. -/
def find? (g : Pdg) (id : NodeId) : Option Nat := g.nodes.findIdx? fun x => x.id = id

def has (g : Pdg) (id : NodeId) : Bool := (g.find? id).isSome

def idOf? (g : Pdg) (n : Nat) : Option NodeId := (g.nodes[n]?).map (·.id)

/-- The node with the given name, made on first use. -/
def node (g : Pdg) (id : NodeId) (s : Option StatementId) : Nat × Pdg :=
  match g.find? id with
  | some n => (n, g)
  | none => (g.nodes.length, { g with nodes := g.nodes ++ [⟨id, s, .empty, .empty⟩] })

def statementNode (g : Pdg) (s : StatementId) : Nat × Pdg := g.node (.statement s.key) (some s)

def inputNode (g : Pdg) (v : Variable) : Nat × Pdg := g.node (.input v) none

def outputNode (g : Pdg) (v : Variable) : Nat × Pdg := g.node (.output v) none

/-- Makes the node of the statement the entry. -/
def enter (g : Pdg) (s : StatementId) : Nat × Pdg :=
  let (n, g) := g.node (.entry s.key) (some s)
  (n, { g with entry := some n })

/-- Adds an edge at both ends or, if either end has it already, at neither. Says whether the edge
was added. Both ends have to be nodes of the graph. -/
def insertEdge (g : Pdg) (k : EdgeKind) (source target : Nat) : Except Fault (Bool × Pdg) :=
  match g.nodes[source]?, g.nodes[target]? with
  | some x, some y =>
    if (x.outgoing.get k).contains target || (y.incoming.get k).contains source then .ok (false, g)
    else
      let out := g.nodes.modify source fun x => { x with outgoing := x.outgoing.insert k target }
      .ok (true, { g with
        nodes := out.modify target fun y => { y with incoming := y.incoming.insert k source } })
  | _, _ => .error .undefined

/-- Adds an edge that must not be there yet. -/
def insertNewEdge (g : Pdg) (k : EdgeKind) (source target : Nat) : Except Fault Pdg :=
  match g.insertEdge k source target with
  | .ok (true, g) => .ok g
  | .ok (false, _) =>
    match g.idOf? source, g.idOf? target with
    | some a, some b => .error (.repeatedEdge (PdgEdge.text ⟨k, a, b⟩))
    | _, _ => .error .undefined
  | .error f => .error f

/-- Adds an edge if it is not there yet. -/
def addEdge (g : Pdg) (k : EdgeKind) (source target : Nat) : Except Fault Pdg :=
  (g.insertEdge k source target).map (·.2)

/-- Whether a node depends on another one for its execution. -/
def hasControl? (g : Pdg) (n : Nat) : Option Bool :=
  (g.nodes[n]?).map fun x => !x.incoming.control.isEmpty

/-- Makes `n` the only definition of `v`. -/
def define (g : Pdg) (v : Variable) (n : Nat) : Pdg :=
  { g with reaching := g.reaching.insert v ⟨[n], false⟩ }

/-- Adds `n` to the definitions of `v`. -/
def addDefinition (g : Pdg) (v : Variable) (n : Nat) : Pdg :=
  let d := (g.reaching.get? v).getD ⟨[], false⟩
  { g with reaching := g.reaching.insert v { d with nodes := NodeSet.insert n d.nodes } }

/-- Data edges from every source to the node. -/
def addDataEdges (g : Pdg) (n : Nat) (sources : List Nat) : Except Fault Pdg :=
  sources.foldlM (fun g d => g.addEdge .data d n) g

/-- Data edges from every reaching definition of `v` to `n`. A definition before the transition is
the input node of `v`. -/
def readBy (g : Pdg) (v : Variable) (n : Nat) : Except Fault Pdg :=
  match g.reaching.get? v with
  | none =>
    let (i, g) := g.inputNode v
    g.addEdge .data i n
  | some d =>
    if d.outer then
      let (i, g) := g.inputNode v
      (g.addEdge .data i n).bind (·.addDataEdges n d.nodes)
    else g.addDataEdges n d.nodes

/-- Drops the definitions of the variables that satisfy `p`. -/
def forget (g : Pdg) (p : Variable → Bool) : Pdg :=
  { g with reaching := g.reaching.keep fun v => !p v }

def isNeutral (g : Pdg) : Bool := g.nodes.isEmpty && g.reaching.isEmpty && g.entry.isNone

def entryId? (g : Pdg) : Option NodeId := g.entry.bind g.idOf?

/-- The names of the nodes, by text. -/
def nodeIds (g : Pdg) : List NodeId := sortByText NodeId.text (g.nodes.map (·.id))

/-- The edges, by text. -/
def edges (g : Pdg) : List PdgEdge :=
  sortByText PdgEdge.text <|
    g.nodes.flatMap fun x => EdgeKind.all.flatMap fun k =>
      (x.outgoing.get k).filterMap fun n => (g.idOf? n).map fun target => ⟨k, x.id, target⟩

/-- The names of the definitions of one variable. -/
def definitionTexts (g : Pdg) (d : Definitions) : List String :=
  sortByText id <|
    (if d.outer then ["external"] else []) ++ d.nodes.map fun n => ((g.idOf? n).map NodeId.text).getD ""

def key (g : Pdg) : String :=
  String.join (g.nodeIds.map fun i => i.text ++ ";") ++ "\n"
    ++ String.join (g.edges.map fun e => e.text ++ ";") ++ "\n"
    ++ ";".intercalate (sortByText id
      (g.reaching.entries.map fun r => r.1.text ++ "<-" ++ ",".intercalate (g.definitionTexts r.2)))

/-- Whether every definition is a node of the graph; else it has no key. -/
def hasKey (g : Pdg) : Bool :=
  g.reaching.entries.all fun r => r.2.nodes.all fun n => decide (n < g.nodes.length)

def text (g : Pdg) : String :=
  "PDG; Nodes: [" ++ " ".intercalate (g.nodeIds.map NodeId.text) ++ "] Edges: ["
    ++ " ".intercalate (g.edges.map PdgEdge.text) ++ "]"

def statement? (g : Pdg) (id : NodeId) : Option StatementId :=
  (g.nodes.find? fun x => x.id = id).bind (·.statement)

/-- Whether there is an edge between two nodes of the graph. -/
def edge? (g : Pdg) (k : EdgeKind) (source target : NodeId) : Except Failure Bool :=
  match g.find? source, g.find? target with
  | none, _ => .error (.mismatch "pdg.Edge" ("no node " ++ source.text))
  | _, none => .error (.mismatch "pdg.Edge" ("no node " ++ target.text))
  | some a, some b =>
    .ok (((g.nodes[a]?).map fun x => (x.outgoing.get k).contains b).getD false)

/-- The definitions of `v` by name, and whether one before the transition reaches. -/
def definitionsOf (g : Pdg) (v : Variable) : List NodeId × Bool :=
  match g.reaching.get? v with
  | none => ([], true)
  | some d => (sortByText NodeId.text (d.nodes.filterMap g.idOf?), d.outer)

/-- A variable with an input node may be read from before the transition. -/
def readOf (g : Pdg) (v : Variable) : Value :=
  if g.has (.input v) then .unknown else .bool false

/-- A variable with an output node is defined when the transition ends. -/
def writtenOf (g : Pdg) (v : Variable) : Value := .bool (g.has (.output v))

/-- The variables with an input or output node, by text. -/
def vars (g : Pdg) : List Variable :=
  sortByText Variable.text (g.nodes.filterMap (·.id.var?)).eraseDups

end Pdg

end DeltaSlice
