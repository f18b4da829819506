import DeltaSlice.Guarded
import DeltaSlice.Pdg.Compose

/-!
Edits of guarded dependence graphs. A node that exists already can be asked for also when the graph is
frozen.
-/

namespace DeltaSlice

namespace Pdg

/-- The key, if every definition is a node. -/
def key? (g : Pdg) : Except Fault String := if g.hasKey then .ok g.key else .error .undefined

def editEdge (k : EdgeKind) (source target : Nat) : Edit Pdg Bool := do
  match (← get).insertEdge k source target with
  | .ok (b, g) => set g; return b
  | .error f => throw f

def editNewEdge (k : EdgeKind) (source target : Nat) : Edit Pdg Unit := do
  match (← get).insertNewEdge k source target with
  | .ok g => set g
  | .error f => throw f

/-- Adds the source to the incoming edges of the target only. -/
def editClaim (k : EdgeKind) (source target : Nat) : Edit Pdg Bool := do
  let g ← get
  match g.nodes[target]? with
  | none => throw .undefined
  | some y =>
    if (y.incoming.get k).contains source then return false
    set { g with
      nodes := g.nodes.modify target fun y => { y with incoming := y.incoming.insert k source } }
    return true

/-- Data edges to `n` from every definition of `v`; a definition before the transition is the input
node of `v`. -/
def editRead (v : Variable) (n : Nat) : Edit Pdg Unit := do
  let d? := (← get).reaching.get? v
  if (d?.map (·.outer)).getD true then
    let (i, g) := (← get).inputNode v
    set g
    discard (editEdge .data i n)
  for m in (d?.map (·.nodes)).getD [] do
    discard (editEdge .data m n)

/-- Gives the variables their output nodes. -/
def editClose : List (Variable × Definitions) → Edit Pdg Unit
  | [] => modify fun g => { g with reaching := .empty }
  | (v, d) :: rest => do
    let (o, g) := (← get).outputNode v
    set g
    if d.outer then
      let (i, g) := (← get).inputNode v
      set g
      editNewEdge .data i o
    for n in d.nodes do
      editNewEdge .data n o
    editClose rest

def editFinalize : Edit Pdg Unit := do
  editClose (sortByText (fun (r : Variable × Definitions) => r.1.text) (← get).reaching.entries)

end Pdg

/-- The definitions of `v` by name, if all of them are nodes. -/
def Pdg.definitions? (g : Pdg) (v : Variable) : Except Fault (List NodeId × Bool) :=
  if (g.reaching.get? v).all fun d => d.nodes.all fun n => n < g.nodes.length
  then .ok (g.definitionsOf v) else .error .undefined

/-- Which graph a composition of two gives. -/
inductive Merge where
  | first
  | second
  | joined (g : Pdg)

/-- Composes two graphs; an empty one leaves the other as it is. -/
def Pdg.merge (g other : Pdg) : Except Fault Merge :=
  if other.isNeutral then .ok .first
  else if g.isNeutral then .ok .second
  else (g.compose other).map .joined

namespace Guarded

/-- Makes a node, unless the graph is frozen and has no such node. -/
def makeNode (g : Guarded Pdg) (make : Pdg → Nat × Pdg) : Except Fault Nat × Guarded Pdg :=
  let (n, h) := make g.value
  if g.frozen && h.nodes.length ≠ g.value.nodes.length then (.error .frozen, g)
  else (.ok n, { g with value := h })

/-- Finalizes a graph, or a copy of a frozen one. Gives the graph itself as it is afterwards, too. -/
def finalize (g : Guarded Pdg) : Except Fault (Guarded Pdg) × Guarded Pdg :=
  let (r, h) := g.copy.edit Pdg.editFinalize
  match r with
  | .ok _ => (.ok h.freeze, if g.frozen then g else h.freeze)
  | .error f => (.error f, if g.frozen then g else h)

end Guarded

end DeltaSlice
