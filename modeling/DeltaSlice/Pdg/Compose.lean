import DeltaSlice.Pdg.Basic

/-!
Merging and closing dependence graphs. Graphs of alternative outcomes of one step are merged; when
the step is complete, output nodes take the definitions that reach its end.
-/

namespace DeltaSlice

/-- Definitions of one variable on two alternatives. -/
def Definitions.merge (d e : Definitions) : Definitions :=
  ⟨NodeSet.union d.nodes e.nodes, d.outer || e.outer⟩

/-- Definitions renumbered. -/
def Definitions.renumber? (number : List Nat) (d : Definitions) : Option Definitions :=
  (d.nodes.mapM fun n => number[n]?).map fun ns => ⟨NodeSet.union [] ns, d.outer⟩

namespace Pdg

/-- Makes the nodes of a list in `g` and gives their numbers there, in order. -/
def importNodes (g : Pdg) (xs : List PdgNode) : List Nat × Pdg :=
  xs.foldl (fun (ns, g) x =>
    let (n, g) := g.node x.id x.statement
    (ns ++ [n], g)) ([], g)

/-- Adds the outgoing edges of a node that is number `n` in `g`; `number` gives the numbers of the
targets there. -/
def importEdges (g : Pdg) (number : List Nat) (n : Nat) (x : PdgNode) : Except Fault Pdg :=
  EdgeKind.all.foldlM (fun g k =>
    (x.outgoing.get k).foldlM (fun g m =>
      match number[m]? with
      | some m => g.addEdge k n m
      | none => .error .undefined) g) g

/-- A variable that has definitions on one alternative only may also come from before. -/
def mergeReaching (number : List Nat) (r other : Table Variable Definitions) :
    Except Fault (Table Variable Definitions) :=
  other.entries.foldlM (fun t (v, d) =>
    match Definitions.renumber? number d with
    | none => .error .undefined
    | some d =>
      match r.get? v with
      | some e => .ok (t.insert v (Definitions.merge e d))
      | none => .ok (t.insert v { d with outer := true }))
    (r.mapValues fun v d => if other.contains v then d else { d with outer := true })

/-- Merges two alternatives of one step. Both must have the same entry; an empty graph is an
alternative that adds nothing. -/
def compose (g other : Pdg) : Except Fault Pdg :=
  if other.isNeutral then .ok g
  else if g.isNeutral then .ok other
  else if g.entryId? ≠ other.entryId? then
    .error (.entries (g.entryId?.map NodeId.text) (other.entryId?.map NodeId.text))
  else
    let (number, h) := g.importNodes other.nodes
    ((number.zip other.nodes).foldlM (fun (h : Pdg) (n, x) => h.importEdges number n x) h).bind fun h =>
      (mergeReaching number g.reaching other.reaching).map fun r => { h with reaching := r }

/-- The output node of one variable with edges from its definitions. -/
def close (g : Pdg) (v : Variable) (d : Definitions) : Except Fault Pdg :=
  let (o, g) := g.outputNode v
  let opened : Except Fault Pdg :=
    if d.outer then
      let (i, g) := g.inputNode v
      g.insertNewEdge .data i o
    else .ok g
  opened.bind fun g => d.nodes.foldlM (fun g n => g.insertNewEdge .data n o) g

/-- Gives every variable with definitions at the end of the transition its output node. -/
def finalize (g : Pdg) : Except Fault Pdg :=
  let order := sortByText (fun (r : Variable × Definitions) => r.1.text) g.reaching.entries
  (order.foldlM (fun (g : Pdg) r => g.close r.1 r.2) g).map fun g => { g with reaching := .empty }

end Pdg

end DeltaSlice
