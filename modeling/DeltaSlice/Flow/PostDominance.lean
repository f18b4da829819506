import DeltaSlice.Flow.DefUse

/-!
Post-dominators and control dependence. A node post-dominates another one if every path from there
to an exit passes it; nodes that reach no exit have no post-dominators.
-/

namespace DeltaSlice.Flow

variable {V : Type}

/-- The nodes from which those in the queue are reached, breadth first. -/
def reachingBack (g : Flow V) : Nat → NodeSet → List Nat → List Nat
  | 0, _, _ => []
  | _ + 1, _, [] => []
  | fuel + 1, visited, x :: queue =>
    let (visited, new) := NodeSet.insertNew visited (g.preds x)
    x :: g.reachingBack fuel visited (queue ++ new)

/-- The nodes that reach an exit, the exits first. -/
def leadingOut (g : Flow V) : List Nat :=
  let (visited, new) := NodeSet.insertNew [] g.exits
  g.reachingBack (g.size + 1) visited new

/-- What all sets of a list have in common; nothing for no sets. -/
def meet : List NodeSet → NodeSet
  | [] => []
  | s :: ss => ss.foldl NodeSet.inter s

/-- The node itself and what its successors have in common, as far as they have sets. -/
def postDomStep (g : Flow V) (sets : List (Option NodeSet)) (x : Nat) : NodeSet :=
  NodeSet.insert x (meet ((g.succs x).filterMap fun s => (sets[s]?).join))

/-- One round over the nodes; says whether a set changed. -/
def postDomRound (g : Flow V) : List Nat → List (Option NodeSet) → Bool × List (Option NodeSet)
  | [], sets => (false, sets)
  | x :: xs, sets =>
    let new := g.postDomStep sets x
    if (sets[x]?).join = some new then g.postDomRound xs sets
    else (true, (g.postDomRound xs (sets.set x (some new))).2)

/-- Rounds until no set changes. -/
def postDomLoop (g : Flow V) (order : List Nat) : Nat → List (Option NodeSet) → List (Option NodeSet)
  | 0, sets => sets
  | fuel + 1, sets =>
    match g.postDomRound order sets with
    | (true, sets) => g.postDomLoop order fuel sets
    | (false, sets) => sets

/-- The post-dominators of every node that reaches an exit. -/
def postDomSets (g : Flow V) : List (Option NodeSet) :=
  g.postDomLoop g.leadingOut (g.size * g.size + g.size + 2) (List.replicate g.size none)

/-- The nodes that `d` strictly post-dominates. -/
def strictlyBelow (sets : List (Option NodeSet)) (d : Nat) : NodeSet :=
  (sets.zipIdx.filter fun (s, x) => x ≠ d && (s.getD []).contains d).map (·.2)

/-- Immediate post-domination as a forest. -/
structure PostDomTree where
  roots : List Nat
  parents : List (Option Nat)
  children : List NodeSet

/-- The nodes that `d` post-dominates with none in between, given those strictly below each node. -/
def directlyBelow (below : List NodeSet) (d : Nat) : NodeSet :=
  let all := (below[d]?).getD []
  all.foldl (fun s x => NodeSet.diff s ((below[x]?).getD [])) all

def postDominators (g : Flow V) : PostDomTree :=
  let sets := g.postDomSets
  let below := (List.range g.size).map (strictlyBelow sets)
  let children := (List.range g.size).map (directlyBelow below)
  { roots := g.exits
    children
    parents := children.zipIdx.foldl (fun ps (cs, d) => cs.foldl (fun ps x => ps.set x (some d)) ps)
      (List.replicate g.size none) }

/-- The nodes from `x` up the tree, before `stop`. -/
def PostDomTree.upTo (t : PostDomTree) (stop : Option Nat) : Nat → Option Nat → List Nat
  | 0, _ => []
  | _ + 1, none => []
  | fuel + 1, some x =>
    if some x = stop then [] else x :: t.upTo stop fuel (t.parents[x]?).join

/-- For every node the nodes on which its execution depends: those with a successor from which all
paths to an exit pass it, while it does not strictly post-dominate them. -/
def controlDependence (g : Flow V) : List NodeSet :=
  let t := g.postDominators
  (List.range g.size).foldl (fun deps a =>
    let stop := (t.parents[a]?).join
    (g.succs a).foldl (fun deps b =>
      (t.upTo stop (g.size + 1) (some b)).foldl (fun deps x => deps.modify x (NodeSet.insert a)) deps)
      deps)
    (List.replicate g.size [])

end DeltaSlice.Flow
