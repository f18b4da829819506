import DeltaSlice.Flow.Basic
import DeltaSlice.NodeSet

/-!
Definition-use chains of a flow graph, found in two ways: by following one definition at a time
until a node surely writes the variable again, and as the fixpoint of the definitions that reach
every node. Both note what they do on the way.
-/

namespace DeltaSlice

/-- The definition of a variable at a node may reach another node that may read it. -/
structure Chain (V : Type) where
  source : Nat
  var : V
  use : Nat
deriving DecidableEq

/-- What a search notes down. -/
inductive Note (V : Type) where
  | definition (node : Nat) (var : V)
  | visit (node : Nat)
  | chain (c : Chain V)

namespace Chain

variable {V : Type}

def le (text : V → String) (a b : Chain V) : Bool :=
  if a.source ≠ b.source then a.source < b.source
  else if a.use ≠ b.use then a.use < b.use
  else !decide (text b.var < text a.var)

end Chain

namespace Note

variable {V : Type}

def text (name : V → String) : Note V → String
  | definition n v => "\tdef n" ++ toString n ++ " " ++ name v ++ "\n"
  | visit n => "\ttake node n" ++ toString n ++ "\n"
  | chain c =>
    "\t\tchain n" ++ toString c.source ++ " " ++ name c.var ++ " -> n" ++ toString c.use ++ "\n"

def chain? : Note V → Option (Chain V)
  | chain c => some c
  | _ => none

/-- The chains that were noted, by definition, use and variable. -/
def chains [DecidableEq V] (name : V → String) (notes : List (Note V)) : List (Chain V) :=
  (notes.filterMap chain?).eraseDups.mergeSort (Chain.le name)

/-- Leaves out the chains that were noted before. -/
def fresh [DecidableEq V] : List (Chain V) → List (Note V) → List (Note V)
  | _, [] => []
  | seen, .chain c :: ns =>
    if seen.contains c then fresh seen ns else .chain c :: fresh (c :: seen) ns
  | seen, n :: ns => n :: fresh seen ns

end Note

namespace Flow

variable {V : Type}

/-- The nodes reached by a definition of `v` that may read it, taking the least node first. -/
def usesFrom (g : Flow V) (v : V) : Nat → NodeSet → NodeSet → List Nat
  | 0, _, _ => []
  | _ + 1, _, [] => []
  | fuel + 1, visited, x :: work =>
    let rest :=
      if (g.written x v).definitely then g.usesFrom v fuel visited work
      else
        let (visited, new) := NodeSet.insertNew visited (g.succs x)
        g.usesFrom v fuel visited (NodeSet.union work new)
    if (g.read x v).possibly then x :: rest else rest

/-- The uses of the definition of `v` at a node. -/
def follow (g : Flow V) (n : Nat) (v : V) : List Nat :=
  let (visited, new) := NodeSet.insertNew [] (g.succs n)
  g.usesFrom v (g.size + 1) visited (NodeSet.union [] new)

/-- What is noted for one node: its definitions, each with its uses. -/
def followAll (g : Flow V) (n : Nat) : List (Note V) :=
  (g.possiblyWritten n).flatMap fun v =>
    .definition n v :: (g.follow n v).map fun u => .chain ⟨n, v, u⟩

/-- The nodes reachable from those in the queue, breadth first. -/
def reachableFrom (g : Flow V) : Nat → NodeSet → List Nat → List Nat
  | 0, _, _ => []
  | _ + 1, _, [] => []
  | fuel + 1, visited, x :: queue =>
    let (visited, new) := NodeSet.insertNew visited (g.succs x)
    x :: g.reachableFrom fuel visited (queue ++ new)

/-- The nodes reachable from the entry, breadth first. -/
def reachable (g : Flow V) : List Nat := g.reachableFrom (g.size + 1) [g.entry] [g.entry]

/-- Follows every definition at a node reachable from the entry. -/
def followNotes (g : Flow V) : List (Note V) := g.reachable.flatMap g.followAll

/-- The chains found by following definitions. -/
def followChains [DecidableEq V] (name : V → String) (g : Flow V) : List (Chain V) :=
  Note.chains name g.followNotes

def followLog (name : V → String) (g : Flow V) : String :=
  "\n\n----- Following definitions ---------\n\n" ++ String.join (g.followNotes.map (Note.text name))

/-- The progress of the fixpoint: the definitions numbered so far, the definitions that reach every
node, and the nodes to visit. A node without a set has not been reached. -/
structure Reaching (V : Type) where
  definitions : List (Nat × V)
  sets : List (Option NodeSet)
  work : NodeSet

namespace Reaching

/-- The number of a definition, which is new if it has none. -/
def number [DecidableEq V] (r : Reaching V) (d : Nat × V) : Nat × Reaching V :=
  match r.definitions.idxOf? d with
  | some i => (i, r)
  | none => (r.definitions.length, { r with definitions := r.definitions ++ [d] })

def numberAll [DecidableEq V] (n : Nat) : Reaching V → List V → NodeSet × Reaching V
  | r, [] => ([], r)
  | r, v :: vs =>
    let (i, r) := r.number (n, v)
    let (is, r) := numberAll n r vs
    (NodeSet.insert i is, r)

/-- Hands definitions over to a successor, which is visited if they are new to it. -/
def flowTo (leaving : NodeSet) (r : Reaching V) (m : Nat) : Reaching V :=
  match (r.sets[m]?).join with
  | none => { r with sets := r.sets.set m (some leaving), work := NodeSet.insert m r.work }
  | some old =>
    let merged := NodeSet.union old leaving
    if merged.length = old.length then r
    else { r with sets := r.sets.set m (some merged), work := NodeSet.insert m r.work }

end Reaching

/-- The definitions that reach a node, by number. -/
def arriving (r : Reaching V) (n : Nat) : List (Nat × (Nat × V)) :=
  (((r.sets[n]?).join).getD []).filterMap fun i => (r.definitions[i]?).map (i, ·)

/-- One visit: the chains that end at the node, and its successors told what leaves it. -/
def visitNode [DecidableEq V] (g : Flow V) (r : Reaching V) (n : Nat) :
    List (Note V) × Reaching V :=
  let ds := arriving r n
  let found := ds.filter fun d => (g.read n d.2.2).possibly
  let kept := (ds.filter fun d => !(g.written n d.2.2).definitely).map (·.1)
  let (own, r) := r.numberAll n (g.possiblyWritten n)
  let r := (g.succs n).foldl (Reaching.flowTo (NodeSet.union kept own)) r
  (.visit n :: found.map fun d => .chain ⟨d.2.1, d.2.2, n⟩, r)

/-- Visits nodes, the least first, until none is left. -/
def solve [DecidableEq V] (g : Flow V) : Nat → Reaching V → List (Note V)
  | 0, _ => []
  | fuel + 1, r =>
    match r.work with
    | [] => []
    | n :: work =>
      let (notes, r) := g.visitNode { r with work } n
      notes ++ g.solve fuel r

/-- A node is visited when it is reached and whenever another definition reaches it. -/
def visitBound (g : Flow V) : Nat :=
  (g.size + 1) * (List.range g.size).foldl (fun k n => k + (g.possiblyWritten n).length) 2

def fixpointNotes [DecidableEq V] (g : Flow V) : List (Note V) :=
  Note.fresh [] <| g.solve g.visitBound
    ⟨[], (List.replicate g.size none).set g.entry (some []), [g.entry]⟩

/-- The chains found by the fixpoint. -/
def fixpointChains [DecidableEq V] (name : V → String) (g : Flow V) : List (Chain V) :=
  Note.chains name g.fixpointNotes

def fixpointLog [DecidableEq V] (name : V → String) (g : Flow V) : String :=
  "\n\n----- Solving reaching definitions ---------\n\n"
    ++ String.join (g.fixpointNotes.map (Note.text name)) ++ "Solver done\n"

end Flow

end DeltaSlice
