import DeltaSlice.Pdg.Edit
import DeltaSlice.Workspace.Shelf

/-!
Dependence graphs under construction. A composition changes its first operand, unless that is frozen
or one of the operands is all that remains.
-/

namespace DeltaSlice

abbrev GraphShelf := Shelf Pdg

namespace GraphShelf

/-- Asks for a node of the graph with a name. -/
def node? (s : GraphShelf) (name : String) (make : Pdg → Nat × Pdg) :
    Option (Except Fault Nat × GraphShelf) := do
  let n ← s.number? name
  let (r, g) := (← s.objects[n]?).makeNode make
  return (r, s.put n g)

/-- Composes two graphs and gives the result a name. Also gives its key, and whether it is one of the
operands, by the names as they are then. -/
def compose? (s : GraphShelf) (as first second : String) :
    Option (Except Fault (String × Bool × Bool) × GraphShelf) := do
  let x ← s.number? first
  let y ← s.number? second
  let g ← s.objects[x]?
  let h ← s.objects[y]?
  match if x = y then .ok .first else g.value.merge h.value with
  | .error f => return (.error f, s)
  | .ok m =>
    let (n, s) : Nat × GraphShelf := match m with
      | .first => (x, s)
      | .second => (y, s)
      | .joined p => if g.frozen then s.push (.fresh p) else (x, s.put x (g.takeOver p))
    let s : GraphShelf := s.rename as n
    let is := fun (name : String) => decide (s.number? name = some n)
    return ((← s.objects[n]?).value.key?.map fun k => (k, is first, is second), s)

/-- Finalizes a graph and gives the result a name. Also gives its key, and whether it is frozen. -/
def finalize? (s : GraphShelf) (as name : String) :
    Option (Except Fault (String × Bool) × GraphShelf) := do
  let n ← s.number? name
  let g ← s.objects[n]?
  let (r, after) := g.finalize
  let s : GraphShelf := s.put n after
  match r with
  | .error f => return (.error f, s)
  | .ok h =>
    let (m, s) : Nat × GraphShelf := if g.frozen then s.push h else (n, s)
    return (h.value.key?.map fun k => (k, h.frozen), s.rename as m)

end GraphShelf

end DeltaSlice
