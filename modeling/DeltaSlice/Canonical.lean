import DeltaSlice.Exploration

/-!
Canonical forms of explorations. They do not depend on the order in which states and transitions were
found, so explorations that differ only in their order of work can be compared.
-/

namespace DeltaSlice

/-- A transition between sorted states; the way into the initial state comes from `-1`. -/
structure CanonicalStep where
  source : Int
  target : Nat
  process : String
  info : String
deriving DecidableEq

/-- By source, target, process and information. -/
def CanonicalStep.le (a b : CanonicalStep) : Bool :=
  if a.source ≠ b.source then a.source < b.source
  else if a.target ≠ b.target then a.target < b.target
  else if a.process ≠ b.process then a.process < b.process
  else !decide (b.info < a.info)

structure Canonical where
  states : List String
  steps : List CanonicalStep
  incomplete : List String
deriving DecidableEq

namespace Exploration

/-- The place of a state among the sorted keys. -/
def place (x : Exploration) (keys : List String) (n : Nat) : Nat :=
  ((x.record.states[n]?).bind fun s => keys.idxOf? s.1).getD 0

def canonical (x : Exploration) : Canonical :=
  let keys := sortByText id (x.record.states.map (·.1))
  let steps := x.record.nodes.map fun (key, y) =>
    CanonicalStep.mk ((y.source.map fun n => Int.ofNat (x.place keys n)).getD (-1))
      (x.place keys y.target) ((y.proc.map Process.text).getD "") key
  ⟨keys, steps.mergeSort CanonicalStep.le, sortByText id (x.incomplete.map Failure.text)⟩

end Exploration

end DeltaSlice
