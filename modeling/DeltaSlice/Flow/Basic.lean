import DeltaSlice.Value.Logic

/-!
Flow graphs: nodes numbered from zero, edges, and for every node and variable whether the node reads
and writes it: never, always, or perhaps.
-/

namespace DeltaSlice

structure Flow (V : Type) where
  size : Nat
  entry : Nat
  succs : Nat → List Nat
  preds : Nat → List Nat
  read : Nat → V → Value
  written : Nat → V → Value
  /-- The variables that a node may write. -/
  possiblyWritten : Nat → List V

namespace Flow

variable {V : Type}

/-- The nodes without a successor. -/
def exits (g : Flow V) : List Nat := (List.range g.size).filter fun n => (g.succs n).isEmpty

/-- Numbers in brackets, divided by blanks. -/
def listText (ns : List Nat) : String := "[" ++ " ".intercalate (ns.map toString) ++ "]"

/-- One line per node with its successors in ascending order. -/
def format (g : Flow V) : String :=
  "entry n" ++ toString g.entry ++ "\n"
    ++ String.join ((List.range g.size).map fun n =>
      "n" ++ toString n ++ " -> " ++ listText ((g.succs n).mergeSort (· ≤ ·)) ++ "\n")

/-- Entry and edges stay within the nodes. -/
structure Valid (g : Flow V) : Prop where
  entry_lt : g.entry < g.size
  succs_lt : ∀ n < g.size, ∀ m ∈ g.succs n, m < g.size
  mem_preds : ∀ n < g.size, ∀ m, m ∈ g.preds n ↔ m < g.size ∧ n ∈ g.succs m

end Flow

end DeltaSlice
