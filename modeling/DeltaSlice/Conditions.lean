import DeltaSlice.Value.Logic

/-!
Branch conditions: under which conditions the current point of evaluation is reached. There is one
layer per call, and in a layer one condition per control structure, named by its node. The last
layer is the current one; lists have the newest condition first.
-/

namespace DeltaSlice

abbrev ConditionLayer := List (Nat × Value)

namespace ConditionLayer

/-- Restricts the condition of a node, or adds it as the newest. -/
def add (l : ConditionLayer) (node : Nat) (v : Value) : ConditionLayer :=
  if l.any (·.1 = node) then l.map fun c => if c.1 = node then (c.1, c.2.and v) else c
  else (node, v) :: l

/-- Drops the newest conditions up to and including the one of `node`; all, if it has none. -/
def dropThrough (node : Nat) : ConditionLayer → ConditionLayer
  | [] => []
  | c :: l => if c.1 = node then l else dropThrough node l

/-- Drops the conditions newer than the one of `node`; all, if it has none. -/
def dropAbove (node : Nat) : ConditionLayer → ConditionLayer
  | [] => []
  | c :: l => if c.1 = node then c :: l else dropAbove node l

end ConditionLayer

/-- The layer of the running call and those of its callers, the innermost first. -/
structure Conditions where
  current : ConditionLayer
  callers : List ConditionLayer

namespace Conditions

def start : Conditions := ⟨[], []⟩

/-- The conjunction of all conditions. -/
def value (c : Conditions) : Value :=
  (c.callers.reverse ++ [c.current]).foldl
    (fun v l => l.reverse.foldl (fun v x => v.and x.2) v) (.bool true)

def add (c : Conditions) (node : Nat) (v : Value) : Conditions :=
  { c with current := c.current.add node v }

def dropThrough (c : Conditions) (node : Nat) : Conditions :=
  { c with current := c.current.dropThrough node }

def dropAbove (c : Conditions) (node : Nat) : Conditions :=
  { c with current := c.current.dropAbove node }

def enterCall (c : Conditions) : Conditions := ⟨[], c.current :: c.callers⟩

/-- Goes back to the layer of the caller; the outermost layer is only emptied. -/
def leaveCall (c : Conditions) : Conditions :=
  match c.callers with
  | l :: ls => ⟨l, ls⟩
  | [] => ⟨[], []⟩

end Conditions

end DeltaSlice
