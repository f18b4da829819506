import DeltaSlice.Failure

/-!
Guarded objects: they may be changed until they are frozen, and from then on can be shared. An edit
that breaks leaves behind what it did before.
-/

namespace DeltaSlice

/-- A change of an object that may break. The object is kept as the edit left it. -/
abbrev Edit (α : Type) := ExceptT Fault (StateM α)

structure Guarded (α : Type) where
  value : α
  frozen : Bool

namespace Guarded

variable {α β : Type}

def fresh (a : α) : Guarded α := ⟨a, false⟩

def freeze (g : Guarded α) : Guarded α := { g with frozen := true }

/-- A copy that may be changed. -/
def copy (g : Guarded α) : Guarded α := fresh g.value

/-- Changes an object; a frozen one is left as it is. -/
def edit (g : Guarded α) (e : Edit α β) : Except Fault β × Guarded α :=
  if g.frozen then (.error .frozen, g)
  else
    let (r, a) := e.run.run g.value
    (r, fresh a)

/-- An edit that also gives the key of what it leaves behind. -/
def keyed (key? : α → Except Fault String) (e : Edit α β) : Edit α (β × String) := do
  let b ← e
  match key? (← get) with
  | .ok k => return (b, k)
  | .error f => throw f

/-- Freezes an object that has a key, and gives the key. -/
def freezeBy (key? : α → Except Fault String) (g : Guarded α) : Except Fault String × Guarded α :=
  match key? g.value with
  | .ok k => (.ok k, g.freeze)
  | .error f => (.error f, g)

/-- The object after it took over a result, unless it is frozen. The result is a new object then. -/
def takeOver (g : Guarded α) (result : α) : Guarded α :=
  if g.frozen then g else fresh result

theorem edit_frozen (a : α) (e : Edit α β) :
    (Guarded.mk a true).edit e = (.error .frozen, ⟨a, true⟩) := rfl

/-- A frozen object keeps its content. -/
theorem takeOver_frozen (a result : α) : (Guarded.mk a true).takeOver result = ⟨a, true⟩ := rfl

end Guarded

end DeltaSlice
