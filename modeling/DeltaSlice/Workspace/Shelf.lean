import DeltaSlice.Guarded
import DeltaSlice.Table

/-!
Shelves: guarded objects under names. Several names may stand for one object, and a change is seen
under all of them.
-/

namespace DeltaSlice

structure Shelf (α : Type) where
  objects : List (Guarded α)
  /-- The numbers of the objects by name. -/
  names : Table String Nat

namespace Shelf

variable {α β : Type}

def empty : Shelf α := ⟨[], .empty⟩

def number? (s : Shelf α) (name : String) : Option Nat := s.names.get? name

def get? (s : Shelf α) (name : String) : Option (Guarded α) :=
  (s.number? name).bind fun n => s.objects[n]?

/-- Gives another name to an object. -/
def rename (s : Shelf α) (name : String) (n : Nat) : Shelf α :=
  { s with names := s.names.insert name n }

/-- A new object without a name. -/
def push (s : Shelf α) (g : Guarded α) : Nat × Shelf α :=
  (s.objects.length, { s with objects := s.objects ++ [g] })

/-- A new object under a name. -/
def add (s : Shelf α) (name : String) (g : Guarded α) : Shelf α :=
  let (n, s) := s.push g
  s.rename name n

def put (s : Shelf α) (n : Nat) (g : Guarded α) : Shelf α :=
  { s with objects := s.objects.set n g }

/-- Edits the object with a name. -/
def edit? (s : Shelf α) (name : String) (e : Edit α β) : Option (Except Fault β × Shelf α) := do
  let n ← s.number? name
  let (r, g) := (← s.objects[n]?).edit e
  return (r, s.put n g)

/-- Freezes the object with a name, and gives its key. -/
def freeze? (s : Shelf α) (key? : α → Except Fault String) (name : String) :
    Option (Except Fault String × Shelf α) := do
  let n ← s.number? name
  let (r, g) := (← s.objects[n]?).freezeBy key?
  return (r, s.put n g)

/-- A copy under another name, which may be changed; gives its key. -/
def copy? (s : Shelf α) (key? : α → Except Fault String) (name as : String) :
    Option (Except Fault String × Shelf α) := do
  let g ← s.get? name
  return (key? g.value, s.add as g.copy)

end Shelf

end DeltaSlice
