import DeltaSlice.Table

/-!
Memo tables: a value is made on first use of its key and kept until it is evicted.
-/

namespace DeltaSlice

structure Memo (κ α : Type) where
  table : Table κ α
  /-- How many values were made so far. -/
  made : Nat

namespace Memo

variable {κ α : Type} [DecidableEq κ]

def empty : Memo κ α := ⟨.empty, 0⟩

/-- The value of `k`, made by `create` if there is none yet. -/
def get (m : Memo κ α) (k : κ) (create : κ → α) : α × Memo κ α :=
  match m.table.get? k with
  | some a => (a, m)
  | none => (create k, ⟨m.table.insert k (create k), m.made + 1⟩)

def evict (m : Memo κ α) (k : κ) : Memo κ α := { m with table := m.table.erase k }

def size (m : Memo κ α) : Nat := m.table.size

/-- A value once made is given until its key is evicted. -/
theorem get_get (m : Memo κ α) (k : κ) (f g : κ → α) :
    ((m.get k f).2.get k g).1 = (m.get k f).1 := by
  unfold get
  cases h : m.table.get? k with
  | none => simp
  | some a => simp [h]

end Memo

end DeltaSlice
