/-!
Finite maps as lists of entries. A key has at most one entry as long as entries are only added by
`insert`; the order of the entries is the order of first insertion and is never shown.
-/

namespace DeltaSlice

structure Table (κ : Type) (α : Type) where
  entries : List (κ × α)

namespace Table

variable {κ α : Type} [DecidableEq κ]

def empty : Table κ α := ⟨[]⟩

instance : EmptyCollection (Table κ α) := ⟨empty⟩

def get? (t : Table κ α) (k : κ) : Option α :=
  (t.entries.find? fun e => e.1 = k).map (·.2)

def contains (t : Table κ α) (k : κ) : Bool :=
  t.entries.any fun e => e.1 = k

/-- Sets the value of `k`, in place if it has one. -/
def insert (t : Table κ α) (k : κ) (a : α) : Table κ α :=
  if t.contains k then ⟨t.entries.map fun e => if e.1 = k then (k, a) else e⟩
  else ⟨t.entries ++ [(k, a)]⟩

def erase (t : Table κ α) (k : κ) : Table κ α :=
  ⟨t.entries.filter fun e => e.1 ≠ k⟩

/-- Keeps the entries whose key satisfies `p`. -/
def keep (t : Table κ α) (p : κ → Bool) : Table κ α :=
  ⟨t.entries.filter fun e => p e.1⟩

def keys (t : Table κ α) : List κ := t.entries.map (·.1)

def size (t : Table κ α) : Nat := t.entries.length

def isEmpty (t : Table κ α) : Bool := t.entries.isEmpty

def mapValues {β : Type} (t : Table κ α) (f : κ → α → β) : Table κ β :=
  ⟨t.entries.map fun e => (e.1, f e.1 e.2)⟩

@[simp] theorem get?_empty (k : κ) : (empty : Table κ α).get? k = none := rfl

@[simp] theorem get?_insert_self (t : Table κ α) (k : κ) (a : α) :
    (t.insert k a).get? k = some a := by
  obtain ⟨es⟩ := t
  unfold insert
  split
  · rename_i h
    simp only [contains] at h
    induction es with
    | nil => simp at h
    | cons e es ih =>
      by_cases he : e.1 = k
      · simp [get?, he]
      · have h' : (es.any fun e => decide (e.1 = k)) = true := by simpa [he] using h
        have := ih h'
        simpa [get?, he] using this
  · rename_i h
    have hn : es.find? (fun e => decide (e.1 = k)) = none := by
      refine List.find?_eq_none.2 fun e he hk => h ?_
      exact List.any_eq_true.2 ⟨e, he, hk⟩
    simp [get?, List.find?_append, hn]

theorem get?_insert_of_ne (t : Table κ α) {k j : κ} (a : α) (h : j ≠ k) :
    (t.insert k a).get? j = t.get? j := by
  obtain ⟨es⟩ := t
  unfold insert
  split
  · rename_i hc
    clear hc
    induction es with
    | nil => rfl
    | cons e es ih =>
      by_cases he : e.1 = k
      · have hj : e.1 ≠ j := fun x => h (x.symm.trans he)
        have hk : k ≠ j := fun x => h x.symm
        simpa [get?, he, hk] using ih
      · by_cases hj : e.1 = j
        · simp [get?, hj, h]
        · simpa [get?, he, hj] using ih
  · simp [get?, List.find?_append, Ne.symm h]

end Table

end DeltaSlice
