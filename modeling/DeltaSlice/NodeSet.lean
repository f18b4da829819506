/-!
Finite sets of node numbers, kept as ascending lists without repetition. All set orders that an
answer shows come from here.
-/

namespace DeltaSlice

abbrev NodeSet := List Nat

namespace NodeSet

def insert (n : Nat) : NodeSet → NodeSet
  | [] => [n]
  | m :: s => if n < m then n :: m :: s else if n = m then m :: s else m :: insert n s

def union (s t : NodeSet) : NodeSet := t.foldl (fun r n => insert n r) s

def inter (s t : NodeSet) : NodeSet := s.filter t.contains

/-- Inserts the numbers of a list that are not members yet; also gives those that were new. -/
def insertNew : NodeSet → List Nat → NodeSet × List Nat
  | s, [] => (s, [])
  | s, n :: ns =>
    if s.contains n then insertNew s ns
    else
      let (s, new) := insertNew (insert n s) ns
      (s, n :: new)

def diff (s t : NodeSet) : NodeSet := s.filter fun n => !t.contains n

theorem mem_insert {n m : Nat} {s : NodeSet} : m ∈ insert n s ↔ m = n ∨ m ∈ s := by
  induction s with
  | nil => simp [insert]
  | cons a s ih =>
    unfold insert
    split
    · simp
    · split
      · rename_i h; subst h; simp
      · simp only [List.mem_cons, ih]
        constructor
        · rintro (h | h | h) <;> simp [h]
        · rintro (h | h | h) <;> simp [h]

theorem pairwise_insert {n : Nat} {s : NodeSet} (h : s.Pairwise (· < ·)) :
    (insert n s).Pairwise (· < ·) := by
  induction s with
  | nil => simp [insert]
  | cons a s ih =>
    obtain ⟨ha, hs⟩ := List.pairwise_cons.1 h
    unfold insert
    split
    · rename_i hn
      refine List.pairwise_cons.2 ⟨?_, h⟩
      intro x hx
      rcases List.mem_cons.1 hx with rfl | hx
      · exact hn
      · exact Nat.lt_trans hn (ha x hx)
    · split
      · exact h
      · refine List.pairwise_cons.2 ⟨?_, ih hs⟩
        intro x hx
        rcases mem_insert.1 hx with rfl | hx
        · omega
        · exact ha x hx

theorem mem_union {n : Nat} {s t : NodeSet} : n ∈ union s t ↔ n ∈ s ∨ n ∈ t := by
  unfold union
  induction t generalizing s with
  | nil => simp
  | cons m t ih =>
      rw [List.foldl_cons, ih, mem_insert, List.mem_cons]
      constructor
      · rintro ((h | h) | h) <;> simp [h]
      · rintro (h | h | h) <;> simp [h]

theorem pairwise_union {s t : NodeSet} (h : s.Pairwise (· < ·)) :
    (union s t).Pairwise (· < ·) := by
  unfold union
  induction t generalizing s with
  | nil => exact h
  | cons m t ih => exact ih (pairwise_insert h)

end NodeSet

end DeltaSlice
