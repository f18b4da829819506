import DeltaSlice.Wait
import Mathlib.Data.List.Nodup
import Mathlib.Algebra.Order.BigOperators.Group.List
import Mathlib.Algebra.Order.Ring.Nat

/-!
Texts of collections: sorting only reorders, and the length of a joined text is the sum of the
lengths of its parts.
-/

namespace DeltaSlice

theorem insertByText_perm {α : Type} (x : String × α) (l : List (String × α)) :
    (insertByText x l).Perm (x :: l) := by
  induction l with
  | nil => exact .refl _
  | cons y l ih =>
      unfold insertByText
      split
      · exact (ih.cons y).trans (.swap x y l)
      · exact .refl _

theorem sortByText_perm {α : Type} (text : α → String) (l : List α) :
    (sortByText text l).Perm l := by
  have main : ∀ m : List (String × α), (m.foldr insertByText []).Perm m := by
    intro m
    induction m with
    | nil => exact .refl _
    | cons x m ih => exact (insertByText_perm x _).trans (ih.cons x)
  have := (main (l.map fun a => (text a, a))).map (·.2)
  rw [List.map_map] at this
  simpa [sortByText, Function.comp_def] using this

theorem insertByText_sorted {α : Type} (x : String × α) {l : List (String × α)}
    (sorted : (l.map (·.1)).Pairwise (· ≤ ·)) : ((insertByText x l).map (·.1)).Pairwise (· ≤ ·) := by
  induction l with
  | nil => exact List.pairwise_singleton _ _
  | cons y l ih =>
      obtain ⟨least, rest⟩ := List.pairwise_cons.1 sorted
      unfold insertByText
      split
      · rename_i lt
        refine List.pairwise_cons.2 ⟨fun t ht => ?_, ih rest⟩
        rcases List.mem_cons.1 (((insertByText_perm x l).map (·.1)).mem_iff.1 ht) with rfl | ht
        · exact String.not_lt.1 (String.lt_asymm lt)
        · exact least t ht
      · rename_i nlt
        have le := String.not_lt.1 nlt
        refine List.pairwise_cons.2 ⟨fun t ht => ?_, sorted⟩
        rcases List.mem_cons.1 ht with rfl | ht
        · exact le
        · exact String.le_trans le (least t ht)

theorem map_sortByText_sorted {α : Type} (text : α → String) (l : List α) :
    ((sortByText text l).map text).Pairwise (· ≤ ·) := by
  -- The items are sorted together with their texts.
  have main : ∀ m : List (String × α), (∀ x ∈ m, x.1 = text x.2) →
      ((m.foldr insertByText []).map (·.1)).Pairwise (· ≤ ·) ∧ ∀ x ∈ m.foldr insertByText [], x.1 = text x.2 := by
    intro m
    induction m with
    | nil => exact fun _ => ⟨.nil, fun x hx => absurd hx List.not_mem_nil⟩
    | cons x m ih =>
        intro hm
        obtain ⟨sorted, texts⟩ := ih fun y hy => hm y (List.mem_cons_of_mem x hy)
        refine ⟨insertByText_sorted x sorted, fun y hy => ?_⟩
        rcases List.mem_cons.1 ((insertByText_perm x _).mem_iff.1 hy) with rfl | hy
        · exact hm _ List.mem_cons_self
        · exact texts y hy
  obtain ⟨sorted, texts⟩ := main (l.map fun a => (text a, a)) (by simp)
  rw [sortByText, List.map_map]
  rwa [List.map_congr_left texts] at sorted

/-- The sorted texts of a collection do not depend on the order of its items. -/
theorem map_sortByText_eq {α : Type} (text : α → String) {l m : List α} (perm : l.Perm m) :
    (sortByText text l).map text = (sortByText text m).map text :=
  List.Perm.eq_of_pairwise (fun _ _ _ _ => String.le_antisymm) (map_sortByText_sorted text l)
    (map_sortByText_sorted text m)
    (((sortByText_perm text l).trans (perm.trans (sortByText_perm text m).symm)).map text)

theorem sortByText_id_eq {l m : List String} (perm : l.Perm m) : sortByText id l = sortByText id m := by
  have same := map_sortByText_eq id perm
  rwa [List.map_id, List.map_id] at same

theorem length_join (l : List String) : (String.join l).length = (l.map String.length).sum := by
  induction l with
  | nil => simp
  | cons s l ih => simp [String.length_append, ih]

theorem length_intercalate (sep : String) {l : List String} (h : l ≠ []) :
    (sep.intercalate l).length + sep.length = (l.map fun s => s.length + sep.length).sum := by
  induction l with
  | nil => exact absurd rfl h
  | cons s l ih =>
      cases l with
      | nil => simp
      | cons t l =>
          have := ih (by simp)
          rw [String.intercalate_cons_cons, String.length_append, String.length_append,
            List.map_cons, List.sum_cons, ← this]
          omega

theorem sum_map_flatMap {α β : Type} (w : β → Nat) (f : α → List β) (l : List α) :
    ((l.flatMap f).map w).sum = (l.map fun a => ((f a).map w).sum).sum := by
  induction l with
  | nil => rfl
  | cons a l ih => simp [ih]

/-- A member that is missing in a part of a list adds its weight. -/
theorem sum_add_le_of_subset {α : Type} [DecidableEq α] {l l' : List α} (w : α → Nat)
    (nodup : l.Nodup) (sub : l ⊆ l') {x : α} (hx : x ∈ l') (hn : x ∉ l) :
    (l.map w).sum + w x ≤ (l'.map w).sum := by
  have whole : x :: l ⊆ l' := by
    intro y hy
    rcases List.mem_cons.1 hy with rfl | hy
    · exact hx
    · exact sub hy
  obtain ⟨m, hperm, hsub⟩ := List.subperm_of_subset (List.nodup_cons.2 ⟨hn, nodup⟩) whole
  have hsum : ((x :: l).map w).sum = (m.map w).sum := (hperm.map w).sum_eq.symm
  have hle : (m.map w).sum ≤ (l'.map w).sum := (hsub.map w).sum_le_sum (by simp)
  rw [List.map_cons, List.sum_cons] at hsum
  omega

theorem sum_le_of_subset {α : Type} [DecidableEq α] {l l' : List α} (w : α → Nat)
    (nodup : l.Nodup) (sub : l ⊆ l') : (l.map w).sum ≤ (l'.map w).sum := by
  obtain ⟨m, hperm, hsub⟩ := List.subperm_of_subset nodup sub
  rw [← (hperm.map w).sum_eq]
  exact (hsub.map w).sum_le_sum (by simp)

end DeltaSlice
