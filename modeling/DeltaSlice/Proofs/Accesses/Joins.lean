import DeltaSlice.Proofs.Accesses.Possible
import DeltaSlice.Proofs.Coarse.Values
import DeltaSlice.State.Edit

/-!
Stores of conditions. Merging joins the entries of two stores by disjunction, variable by variable, and a missing
entry is no alternative; it differs from one that is false. The key of a store shows its entries in an order of
its own.
-/

namespace DeltaSlice

/-- True, false or unknown. -/
def Value.IsCondition (x : Value) : Prop := x = .unknown ∨ ∃ b, x = .bool b

namespace Value

variable {x y : Value}

instance : Decidable x.IsCondition := inferInstanceAs (Decidable (x = .unknown ∨ ∃ b, x = .bool b))

theorem isCondition_or (x y : Value) : (x.or y).IsCondition := by
  unfold Value.or
  split
  · exact .inr ⟨true, rfl⟩
  · split
    · exact .inr ⟨false, rfl⟩
    · exact .inl rfl

theorem or_comm (x y : Value) : x.or y = y.or x := by
  unfold Value.or
  rw [Bool.or_comm, Bool.and_comm]

theorem isTrue_or (x y : Value) : (x.or y).isTrue = (x.isTrue || y.isTrue) := by
  unfold Value.or
  split
  · rename_i h
    rw [h]
    rfl
  · rename_i h
    rw [Bool.eq_false_iff.2 h]
    split <;> rfl

theorem isFalse_or (x y : Value) : (x.or y).isFalse = (x.isFalse && y.isFalse) := by
  unfold Value.or
  split
  · rename_i h
    rcases Bool.or_eq_true_iff.1 h with h | h <;> simp [isFalse_of_isTrue h] <;> rfl
  · split
    · rename_i h
      rw [h]
      rfl
    · rename_i h
      rw [Bool.eq_false_iff.2 h]
      rfl

theorem or_assoc (x y z : Value) : (x.or y).or z = x.or (y.or z) := by
  have outer : ∀ x y : Value, x.or y = if x.isTrue || y.isTrue then bool true
      else if x.isFalse && y.isFalse then bool false else unknown := fun _ _ => rfl
  rw [outer (x.or y) z, outer x (y.or z), isTrue_or, isTrue_or, isFalse_or, isFalse_or, Bool.or_assoc,
    Bool.and_assoc]

theorem IsCondition.or_self (h : x.IsCondition) : x.or x = x := by
  rcases h with rfl | ⟨b, rfl⟩
  · rfl
  · cases b <;> rfl

theorem IsCondition.false_or (h : x.IsCondition) : (bool false).or x = x := by
  rcases h with rfl | ⟨b, rfl⟩
  · rfl
  · cases b <;> rfl

instance : Std.Commutative Value.or := ⟨or_comm⟩

instance : Std.Associative Value.or := ⟨or_assoc⟩

/-- Joining an entry with itself changes nothing. -/
theorem merge_self {u : Option Value} (h : ∀ c, u = some c → c.IsCondition) : Option.merge Value.or u u = u := by
  cases u with
  | none => rfl
  | some c => exact congrArg some (h c rfl).or_self

theorem merge_comm (u w : Option Value) : Option.merge Value.or u w = Option.merge Value.or w u :=
  Std.Commutative.comm u w

theorem merge_assoc (u w e : Option Value) :
    Option.merge Value.or (Option.merge Value.or u w) e = Option.merge Value.or u (Option.merge Value.or w e) :=
  Std.Associative.assoc u w e

end Value

/-- Tables with the same entries, each key having one at most, list them in some order. -/
theorem Table.perm_of_get?_eq {κ α : Type} [DecidableEq κ] {t u : Table κ α}
    (nodup : (t.entries.map (·.1)).Nodup) (nodup' : (u.entries.map (·.1)).Nodup)
    (same : ∀ k, t.get? k = u.get? k) : t.entries.Perm u.entries := by
  have within : ∀ {t u : Table κ α}, (t.entries.map (·.1)).Nodup → (∀ k, t.get? k = u.get? k) →
      ∀ e ∈ t.entries, e ∈ u.entries := by
    intro t u nodup same e he
    have found := Table.get?_of_mem nodup he
    rw [same] at found
    exact Table.mem_of_get? found
  exact (List.perm_ext_iff_of_nodup (.of_map _ nodup) (.of_map _ nodup')).2 fun e =>
    ⟨within nodup same e, within nodup' (fun k => (same k).symm) e⟩

/-- Every variable has one entry at most, under a condition. -/
structure Store.Conditional (s : Store) : Prop where
  nodup : (s.entries.map (·.1)).Nodup
  conditions : ∀ e ∈ s.entries, e.2.IsCondition

namespace Store.Conditional

variable {s s' : Store} {v : Variable} {c : Value}

theorem hasKey (h : s.Conditional) : s.hasKey = true := by
  refine List.all_eq_true.2 fun e he => ?_
  rcases h.conditions e he with same | ⟨b, same⟩
  · rw [same]
    rfl
  · rw [same]
    rfl

theorem key_eq (h : s.Conditional) (h' : s'.Conditional) (same : ∀ v, s.get? v = s'.get? v) : s.key = s'.key := by
  have perm := Table.perm_of_get?_eq h.nodup h'.nodup same
  have empty : s.isEmpty = s'.isEmpty := by
    unfold Table.isEmpty
    rw [Bool.eq_iff_iff, List.isEmpty_iff, List.isEmpty_iff, ← List.length_eq_zero_iff, ← List.length_eq_zero_iff,
      perm.length_eq]
  unfold Store.key
  rw [empty]
  split
  · rfl
  · dsimp only
    rw [sortByText_id_eq (perm.map _)]

theorem condition (h : s.Conditional) (hc : s.get? v = some c) : c.IsCondition :=
  h.conditions _ (Table.mem_of_get? hc)

open ReadWrite in
theorem weaken (h : s.Conditional) (v : Variable) (c : Value) : Conditional (weaken s v c) := by
  refine ⟨Table.nodup_insert h.nodup, fun e he => ?_⟩
  rcases Table.mem_insert he with rfl | he
  · exact Value.isCondition_or _ _
  · exact h.conditions e he

open ReadWrite in
theorem get?_weaken (s : Store) {c : Value} (hc : c.IsCondition) (v w : Variable) :
    (ReadWrite.weaken s v c).get? w = if w = v then Option.merge Value.or (s.get? v) (some c) else s.get? w := by
  unfold ReadWrite.weaken lookup
  rw [Table.get?_insert]
  split
  · cases s.get? v with
    | none => exact congrArg some hc.false_or
    | some x => rfl
  · rfl

/-- Merging joins the entries variable by variable; a missing entry is no alternative. -/
theorem merge (h : s.Conditional) (h' : s'.Conditional) : Conditional (ReadWrite.merge s s') ∧
    ∀ v, (ReadWrite.merge s s').get? v = Option.merge Value.or (s.get? v) (s'.get? v) := by
  obtain ⟨es⟩ := s'
  unfold ReadWrite.merge
  induction es generalizing s with
  | nil =>
      refine ⟨h, fun v => ?_⟩
      rw [show Table.get? ⟨[]⟩ v = (none : Option Value) from rfl, Option.merge_none_right]
      rfl
  | cons e es ih =>
      obtain ⟨fresh, nodup⟩ := List.nodup_cons.1 h'.nodup
      obtain ⟨first, rest⟩ := List.forall_mem_cons.1 h'.conditions
      obtain ⟨conditional, joined⟩ := ih (h.weaken e.1 e.2) ⟨nodup, rest⟩
      refine ⟨conditional, fun v => (joined v).trans ?_⟩
      rw [get?_weaken s first]
      by_cases same : v = e.1
      · subst same
        have absent : Table.get? ⟨es⟩ e.1 = none := Table.get?_eq_none.2 fresh
        have present : Table.get? ⟨e :: es⟩ e.1 = some e.2 := by simp [Table.get?]
        rw [if_pos rfl, absent, present, Option.merge_none_right]
      · have later : Table.get? ⟨e :: es⟩ v = Table.get? ⟨es⟩ v := by simp [Table.get?, Ne.symm same]
        rw [if_neg same, later]

/-- The condition of a variable in a merged store is the disjunction of its conditions. -/
theorem lookup_merge (h : s.Conditional) (h' : s'.Conditional) (v : Variable) :
    ReadWrite.lookup (ReadWrite.merge s s') v = (ReadWrite.lookup s v).or (ReadWrite.lookup s' v) := by
  unfold ReadWrite.lookup
  rw [(h.merge h').2]
  cases hx : s.get? v with
  | none =>
      cases hy : s'.get? v with
      | none => rfl
      | some y => exact (h'.condition hy).false_or.symm
  | some x =>
      cases s'.get? v with
      | none =>
          rw [Option.merge_none_right, Option.getD_some, Option.getD_none, Value.or_comm]
          exact (h.condition hx).false_or.symm
      | some y => rfl

end Store.Conditional

instance (s : Store) : Decidable s.Conditional :=
  decidable_of_iff ((s.entries.map (·.1)).Nodup ∧ ∀ e ∈ s.entries, e.2.IsCondition)
    ⟨fun h => ⟨h.1, h.2⟩, fun h => ⟨h.nodup, h.conditions⟩⟩

/-- Both stores hold conditions. -/
def ReadWrite.Conditional (i : ReadWrite) : Prop := ∀ k, (i.store k).Conditional

instance (i : ReadWrite) : Decidable i.Conditional :=
  decidable_of_iff ((i.store .reading).Conditional ∧ (i.store .writing).Conditional)
    ⟨fun h k => k.casesOn h.1 h.2, fun h => ⟨h .reading, h .writing⟩⟩

theorem ReadWrite.Conditional.compose {i j : ReadWrite} (hi : i.Conditional) (hj : j.Conditional) :
    (i.compose j).Conditional := fun k =>
  Simulator.store_compose i j k ▸ ((hi k).merge (hj k)).1

end DeltaSlice
