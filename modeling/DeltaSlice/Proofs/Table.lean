import DeltaSlice.Table

/-!
Tables whose keys have one entry each are functions: what is looked up is what is listed, and every
operation is known by what can be looked up after it.
-/

namespace DeltaSlice

namespace Table

variable {κ α β : Type} [DecidableEq κ] {t : Table κ α} {k j : κ} {a : α}

theorem mem_of_get? (h : t.get? k = some a) : (k, a) ∈ t.entries := by
  obtain ⟨e, he, rfl⟩ := Option.map_eq_some_iff.1 h
  have hk : e.1 = k := by simpa using List.find?_some he
  have hmem := List.mem_of_find?_eq_some he
  rw [← hk]
  exact hmem

theorem get?_of_mem (nodup : (t.entries.map (·.1)).Nodup) (h : (k, a) ∈ t.entries) :
    t.get? k = some a := by
  obtain ⟨es⟩ := t
  induction es with
  | nil => cases h
  | cons e es ih =>
      obtain ⟨hne, hrest⟩ := List.nodup_cons.1 nodup
      rcases List.mem_cons.1 h with rfl | h
      · simp [get?]
      · have hek : e.1 ≠ k := by
          rintro rfl
          exact hne (List.mem_map.2 ⟨(e.1, a), h, rfl⟩)
        have := ih hrest h
        simpa [get?, hek] using this

theorem get?_eq_none : t.get? k = none ↔ k ∉ t.entries.map (·.1) := by
  simp only [get?, Option.map_eq_none_iff, List.find?_eq_none, List.mem_map, not_exists, not_and]
  constructor
  · intro h e he hk
    exact h e he (by simpa using hk)
  · intro h e he hk
    exact h e he (by simpa using hk)

theorem contains_iff : t.contains k = true ↔ k ∈ t.entries.map (·.1) := by
  simp [contains]

theorem get?_keep (p : κ → Bool) : (t.keep p).get? k = if p k then t.get? k else none := by
  obtain ⟨es⟩ := t
  induction es with
  | nil => simp [keep, get?]
  | cons e es ih =>
      simp only [keep, get?] at ih ⊢
      by_cases hek : e.1 = k
      · subst hek
        by_cases hp : p e.1
        · simp [hp]
        · simp only [List.filter_cons, hp] at ih ⊢
          simpa using ih
      · by_cases hp : p e.1
        · simpa [List.filter_cons, hp, hek] using ih
        · simpa [List.filter_cons, hp, hek] using ih

theorem get?_erase : (t.erase k).get? j = if j = k then none else t.get? j := by
  have kept : t.erase k = t.keep fun i => i ≠ k := rfl
  rw [kept, get?_keep]
  by_cases same : j = k <;> simp [same]

theorem get?_mapValues (f : κ → α → β) : (t.mapValues f).get? k = (t.get? k).map (f k) := by
  obtain ⟨es⟩ := t
  induction es with
  | nil => rfl
  | cons e es ih =>
      simp only [mapValues, get?] at ih ⊢
      by_cases hek : e.1 = k
      · subst hek
        simp
      · simpa [hek] using ih

theorem get?_insert : (t.insert k a).get? j = if j = k then some a else t.get? j := by
  split
  · rename_i h
    rw [h, get?_insert_self]
  · rename_i h
    exact get?_insert_of_ne t a h

omit [DecidableEq κ] in
theorem keys_mapValues (f : κ → α → β) :
    (t.mapValues f).entries.map (·.1) = t.entries.map (·.1) := by
  simp [mapValues]

theorem keys_insert : (t.insert k a).entries.map (·.1) =
    if k ∈ t.entries.map (·.1) then t.entries.map (·.1) else t.entries.map (·.1) ++ [k] := by
  unfold insert
  split
  · rename_i h
    rw [if_pos (contains_iff.1 h), List.map_map]
    refine List.map_congr_left ?_
    intro e _
    by_cases hek : e.1 = k
    · simp [hek]
    · simp [hek]
  · rename_i h
    rw [if_neg (fun hk => h (contains_iff.2 hk))]
    simp

theorem nodup_insert (nodup : (t.entries.map (·.1)).Nodup) :
    ((t.insert k a).entries.map (·.1)).Nodup := by
  rw [keys_insert]
  split
  · exact nodup
  · rename_i h
    refine List.nodup_append.2 ⟨nodup, by simp, ?_⟩
    intro x hx y hy
    obtain rfl := List.mem_singleton.1 hy
    rintro rfl
    exact h hx

omit [DecidableEq κ] in
theorem nodup_keep (p : κ → Bool) (nodup : (t.entries.map (·.1)).Nodup) :
    ((t.keep p).entries.map (·.1)).Nodup :=
  nodup.sublist (List.filter_sublist.map _)

theorem nodup_erase (nodup : (t.entries.map (·.1)).Nodup) :
    ((t.erase k).entries.map (·.1)).Nodup :=
  nodup.sublist (List.filter_sublist.map _)

theorem mem_insert {e : κ × α} (h : e ∈ (t.insert k a).entries) :
    e = (k, a) ∨ e ∈ t.entries := by
  unfold insert at h
  split at h
  · obtain ⟨e', he', rfl⟩ := List.mem_map.1 h
    split
    · exact .inl rfl
    · exact .inr he'
  · rcases List.mem_append.1 h with h | h
    · exact .inr h
    · exact .inl (List.mem_singleton.1 h)

end Table

end DeltaSlice
