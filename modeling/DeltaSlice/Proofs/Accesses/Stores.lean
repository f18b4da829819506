import DeltaSlice.Proofs.Step.Conditions
import DeltaSlice.Proofs.Table
import DeltaSlice.Proofs.Text
import DeltaSlice.ReadWrite

/-!
Read and write conditions as sets of variables. As long as accesses are noted under conditions that
are not false, a variable is possibly accessed exactly if it has an entry. Merging unites the entries,
and the key of a store gets longer with every new one.
-/

namespace DeltaSlice

theorem Value.isOpen_or (x : Value) {y : Value} (hy : y.IsOpen) : (x.or y).IsOpen := by
  have hfalse : y.isFalse = false := by
    cases hy with
    | inl h => rw [h]; decide
    | inr h => rw [h]; decide
  unfold Value.or
  rw [hfalse, Bool.and_false]
  split
  · exact .inl rfl
  · exact .inr rfl

namespace ReadWrite

variable {s s' : Store} {v w : Variable} {c : Value}

/-- Every variable has at most one entry, under a condition that is not false. -/
structure Live (s : Store) : Prop where
  nodup : (s.entries.map (·.1)).Nodup
  isOpen : ∀ e ∈ s.entries, e.2.IsOpen

theorem live_empty : Live .empty := ⟨by simp [Table.empty], by simp [Table.empty]⟩

theorem mem_keys_weaken : w ∈ (weaken s v c).keys ↔ w ∈ s.keys ∨ w = v := by
  unfold Table.keys weaken
  rw [Table.keys_insert]
  split
  · rename_i h
    constructor
    · exact .inl
    · rintro (hw | rfl)
      · exact hw
      · exact h
  · rw [List.mem_append, List.mem_singleton]

theorem Live.weaken (h : Live s) (v : Variable) (hc : c.IsOpen) : Live (weaken s v c) := by
  refine ⟨Table.nodup_insert h.nodup, fun e he => ?_⟩
  rcases Table.mem_insert he with rfl | he
  · exact Value.isOpen_or _ hc
  · exact h.isOpen e he

theorem Live.possibly_iff (h : Live s) : (lookup s v).possibly = true ↔ v ∈ s.keys := by
  unfold lookup
  cases hv : s.get? v with
  | none =>
      have absent := Table.get?_eq_none.1 hv
      exact iff_of_false (by decide) absent
  | some x =>
      have hmem := Table.mem_of_get? hv
      have present : v ∈ s.keys := List.mem_map.2 ⟨(v, x), hmem, rfl⟩
      refine iff_of_true ?_ present
      cases h.isOpen _ hmem with
      | inl hx =>
          have hx : x = .bool true := hx
          rw [hx]
          decide
      | inr hx =>
          have hx : x = .unknown := hx
          rw [hx]
          decide

/-- Noting a list of accesses under one condition. -/
theorem foldl_weaken_live (track : Variable → Bool) (vs : List Variable) (hc : c.IsOpen)
    (h : Live s) :
    Live (vs.foldl (fun s v => if track v then ReadWrite.weaken s v c else s) s) ∧
      ∀ w, w ∈ (vs.foldl (fun s v => if track v then ReadWrite.weaken s v c else s) s).keys ↔
        w ∈ s.keys ∨ w ∈ vs ∧ track w = true := by
  induction vs generalizing s with
  | nil => exact ⟨h, by simp⟩
  | cons v vs ih =>
      rw [List.foldl_cons]
      by_cases hv : track v = true
      · rw [if_pos hv]
        obtain ⟨live, hkeys⟩ := ih (h.weaken v hc)
        refine ⟨live, fun w => ?_⟩
        rw [hkeys, mem_keys_weaken, List.mem_cons]
        constructor
        · rintro ((hw | rfl) | hw)
          · exact .inl hw
          · exact .inr ⟨.inl rfl, hv⟩
          · exact .inr ⟨.inr hw.1, hw.2⟩
        · rintro (hw | ⟨rfl | hw, ht⟩)
          · exact .inl (.inl hw)
          · exact .inl (.inr rfl)
          · exact .inr ⟨hw, ht⟩
      · rw [if_neg hv]
        obtain ⟨live, hkeys⟩ := ih h
        refine ⟨live, fun w => ?_⟩
        rw [hkeys, List.mem_cons]
        constructor
        · rintro (hw | hw)
          · exact .inl hw
          · exact .inr ⟨.inr hw.1, hw.2⟩
        · rintro (hw | ⟨rfl | hw, ht⟩)
          · exact .inl hw
          · exact absurd ht hv
          · exact .inr ⟨hw, ht⟩

/-- The room that the entries of a store take in its key. -/
def width (s : Store) : Nat :=
  (s.entries.map fun e => e.1.text.length + e.2.key.length + 2).sum

theorem length_key (s : Store) : s.key.length = if s.isEmpty then 0 else width s + 2 := by
  unfold Store.key
  split
  · rfl
  · rename_i hne
    have hne : s.entries ≠ [] := by simpa [Table.isEmpty] using hne
    have perm := sortByText_perm id (s.entries.map fun e => e.1.text ++ "=" ++ e.2.key)
    have joined := length_intercalate ","
      (l := sortByText id (s.entries.map fun e => e.1.text ++ "=" ++ e.2.key)) (by
        intro hnil
        have hlen := perm.length_eq
        rw [hnil, List.length_nil, List.length_map] at hlen
        exact hne (List.length_eq_zero_iff.1 hlen.symm))
    have parts : (fun s => s.length + ",".length) ∘
        (fun e : Variable × Value => e.1.text ++ "=" ++ e.2.key) =
        fun e => e.1.text.length + e.2.key.length + 2 := by
      funext e
      have equals : "=".length = 1 := rfl
      have comma : ",".length = 1 := rfl
      simp only [Function.comp_apply, String.length_append]
      omega
    rw [(perm.map _).sum_eq, List.map_map, parts] at joined
    have comma : ",".length = 1 := rfl
    have left : " \x7b".length = 2 := rfl
    have right : "\x7d".length = 1 := rfl
    simp only [String.length_append]
    unfold width
    omega

theorem length_key_le (h : width s ≤ width s') : s.key.length ≤ s'.key.length := by
  rw [length_key, length_key]
  cases hs : s.isEmpty with
  | true => simp
  | false =>
      cases hs' : s'.isEmpty with
      | true =>
          obtain ⟨es⟩ := s
          obtain ⟨es'⟩ := s'
          obtain rfl : es' = [] := by simpa [Table.isEmpty] using hs'
          cases es with
          | nil => cases hs
          | cons e es => simp [width] at h
      | false => simpa using h

theorem length_key_lt (h : width s < width s') : s.key.length < s'.key.length := by
  rw [length_key, length_key]
  cases hs' : s'.isEmpty with
  | true =>
      obtain ⟨es'⟩ := s'
      obtain rfl : es' = [] := by simpa [Table.isEmpty] using hs'
      simp [width] at h
  | false =>
      cases s.isEmpty with
      | true => simp
      | false => simpa using h

/-- Another alternative may make an entry longer. -/
theorem length_key_or {x y : Value} (hx : x.IsOpen) (hy : y.IsOpen) :
    x.key.length ≤ (x.or y).key.length := by
  cases hx with
  | inl hx =>
      rw [hx]
      have : (Value.bool true).or y = .bool true := by simp [Value.or, Value.isTrue, Value.asBool?,
        Value.bool, Value.lit]
      rw [this]
  | inr hx =>
      have one : (Value.unknown).key.length = 1 := rfl
      rw [hx, one]
      cases Value.isOpen_or .unknown hy with
      | inl h => rw [h]; decide
      | inr h => rw [h]; decide

theorem Live.width_weaken (h : Live s) (v : Variable) (hc : c.IsOpen) :
    width s ≤ width (ReadWrite.weaken s v c) ∧
      (v ∉ s.keys → width s < width (ReadWrite.weaken s v c)) := by
  by_cases hv : v ∈ s.keys
  · refine ⟨?_, fun hn => absurd hv hn⟩
    unfold ReadWrite.weaken Table.insert
    rw [if_pos (Table.contains_iff.2 hv)]
    unfold width
    simp only [List.map_map]
    refine List.sum_le_sum ?_
    intro e he
    by_cases hev : e.1 = v
    · have hget : lookup s v = e.2 := by
        rw [← hev]
        unfold lookup
        rw [Table.get?_of_mem h.nodup he]
        rfl
      simp only [Function.comp_apply, hev, if_true, hget]
      have := length_key_or (h.isOpen e he) hc
      omega
    · simp only [Function.comp_apply, hev, if_false, le_refl]
  · have grows : width s < width (ReadWrite.weaken s v c) := by
      unfold ReadWrite.weaken Table.insert
      rw [if_neg (fun hk => hv (Table.contains_iff.1 hk))]
      unfold width
      rw [List.map_append, List.sum_append, List.map_singleton, List.sum_singleton]
      omega
    exact ⟨grows.le, fun _ => grows⟩

/-- Merging a list of entries unites the variables, and takes more room if one is new. -/
theorem foldl_merge_live {es : List (Variable × Value)} (hes : ∀ e ∈ es, e.2.IsOpen) (h : Live s) :
    Live (es.foldl (fun s e => ReadWrite.weaken s e.1 e.2) s) ∧
      (∀ w, w ∈ (es.foldl (fun s e => ReadWrite.weaken s e.1 e.2) s).keys ↔
        w ∈ s.keys ∨ w ∈ es.map (·.1)) ∧
      width s ≤ width (es.foldl (fun s e => ReadWrite.weaken s e.1 e.2) s) ∧
      ((∃ w ∈ es.map (·.1), w ∉ s.keys) →
        width s < width (es.foldl (fun s e => ReadWrite.weaken s e.1 e.2) s)) := by
  induction es generalizing s with
  | nil => exact ⟨h, by simp, le_refl _, by simp⟩
  | cons e es ih =>
      rw [List.foldl_cons]
      have he := hes e (by simp)
      obtain ⟨wide, wider⟩ := h.width_weaken e.1 he
      obtain ⟨live, hkeys, hle, hlt⟩ :=
        ih (fun x hx => hes x (List.mem_cons_of_mem e hx)) (h.weaken e.1 he)
      refine ⟨live, fun w => ?_, wide.trans hle, ?_⟩
      · rw [hkeys, mem_keys_weaken, List.map_cons, List.mem_cons, or_assoc]
      · rintro ⟨w, hw, hnew⟩
        by_cases first : e.1 ∈ s.keys
        · have hw' : w ∈ es.map (·.1) := by
            rcases List.mem_cons.1 hw with rfl | hw
            · exact absurd first hnew
            · exact hw
          refine lt_of_le_of_lt wide (hlt ⟨w, hw', ?_⟩)
          rw [mem_keys_weaken]
          rintro (hw | rfl)
          · exact hnew hw
          · exact hnew first
        · exact lt_of_lt_of_le (wider first) hle

theorem Live.merge (h : Live s) (h' : Live s') : Live (merge s s') :=
  (foldl_merge_live h'.isOpen h).1

theorem Live.mem_keys_merge (h : Live s) (h' : Live s') :
    w ∈ (ReadWrite.merge s s').keys ↔ w ∈ s.keys ∨ w ∈ s'.keys :=
  (foldl_merge_live h'.isOpen h).2.1 w

theorem Live.length_key_merge (h : Live s) (h' : Live s') :
    s.key.length ≤ (ReadWrite.merge s s').key.length ∧
      (v ∈ s'.keys → v ∉ s.keys → s.key.length < (ReadWrite.merge s s').key.length) := by
  obtain ⟨-, -, hle, hlt⟩ := foldl_merge_live h'.isOpen h
  exact ⟨length_key_le hle, fun hv hn => length_key_lt (hlt ⟨v, hv, hn⟩)⟩

end ReadWrite

end DeltaSlice
