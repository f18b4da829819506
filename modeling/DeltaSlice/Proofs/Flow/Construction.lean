import DeltaSlice.Flow.Builder

/-!
Graphs built node by node and edge by edge, as long as no edge is refused: edges lead to nodes, and the
predecessors of a node are those that have it as a successor.
-/

namespace DeltaSlice

namespace FlowBuilder

/-- Built from a number of nodes without edges by adding nodes, and edges that are not refused. -/
inductive Built : FlowBuilder → Prop
  | ofSize (start : Int) (n : Nat) : Built (ofSize start n)
  | addNode {b : FlowBuilder} : Built b → Built b.addNode
  | addEdge {b : FlowBuilder} {source target : Int} : Built b → (b.addEdge source target).2 = .ok () →
      Built (b.addEdge source target).1

/-- The edges of a graph are known at both of their ends. -/
structure Mirrored (b : FlowBuilder) : Prop where
  target : ∀ (n : Nat) (x : BuilderNode), b.nodes[n]? = some x → ∀ m ∈ x.succs, ∃ k < b.nodes.length, m = (k : Int)
  preds : ∀ (n : Nat) (x : BuilderNode), b.nodes[n]? = some x → ∀ k, k ∈ x.preds ↔
    ∃ y, b.nodes[k]? = some y ∧ (n : Int) ∈ y.succs

variable {b : FlowBuilder}

theorem Mirrored.addNode (h : b.Mirrored) : b.addNode.Mirrored := by
  have at_ : ∀ n : Nat, b.addNode.nodes[n]? =
      if n < b.nodes.length then b.nodes[n]?
      else if n = b.nodes.length then some ⟨[], [], .empty, .empty⟩ else none := by
    intro n
    unfold FlowBuilder.addNode
    rw [List.getElem?_append]
    split
    · rfl
    · rename_i beyond
      by_cases last : n = b.nodes.length
      · simp [last]
      · rw [if_neg last, List.getElem?_eq_none (by simp; omega)]
  refine ⟨fun n x hx m hm => ?_, fun n x hx k => ?_⟩
  · rw [at_] at hx
    split at hx
    · obtain ⟨k, hk, rfl⟩ := h.target n x hx m hm
      exact ⟨k, by simp only [FlowBuilder.addNode, List.length_append, List.length_singleton]; omega, rfl⟩
    · split at hx
      · obtain rfl := Option.some.inj hx
        cases hm
      · cases hx
  · -- the new node has no edges, and no old edge leads to it
    have same : (∃ y, b.addNode.nodes[k]? = some y ∧ (n : Int) ∈ y.succs) ↔
        ∃ y, b.nodes[k]? = some y ∧ (n : Int) ∈ y.succs := by
      refine exists_congr fun y => and_congr_left fun hn => ?_
      rw [at_]
      split
      · rfl
      · rename_i beyond
        rw [List.getElem?_eq_none (Nat.le_of_not_lt beyond)]
        split
        · refine iff_of_false (fun hy => ?_) (by simp)
          obtain rfl := Option.some.inj hy
          cases hn
        · rfl
    rw [same]
    rw [at_] at hx
    split at hx
    · exact h.preds n x hx k
    · rename_i beyond
      split at hx
      · obtain rfl := Option.some.inj hx
        refine iff_of_false (by simp) ?_
        rintro ⟨y, hy, hn⟩
        obtain ⟨j, hj, same⟩ := h.target k y hy n hn
        omega
      · cases hx

/-- An edge that is not refused was there before, or is put at both of its ends. -/
theorem addEdge_cases {source target : Int} (h : (b.addEdge source target).2 = .ok ()) :
    (b.addEdge source target).1 = b ∨ ∃ (i j : Nat) (x : BuilderNode), source = i ∧ target = j ∧ j < b.nodes.length ∧
      b.nodes[i]? = some x ∧ (j : Int) ∉ x.succs ∧ (b.addEdge source target).1 = { b with
        nodes := (b.nodes.modify i fun x => { x with succs := x.succs ++ [(j : Int)] }).modify j
          fun y => { y with preds := y.preds ++ [i] } } := by
  have index : ∀ {n : Int} {i : Nat}, b.index? n = some i → n = i ∧ i < b.nodes.length := by
    intro n i hi
    unfold index? at hi
    split at hi
    · rename_i inside
      have inside : 0 ≤ n ∧ n < b.nodes.length := by simpa using inside
      obtain rfl := Option.some.inj hi
      omega
    · cases hi
  unfold addEdge at h ⊢
  split at h
  · rename_i i x hsource hnode
    split
    · exact .inl rfl
    · rename_i fresh
      rw [if_neg fresh] at h
      dsimp only at h ⊢
      cases htarget : FlowBuilder.index? b target with
      | none => simp [htarget] at h
      | some j =>
          obtain ⟨rfl, inside⟩ := index hsource
          obtain ⟨rfl, low⟩ := index htarget
          refine .inr ⟨i, j, x, rfl, rfl, low, ?_, by simpa using fresh, ?_⟩
          · simpa [node?, elementAt?] using hnode
          · rfl
  · cases h

theorem Mirrored.addEdge (h : b.Mirrored) {source target : Int} (added : (b.addEdge source target).2 = .ok ()) :
    (b.addEdge source target).1.Mirrored := by
  rcases addEdge_cases added with same | ⟨i, j, x₀, -, -, hj, hx₀, fresh, after⟩
  · rwa [same]
  rw [after]
  have at_ : ∀ n : Nat, (((b.nodes.modify i fun x => { x with succs := x.succs ++ [(j : Int)] }).modify j
      fun y => { y with preds := y.preds ++ [i] }) : List BuilderNode)[n]? = (b.nodes[n]?).map fun x =>
        { x with succs := if n = i then x.succs ++ [(j : Int)] else x.succs,
                 preds := if n = j then x.preds ++ [i] else x.preds } := by
    intro n
    rw [List.getElem?_modify, List.getElem?_modify]
    cases b.nodes[n]? with
    | none => rfl
    | some x => by_cases hi : i = n <;> by_cases hj : j = n <;> simp [hi, hj, Ne.symm]
  refine ⟨fun n x hx m hm => ?_, fun n x hx k => ?_⟩
  · rw [at_] at hx
    obtain ⟨y, hy, rfl⟩ := Option.map_eq_some_iff.1 hx
    have hm : m ∈ y.succs ∨ m = j := by
      dsimp only at hm
      split at hm
      · simpa using hm
      · exact .inl hm
    rcases hm with hm | rfl
    · simpa using h.target n y hy m hm
    · exact ⟨j, by simpa using hj, rfl⟩
  · rw [at_] at hx
    obtain ⟨y, hy, rfl⟩ := Option.map_eq_some_iff.1 hx
    -- the edge is new, so `n` gets `i` as a predecessor exactly if it is the target
    have edges : (∃ z, (((b.nodes.modify i fun x => { x with succs := x.succs ++ [(j : Int)] }).modify j
        fun y => { y with preds := y.preds ++ [i] }) : List BuilderNode)[k]? = some z ∧ (n : Int) ∈ z.succs) ↔
        (∃ z, b.nodes[k]? = some z ∧ (n : Int) ∈ z.succs) ∨ k = i ∧ n = j := by
      rw [at_]
      constructor
      · rintro ⟨z, hz, hn⟩
        obtain ⟨w, hw, rfl⟩ := Option.map_eq_some_iff.1 hz
        dsimp only at hn
        split at hn
        · rename_i hk
          rcases List.mem_append.1 hn with hn | hn
          · exact .inl ⟨w, hw, hn⟩
          · exact .inr ⟨hk, Int.ofNat.inj (List.mem_singleton.1 hn)⟩
        · exact .inl ⟨w, hw, hn⟩
      · rintro (⟨z, hz, hn⟩ | ⟨rfl, rfl⟩)
        · refine ⟨_, by rw [hz]; rfl, ?_⟩
          dsimp only
          split
          · exact List.mem_append_left _ hn
          · exact hn
        · exact ⟨_, by rw [hx₀]; rfl, by simp⟩
    dsimp only
    rw [edges, ← h.preds n y hy k]
    split
    · rename_i hn
      simp [hn]
    · rename_i hn
      simp [hn]

theorem Built.mirrored (h : b.Built) : b.Mirrored := by
  induction h with
  | ofSize start n =>
      unfold FlowBuilder.ofSize
      have all : ∀ (l : List Nat) (b : FlowBuilder), b.Mirrored → (l.foldl (fun b _ => b.addNode) b).Mirrored := by
        intro l
        induction l with
        | nil => exact fun _ h => h
        | cons _ l ih => exact fun b h => ih _ h.addNode
      exact all _ _ ⟨by simp, by simp⟩
  | addNode _ ih => exact ih.addNode
  | addEdge _ added ih => exact ih.addEdge added

section

variable (h : b.Mirrored)

include h

/-- The graph has the edges that were added, and no other ones. -/
theorem Mirrored.mem_succs {n m : Nat} : m ∈ b.flow.succs n ↔ ∃ x, b.nodes[n]? = some x ∧ (m : Int) ∈ x.succs := by
  change m ∈ ((b.nodes[n]?).map fun d => d.succs.filterMap b.index?).getD [] ↔ _
  cases hx : b.nodes[n]? with
  | none => simp
  | some x =>
      simp only [Option.map_some, Option.getD_some, List.mem_filterMap, Option.some.injEq, exists_eq_left']
      constructor
      · rintro ⟨k, hk, hm⟩
        obtain ⟨j, hj, rfl⟩ := h.target n x hx k hk
        rw [index?, if_pos (by simpa using hj)] at hm
        obtain rfl : j = m := by simpa using hm
        exact hk
      · intro hm
        obtain ⟨j, hj, same⟩ := h.target n x hx _ hm
        obtain rfl : m = j := by omega
        exact ⟨_, hm, by simp [index?, hj]⟩

theorem Mirrored.succs_lt : ∀ n < b.flow.size, ∀ m ∈ b.flow.succs n, m < b.flow.size := by
  intro n _ m hm
  obtain ⟨x, hx, hm⟩ := h.mem_succs.1 hm
  obtain ⟨k, hk, same⟩ := h.target n x hx _ hm
  obtain rfl : m = k := by omega
  exact hk

theorem Mirrored.mem_preds : ∀ n < b.flow.size, ∀ m, m ∈ b.flow.preds n ↔ m < b.flow.size ∧ n ∈ b.flow.succs m := by
  intro n hn m
  have hx : b.nodes[n]? = some b.nodes[n] := List.getElem?_eq_getElem hn
  have : b.flow.preds n = b.nodes[n].preds := by
    change ((b.nodes[n]?).map (·.preds)).getD [] = _
    rw [hx]
    rfl
  rw [this, h.preds n _ hx, h.mem_succs]
  exact ⟨fun ⟨y, hy, hm⟩ => ⟨(List.getElem?_eq_some_iff.1 hy).1, y, hy, hm⟩, fun h => h.2⟩

end

end FlowBuilder

end DeltaSlice
