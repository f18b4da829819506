import DeltaSlice.Proofs.Flow.Construction
import DeltaSlice.Proofs.Flow.Narrowing
import Mathlib.Logic.Function.Iterate

/-!
The forest of immediate post-dominators. A node with a way out hangs below its immediate post-dominator; exits,
nodes without a post-dominator besides themselves and nodes without a way out are not below any other node.
-/

namespace DeltaSlice

namespace Flow

/-- The node above `x`. -/
def PostDomTree.parent? (t : PostDomTree) (x : Nat) : Option Nat := (t.parents[x]?).join

/-- The nodes right below `d`. -/
def PostDomTree.below (t : PostDomTree) (d : Nat) : NodeSet := (t.children[d]?).getD []

variable {V : Type} {g : Flow V} {sets : List (Option NodeSet)} {d x : Nat}

/-- Hangs every node of a list below the node that comes with it. -/
def hang (ps : List (Option Nat)) (child : NodeSet × Nat) : List (Option Nat) :=
  child.1.foldl (fun ps x => ps.set x (some child.2)) ps

theorem getElem?_hang (ps : List (Option Nat)) (child : NodeSet × Nat) (x : Nat) : (hang ps child)[x]? =
    if x ∈ child.1 then (ps[x]?).map fun _ => some child.2 else ps[x]? := by
  obtain ⟨cs, d⟩ := child
  unfold hang
  induction cs generalizing ps with
  | nil => simp
  | cons c cs ih =>
      simp only [List.foldl_cons, List.mem_cons] at ih ⊢
      rw [ih, List.getElem?_set]
      by_cases same : c = x
      · subst same
        by_cases inside : c < ps.length
        · simp [inside]
        · simp [inside]
      · simp [same, Ne.symm same]

/-- Below the last node of the list that comes with it hangs a node in the end, if there is one. -/
theorem getElem?_foldl_hang (cs : List (NodeSet × Nat)) (ps : List (Option Nat)) {x : Nat} (hx : x < ps.length) :
    (∃ c ∈ cs, x ∈ c.1 ∧ (cs.foldl hang ps)[x]? = some (some c.2)) ∨
      (∀ c ∈ cs, x ∉ c.1) ∧ (cs.foldl hang ps)[x]? = ps[x]? := by
  induction cs generalizing ps with
  | nil => exact .inr ⟨by simp, rfl⟩
  | cons c cs ih =>
      have hung := getElem?_hang ps c x
      have hx' : x < (hang ps c).length := by
        have inside : (hang ps c)[x]?.isSome = true := by
          rw [hung]
          split <;> simp [hx]
        simpa using inside
      rw [List.foldl_cons]
      rcases ih _ hx' with ⟨c', hc', hmem, parent⟩ | ⟨none, parent⟩
      · exact .inl ⟨c', List.mem_cons_of_mem _ hc', hmem, parent⟩
      · by_cases hc : x ∈ c.1
        · refine .inl ⟨c, List.mem_cons_self, hc, ?_⟩
          rw [parent, hung, if_pos hc, List.getElem?_eq_getElem hx, Option.map_some]
        · exact .inr ⟨List.forall_mem_cons.2 ⟨hc, none⟩, by rw [parent, hung, if_neg hc]⟩

theorem mem_strictlyBelow : x ∈ strictlyBelow sets d ↔ x ≠ d ∧ ∃ s, Has sets x s ∧ d ∈ s := by
  unfold strictlyBelow
  simp only [List.mem_map, List.mem_filter, List.mem_zipIdx_iff_getElem?, Prod.exists, Bool.and_eq_true,
    decide_eq_true_eq, List.contains_iff_mem, exists_eq_right]
  constructor
  · rintro ⟨s, hs, ne, hd⟩
    cases s with
    | none => simp at hd
    | some s => exact ⟨ne, s, hs, hd⟩
  · rintro ⟨ne, s, hs, hd⟩
    exact ⟨some s, hs, ne, hd⟩

theorem pairwise_strictlyBelow (sets : List (Option NodeSet)) (d : Nat) :
    (strictlyBelow sets d).Pairwise (· < ·) := by
  unfold strictlyBelow
  have ascending : (sets.zipIdx.map (·.2)).Pairwise (· < ·) := by
    rw [List.zipIdx_map_snd]
    exact List.pairwise_lt_range'
  exact ascending.sublist ((List.filter_sublist).map _)

theorem mem_directlyBelow {below : List NodeSet} : x ∈ directlyBelow below d ↔
    x ∈ (below[d]?).getD [] ∧ ∀ y ∈ (below[d]?).getD [], x ∉ (below[y]?).getD [] := by
  have removed : ∀ (ys : List Nat) (s : NodeSet), x ∈ ys.foldl (fun s y => NodeSet.diff s ((below[y]?).getD [])) s ↔
      x ∈ s ∧ ∀ y ∈ ys, x ∉ (below[y]?).getD [] := by
    intro ys
    induction ys with
    | nil => simp
    | cons y ys ih => simp [ih, NodeSet.mem_diff, and_assoc]
  exact removed _ _

theorem pairwise_directlyBelow {below : List NodeSet} (h : ((below[d]?).getD []).Pairwise (· < ·)) :
    (directlyBelow below d).Pairwise (· < ·) := by
  have filtered : ∀ (ys : List Nat) (s : NodeSet), s.Pairwise (· < ·) →
      (ys.foldl (fun s y => NodeSet.diff s ((below[y]?).getD [])) s).Pairwise (· < ·) := by
    intro ys
    induction ys with
    | nil => exact fun _ h => h
    | cons y ys ih => exact fun s h => ih _ (h.filter _)
  exact filtered _ _ h

theorem getD_map_range {α : Type} (f : Nat → List α) {n i : Nat} (hi : i < n) :
    (((List.range n).map f)[i]?).getD [] = f i := by
  simp [hi]

theorem pairwise_below (hd : d < g.size) : (g.postDominators.below d).Pairwise (· < ·) := by
  unfold PostDomTree.below postDominators
  dsimp only
  rw [getD_map_range _ hd]
  refine pairwise_directlyBelow ?_
  rw [getD_map_range _ hd]
  exact pairwise_strictlyBelow _ _

section

variable (within : ∀ n < g.size, ∀ m ∈ g.succs n, m < g.size)
  (mirror : ∀ n < g.size, ∀ m, m ∈ g.preds n ↔ m < g.size ∧ n ∈ g.succs m)

include within mirror

theorem mem_strictlyBelow_postDomSets : x ∈ strictlyBelow g.postDomSets d ↔
    x < g.size ∧ g.ReachesExit x ∧ g.StrictlyPostDominates d x := by
  rw [mem_strictlyBelow]
  constructor
  · rintro ⟨ne, s, hs, hd⟩
    obtain ⟨hx, reaches⟩ := (has_postDomSets within mirror).1 ⟨s, hs⟩
    exact ⟨hx, reaches, ne.symm, (mem_of_has within mirror hs).1 hd⟩
  · rintro ⟨hx, reaches, ne, dominates⟩
    obtain ⟨s, hs⟩ := (has_postDomSets within mirror).2 ⟨hx, reaches⟩
    exact ⟨ne.symm, s, hs, (mem_of_has within mirror hs).2 dominates⟩

/-- The nodes right below a node are those whose immediate post-dominator it is. -/
theorem mem_below (hd : d < g.size) : x ∈ g.postDominators.below d ↔
    x < g.size ∧ g.ReachesExit x ∧ g.ImmediatelyPostDominates d x := by
  have below := fun {y z} => mem_strictlyBelow_postDomSets within mirror (x := y) (d := z)
  have listed : ∀ {y}, y < g.size → (((List.range g.size).map (strictlyBelow g.postDomSets))[y]?).getD [] =
      strictlyBelow g.postDomSets y := getD_map_range _
  unfold PostDomTree.below postDominators
  dsimp only
  rw [getD_map_range _ hd, mem_directlyBelow, listed hd, below]
  constructor
  · rintro ⟨⟨hx, reaches, strict⟩, direct⟩
    refine ⟨hx, reaches, strict, fun e he => ?_⟩
    -- otherwise `e` would stand between the two
    rcases strict.2.chain he.2 reaches with between | above
    · by_cases same : d = e
      · exact same ▸ .refl g d
      · have inside := he.2.lt within hx reaches
        have leads := he.2.reachesExit reaches
        refine absurd (below.2 ⟨hx, reaches, he⟩) ?_
        rw [← listed inside]
        exact direct e (below.2 ⟨inside, leads, same, between⟩)
    · exact above
  · rintro ⟨hx, reaches, strict, nearest⟩
    refine ⟨⟨hx, reaches, strict⟩, fun y hy hxy => ?_⟩
    obtain ⟨inside, leads, ne, dominates⟩ := below.1 hy
    rw [listed inside] at hxy
    have back := nearest y (below.1 hxy).2.2
    exact ne (dominates.antisymm back (strict.2.reachesExit reaches))

/-- The node above a node is its immediate post-dominator. -/
theorem parent?_eq_some : g.postDominators.parent? x = some d ↔
    x < g.size ∧ g.ReachesExit x ∧ g.ImmediatelyPostDominates d x := by
  let children := (List.range g.size).map (directlyBelow ((List.range g.size).map (strictlyBelow g.postDomSets)))
  have parents : g.postDominators.parents = children.zipIdx.foldl hang (List.replicate g.size none) := rfl
  have child : ∀ e, children[e]? = if e < g.size then some (g.postDominators.below e) else none := by
    intro e
    have entry : g.postDominators.below e = (children[e]?).getD [] := rfl
    rw [entry, List.getElem?_map]
    by_cases inside : e < g.size <;> simp [inside]
  have listed : ∀ cs e, (cs, e) ∈ children.zipIdx ↔ e < g.size ∧ cs = g.postDominators.below e := by
    intro cs e
    rw [List.mem_zipIdx_iff_getElem?, child]
    split
    · rename_i inside
      simp [inside, eq_comm]
    · rename_i outside
      simp [outside]
  unfold PostDomTree.parent?
  rw [parents]
  by_cases hx : x < g.size
  · have start : x < (List.replicate g.size (none : Option Nat)).length := by simpa using hx
    rcases getElem?_foldl_hang children.zipIdx _ start with ⟨⟨cs, e⟩, hc, hmem, parent⟩ | ⟨none, parent⟩
    · obtain ⟨inside, rfl⟩ := (listed cs e).1 hc
      have immediate := (mem_below within mirror inside).1 hmem
      rw [parent, Option.join_some, Option.some.injEq]
      constructor
      · rintro rfl
        exact immediate
      · rintro ⟨-, reaches, unique⟩
        exact immediate.2.2.unique unique reaches
    · rw [parent, List.getElem?_replicate, if_pos hx]
      refine iff_of_false (by simp) ?_
      rintro ⟨-, reaches, immediate⟩
      have inside := immediate.1.2.lt within hx reaches
      exact none (g.postDominators.below d, d) ((listed _ d).2 ⟨inside, rfl⟩)
        ((mem_below within mirror inside).2 ⟨hx, reaches, immediate⟩)
  · have outside : (children.zipIdx.foldl hang (List.replicate g.size none))[x]? = none := by
      have keeps : ∀ (cs : List (NodeSet × Nat)) (ps : List (Option Nat)), ps[x]? = none →
          (cs.foldl hang ps)[x]? = none := by
        intro cs
        induction cs with
        | nil => exact fun _ h => h
        | cons c cs ih =>
            intro ps h
            exact ih _ (by rw [getElem?_hang, h]; simp)
      exact keeps _ _ (by simp [hx])
    rw [outside]
    exact iff_of_false (by simp) fun h => hx h.1

theorem parent?_eq_none (hx : x < g.size) (reaches : g.ReachesExit x) :
    g.postDominators.parent? x = none ↔ ∀ d, ¬ g.StrictlyPostDominates d x := by
  rw [Option.eq_none_iff_forall_ne_some]
  constructor
  · intro none d strict
    obtain ⟨e, immediate⟩ := exists_immediate within hx reaches strict
    exact none e ((parent?_eq_some within mirror).2 ⟨hx, reaches, immediate⟩)
  · intro none d parent
    exact none d ((parent?_eq_some within mirror).1 parent).2.2.1

/-- Going up from node to node comes to an end. -/
theorem climb_ends (hx : x < g.size) : ∃ k ≤ g.size, (·.bind g.postDominators.parent?)^[k] (some x) = none := by
  have climb : ∀ n x, x < g.size → g.rank x ≤ n →
      ∃ k ≤ n, (·.bind g.postDominators.parent?)^[k] (some x) = none := by
    intro n
    induction n with
    | zero =>
        intro x hx low
        have := rank_pos hx
        omega
    | succ n ih =>
        intro x hx low
        cases hparent : g.postDominators.parent? x with
        | none => exact ⟨1, by omega, hparent⟩
        | some d =>
            obtain ⟨-, reaches, strict, -⟩ := (parent?_eq_some within mirror).1 hparent
            have lower := strict.rank_lt hx reaches
            obtain ⟨k, hk, ends⟩ := ih d (strict.2.lt within hx reaches) (by omega)
            refine ⟨k + 1, by omega, ?_⟩
            rw [Function.iterate_succ_apply, Option.bind_some, hparent, ends]
  obtain ⟨k, hk, ends⟩ := climb (g.rank x) x hx (Nat.le_refl _)
  exact ⟨k, hk.trans (rank_le g x), ends⟩

end

end Flow

/-- The searches end, and the forest of a graph that was built is that of its immediate post-dominators. -/
theorem FlowBuilder.Built.postDominators_exact {b : FlowBuilder} (h : b.Built) :
    SearchMeets b.flow.preds (· ++ ·) b.flow.outermost.1 b.flow.outermost.2 b.flow.leadingOut ∧
    b.flow.Settles b.flow.leadingOut (List.replicate b.flow.size none) b.flow.postDomSets ∧
    (∀ x < b.flow.size, b.flow.ReachesExit x →
      (∀ d, b.flow.postDominators.parent? x = some d ↔ b.flow.ImmediatelyPostDominates d x) ∧
      (∀ d e, b.flow.ImmediatelyPostDominates d x → b.flow.ImmediatelyPostDominates e x → d = e) ∧
      (b.flow.postDominators.parent? x = none ↔ ∀ d, ¬ b.flow.StrictlyPostDominates d x)) ∧
    (∀ x < b.flow.size, ¬ b.flow.ReachesExit x → b.flow.postDominators.parent? x = none) ∧
    (∀ d < b.flow.size, (b.flow.postDominators.below d).Pairwise (· < ·) ∧
      ∀ x, x ∈ b.flow.postDominators.below d ↔ b.flow.postDominators.parent? x = some d) ∧
    ∀ x < b.flow.size, ∃ k ≤ b.flow.size, (·.bind b.flow.postDominators.parent?)^[k] (some x) = none := by
  have within := h.mirrored.succs_lt
  have mirror := h.mirrored.mem_preds
  have parent := fun {x d} => Flow.parent?_eq_some within mirror (x := x) (d := d)
  refine ⟨Flow.leadingOut_meets mirror, (Flow.postDomSets_settled within mirror).settles, fun x hx reaches => ?_,
    fun x hx stuck => ?_, fun d hd => ⟨Flow.pairwise_below hd, fun x => ?_⟩, fun x hx => ?_⟩
  · refine ⟨fun d => ?_, fun d e hd he => hd.unique he reaches, Flow.parent?_eq_none within mirror hx reaches⟩
    rw [parent]
    exact ⟨fun h => h.2.2, fun h => ⟨hx, reaches, h⟩⟩
  · exact Option.eq_none_iff_forall_ne_some.2 fun d hd => stuck (parent.1 hd).2.1
  · rw [parent, Flow.mem_below within mirror hd]
  · exact Flow.climb_ends within mirror hx

/-- A loop over the nodes 1 and 2, entered through 0 and left for the exit 3; from 0 there is a way to 4, which
leads nowhere else but to itself. -/
def Examples.trapped : FlowBuilder :=
  [(0, 1), (1, 2), (2, 1), (1, 3), (0, 4), (4, 4)].foldl (fun b e => (b.addEdge e.1 e.2).1) (.ofSize 0 5)

open FlowBuilder in
theorem Examples.built_trapped : Examples.trapped.Built := by
  have edge : ∀ {b : FlowBuilder} (i j : Int), b.Built → (b.addEdge i j).2 = .ok () → (b.addEdge i j).1.Built :=
    fun _ _ built added => built.addEdge added
  exact edge 4 4 (edge 0 4 (edge 1 3 (edge 2 1 (edge 1 2 (edge 0 1 (.ofSize 0 5) rfl) rfl) rfl) rfl) rfl) rfl

open Examples in
theorem postDominators_exact_trapped :
    trapped.Built ∧ trapped.flow.postDominators.parents = [some 1, some 3, some 1, none, none] ∧
    ∀ d, trapped.flow.postDominators.parent? 0 = some d ↔ trapped.flow.ImmediatelyPostDominates d 0 := by
  have reaches : trapped.flow.ReachesExit 0 :=
    ⟨[0, 1, 3], .step (y := 1) (by decide) (.step (y := 3) (by decide) (.exit (by decide)))⟩
  have tree := FlowBuilder.Built.postDominators_exact built_trapped
  exact ⟨built_trapped, by decide +kernel, (tree.2.2.1 0 (by decide) reaches).1⟩

end DeltaSlice
