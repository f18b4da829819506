import DeltaSlice.Proofs.Flow.PostDominators

/-!
Control dependence. From a successor of a node, the way up the forest of immediate post-dominators ends at the
node's own immediate post-dominator, which lies on every such way, or at a root: in between are the
post-dominators of the successor that do not strictly post-dominate the node.
-/

namespace DeltaSlice

namespace Flow

/-- The nodes met on the way up to `stop` or a root, however long it is. -/
inductive PostDomTree.Climbs (t : PostDomTree) (stop : Option Nat) : Option Nat → List Nat → Prop
  | above : Climbs t stop none []
  | stop {x : Nat} : stop = some x → Climbs t stop (some x) []
  | up {x : Nat} {xs : List Nat} : stop ≠ some x → Climbs t stop (t.parent? x) xs → Climbs t stop (some x) (x :: xs)

/-- Writes down that the second node depends on the first one. -/
def depend (deps : List NodeSet) (pair : Nat × Nat) : List NodeSet := deps.modify pair.2 (NodeSet.insert pair.1)

theorem length_foldl_depend (pairs : List (Nat × Nat)) (deps : List NodeSet) :
    (pairs.foldl depend deps).length = deps.length := by
  induction pairs generalizing deps with
  | nil => rfl
  | cons pair pairs ih => rw [List.foldl_cons, ih, depend, List.length_modify]

/-- What was written down is there, besides what was there before. -/
theorem getElem?_foldl_depend (pairs : List (Nat × Nat)) {deps : List NodeSet} {n : Nat} {s : NodeSet}
    (before : deps[n]? = some s) (ascending : s.Pairwise (· < ·)) : ∃ s', (pairs.foldl depend deps)[n]? = some s' ∧
      s'.Pairwise (· < ·) ∧ ∀ a, a ∈ s' ↔ (a, n) ∈ pairs ∨ a ∈ s := by
  induction pairs generalizing deps s with
  | nil => exact ⟨s, before, ascending, by simp⟩
  | cons pair pairs ih =>
      obtain ⟨a, m⟩ := pair
      have next : (depend deps (a, m))[n]? = some (if m = n then NodeSet.insert a s else s) := by
        rw [depend, List.getElem?_modify, before]
        split <;> rfl
      have ascending' : (if m = n then NodeSet.insert a s else s).Pairwise (· < ·) := by
        split
        · exact NodeSet.pairwise_insert ascending
        · exact ascending
      obtain ⟨s', after, ascending', mem⟩ := ih next ascending'
      refine ⟨s', after, ascending', fun c => ?_⟩
      rw [mem, List.mem_cons, Prod.mk.injEq]
      by_cases same : m = n
      · rw [if_pos same, NodeSet.mem_insert]
        simp only [same, and_true]
        tauto
      · rw [if_neg same]
        simp only [Ne.symm same, and_false, false_or]

variable {V : Type} {g : Flow V} {a b n x : Nat} {stop : Option Nat} {xs : List Nat}

/-- A node with those on the way up from its successors, up to the node above it. -/
def dependents (g : Flow V) (a : Nat) : List (Nat × Nat) :=
  (g.succs a).flatMap fun b =>
    (g.postDominators.upTo (g.postDominators.parent? a) (g.size + 1) (some b)).map (Prod.mk a)

theorem controlDependence_eq (g : Flow V) :
    g.controlDependence = ((List.range g.size).flatMap g.dependents).foldl depend (List.replicate g.size []) := by
  unfold controlDependence dependents
  simp only [List.foldl_flatMap, List.foldl_map]
  rfl

section

variable (within : ∀ n < g.size, ∀ m ∈ g.succs n, m < g.size)
  (mirror : ∀ n < g.size, ∀ m, m ∈ g.preds n ↔ m < g.size ∧ n ∈ g.succs m)

include within mirror

/-- A node is at most as far down as it has post-dominators. -/
theorem climbs_upTo (stop : Option Nat) (fuel : Nat) (hx : x < g.size) (low : g.rank x < fuel) :
    g.postDominators.Climbs stop (some x) (g.postDominators.upTo stop fuel (some x)) := by
  induction fuel generalizing x with
  | zero => omega
  | succ fuel ih =>
      unfold PostDomTree.upTo
      split
      · rename_i here
        exact .stop here.symm
      · rename_i other
        refine .up (Ne.symm other) ?_
        change g.postDominators.Climbs stop _ (g.postDominators.upTo stop fuel (g.postDominators.parent? x))
        cases hparent : g.postDominators.parent? x with
        | none => cases fuel <;> exact .above
        | some d =>
            obtain ⟨-, reaches, strict, -⟩ := (parent?_eq_some within mirror).1 hparent
            have lower := strict.rank_lt hx reaches
            exact ih (strict.2.lt within hx reaches) (by omega)

/-- The post-dominators of a node are the node itself and those of the node above it. -/
theorem postDominates_iff_of_parent {d : Nat} (parent : g.postDominators.parent? x = some d) :
    g.PostDominates n x ↔ n = x ∨ g.PostDominates n d := by
  obtain ⟨-, -, strict, nearest⟩ := (parent?_eq_some within mirror).1 parent
  constructor
  · intro dominates
    by_cases same : n = x
    · exact .inl same
    · exact .inr (nearest n ⟨same, dominates⟩)
  · rintro (rfl | dominates)
    · exact .refl g n
    · exact dominates.trans strict.2

/-- The way up from a node passes its post-dominators, as long as they do not post-dominate the node where it
stops. -/
theorem PostDomTree.Climbs.mem_iff (climbs : g.postDominators.Climbs stop (some x) xs) (hx : x < g.size)
    (reaches : g.ReachesExit x) (passes : ∀ s ∈ stop, g.PostDominates s x) :
    n ∈ xs ↔ g.PostDominates n x ∧ ∀ s ∈ stop, ¬ g.PostDominates n s := by
  generalize hfrom : some x = o at climbs
  induction climbs generalizing x with
  | above => cases hfrom
  | stop here =>
      obtain rfl := Option.some.inj hfrom
      simp [here]
  | @up y rest other climbs ih =>
      obtain rfl := Option.some.inj hfrom
      -- `x` itself is met before the way stops
      have self : ∀ s ∈ stop, ¬ g.PostDominates x s := by
        rintro s rfl dominates
        refine other (congrArg some ?_)
        exact (passes s rfl).antisymm dominates ((passes s rfl).reachesExit reaches)
      rw [List.mem_cons]
      cases hparent : g.postDominators.parent? x with
      | none =>
          rw [hparent] at climbs
          cases climbs
          have only := (parent?_eq_none within mirror hx reaches).1 hparent
          constructor
          · rintro (rfl | h)
            · exact ⟨.refl g n, self⟩
            · cases h
          · rintro ⟨dominates, -⟩
            exact .inl (by_contra fun ne => only n ⟨ne, dominates⟩)
      | some d =>
          obtain ⟨-, -, strict, nearest⟩ := (parent?_eq_some within mirror).1 hparent
          have leads := strict.2.reachesExit reaches
          have inside := strict.2.lt within hx reaches
          have onward : ∀ s ∈ stop, g.PostDominates s d := by
            rintro s rfl
            exact nearest s ⟨fun same => other (congrArg some same), passes s rfl⟩
          rw [ih inside leads onward hparent.symm, postDominates_iff_of_parent within mirror hparent]
          constructor
          · rintro (rfl | ⟨dominates, past⟩)
            · exact ⟨.inl rfl, self⟩
            · exact ⟨.inr dominates, past⟩
          · rintro ⟨rfl | dominates, past⟩
            · exact .inl rfl
            · exact .inr ⟨dominates, past⟩

/-- The way up from a successor passes the nodes that depend on `a` because of it. -/
theorem mem_upTo (ha : a < g.size) (edge : b ∈ g.succs a) :
    n ∈ g.postDominators.upTo (g.postDominators.parent? a) (g.size + 1) (some b) ↔
      g.ReachesExit b ∧ g.PostDominates n b ∧ ¬ g.StrictlyPostDominates n a ∨ ¬ g.ReachesExit b ∧ n = b := by
  have hb := within a ha b edge
  have climbs := climbs_upTo within mirror (g.postDominators.parent? a) (g.size + 1) hb
    (Nat.lt_succ_of_le (rank_le g b))
  by_cases reaches : g.ReachesExit b
  · have reaches_a : g.ReachesExit a := reaches.elim fun p path => ⟨a :: p, .step edge path⟩
    have passes : ∀ s ∈ g.postDominators.parent? a, g.PostDominates s b := by
      intro s parent
      obtain ⟨-, -, strict, -⟩ := (parent?_eq_some within mirror).1 parent
      exact strict.2.of_edge strict.1 edge
    have strict_iff : g.StrictlyPostDominates n a ↔ ∃ s ∈ g.postDominators.parent? a, g.PostDominates n s := by
      constructor
      · intro strict
        obtain ⟨s, immediate⟩ := exists_immediate within ha reaches_a strict
        exact ⟨s, (parent?_eq_some within mirror).2 ⟨ha, reaches_a, immediate⟩, immediate.2 n strict⟩
      · rintro ⟨s, parent, dominates⟩
        obtain ⟨-, -, strict, -⟩ := (parent?_eq_some within mirror).1 parent
        refine ⟨?_, dominates.trans strict.2⟩
        rintro rfl
        exact strict.1 (strict.2.antisymm dominates (strict.2.reachesExit reaches_a))
    rw [climbs.mem_iff within mirror hb reaches passes, strict_iff]
    simp [reaches]
  · -- a node without a way out is a root, and nothing stops there
    have root : g.postDominators.parent? b = none :=
      Option.eq_none_iff_forall_ne_some.2 fun d parent => reaches ((parent?_eq_some within mirror).1 parent).2.1
    have stop : g.postDominators.parent? a ≠ some b := by
      intro parent
      obtain ⟨-, reaches_a, strict, -⟩ := (parent?_eq_some within mirror).1 parent
      exact reaches (strict.2.reachesExit reaches_a)
    generalize g.postDominators.upTo (g.postDominators.parent? a) (g.size + 1) (some b) = xs at climbs ⊢
    cases climbs with
    | stop here => exact absurd here stop
    | up _ rest =>
        rw [root] at rest
        cases rest
        simp [reaches]

end

end Flow

/-- The searches and the ways up end, and every node of a graph that was built gets the nodes on which it depends,
in order. -/
theorem FlowBuilder.Built.controlDependence_exact {b : FlowBuilder} (h : b.Built) :
    SearchMeets b.flow.preds (· ++ ·) b.flow.outermost.1 b.flow.outermost.2 b.flow.leadingOut ∧
    b.flow.Settles b.flow.leadingOut (List.replicate b.flow.size none) b.flow.postDomSets ∧
    (∀ a < b.flow.size, ∀ y ∈ b.flow.succs a, b.flow.postDominators.Climbs (b.flow.postDominators.parent? a) (some y)
      (b.flow.postDominators.upTo (b.flow.postDominators.parent? a) (b.flow.size + 1) (some y))) ∧
    b.flow.controlDependence.length = b.flow.size ∧
    ∀ n < b.flow.size, ∃ s, b.flow.controlDependence[n]? = some s ∧ s.Pairwise (· < ·) ∧
      ∀ a, a ∈ s ↔ a < b.flow.size ∧ ∃ y ∈ b.flow.succs a,
        b.flow.ReachesExit y ∧ b.flow.PostDominates n y ∧ ¬ b.flow.StrictlyPostDominates n a ∨
        ¬ b.flow.ReachesExit y ∧ n = y := by
  have within := h.mirrored.succs_lt
  have mirror := h.mirrored.mem_preds
  refine ⟨Flow.leadingOut_meets mirror, (Flow.postDomSets_settled within mirror).settles, fun a ha y hy => ?_, ?_,
    fun n hn => ?_⟩
  · exact Flow.climbs_upTo within mirror _ _ (within a ha y hy) (Nat.lt_succ_of_le (Flow.rank_le _ y))
  · rw [Flow.controlDependence_eq, Flow.length_foldl_depend, List.length_replicate]
  · rw [Flow.controlDependence_eq]
    have start : (List.replicate b.flow.size ([] : NodeSet))[n]? = some [] := by simp [hn]
    obtain ⟨s, entry, ascending, mem⟩ := Flow.getElem?_foldl_depend
      ((List.range b.flow.size).flatMap b.flow.dependents) start .nil
    refine ⟨s, entry, ascending, fun a => ?_⟩
    have pairs : (a, n) ∈ (List.range b.flow.size).flatMap b.flow.dependents ↔ a < b.flow.size ∧
        ∃ y ∈ b.flow.succs a, n ∈ b.flow.postDominators.upTo (b.flow.postDominators.parent? a) (b.flow.size + 1)
          (some y) := by
      simp only [Flow.dependents, List.mem_flatMap, List.mem_range, List.mem_map, Prod.mk.injEq]
      constructor
      · rintro ⟨_, inside, y, hy, _, hm, rfl, rfl⟩
        exact ⟨inside, y, hy, hm⟩
      · rintro ⟨inside, y, hy, hm⟩
        exact ⟨a, inside, y, hy, n, hm, rfl, rfl⟩
    rw [mem, pairs]
    simp only [List.not_mem_nil, or_false]
    refine and_congr_right fun ha => exists_congr fun y => and_congr_right fun hy => ?_
    exact Flow.mem_upTo within mirror ha hy

open Examples in
theorem controlDependence_exact_trapped :
    trapped.Built ∧ trapped.flow.controlDependence = [[], [1], [1], [], [0, 4]] ∧
    ∃ y ∈ trapped.flow.succs 1, trapped.flow.ReachesExit y ∧ trapped.flow.PostDominates 1 y ∧
        ¬ trapped.flow.StrictlyPostDominates 1 1 ∨ ¬ trapped.flow.ReachesExit y ∧ 1 = y := by
  obtain ⟨-, -, -, -, depends⟩ := FlowBuilder.Built.controlDependence_exact built_trapped
  obtain ⟨s, entry, -, mem⟩ := depends 1 (by decide)
  have known : trapped.flow.controlDependence = [[], [1], [1], [], [0, 4]] := by decide +kernel
  rw [known] at entry
  obtain rfl := Option.some.inj entry
  exact ⟨built_trapped, known, ((mem 1).1 (by decide)).2⟩

end DeltaSlice
