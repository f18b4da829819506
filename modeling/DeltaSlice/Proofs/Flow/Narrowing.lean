import DeltaSlice.Flow.PostDominance
import DeltaSlice.Proofs.Flow.Chains
import DeltaSlice.Proofs.Flow.Fixpoint
import Mathlib.Data.Finset.Max
import Mathlib.Data.Finset.Range

/-!
Ways out of a flow graph. A node post-dominates another one if it lies on every path from there to an exit.
The post-dominators of a node from which an exit can be reached form a chain: the nearest of them besides the
node itself is its immediate post-dominator.
-/

namespace DeltaSlice

namespace Flow

variable {V : Type} {g : Flow V} {d e x y : Nat} {p : List Nat}

/-- The nodes of a path from a node to an exit. -/
inductive PathOut (g : Flow V) : Nat → List Nat → Prop
  | exit {x : Nat} : x ∈ g.exits → PathOut g x [x]
  | step {x y : Nat} {p : List Nat} : y ∈ g.succs x → PathOut g y p → PathOut g x (x :: p)

def ReachesExit (g : Flow V) (x : Nat) : Prop := ∃ p, g.PathOut x p

/-- Every path from `x` to an exit passes `d`. -/
def PostDominates (g : Flow V) (d x : Nat) : Prop := ∀ p, g.PathOut x p → d ∈ p

def StrictlyPostDominates (g : Flow V) (d x : Nat) : Prop := d ≠ x ∧ g.PostDominates d x

/-- A strict post-dominator that every other one post-dominates. -/
def ImmediatelyPostDominates (g : Flow V) (d x : Nat) : Prop :=
  g.StrictlyPostDominates d x ∧ ∀ e, g.StrictlyPostDominates e x → g.PostDominates e d

theorem mem_exits : x ∈ g.exits ↔ x < g.size ∧ g.succs x = [] := by
  simp [exits, List.isEmpty_iff]

theorem PathOut.head_mem (path : g.PathOut x p) : x ∈ p := by
  cases path <;> exact List.mem_cons_self

/-- A path goes on from each of its nodes, by fewer nodes unless it starts there. -/
theorem PathOut.suffix (path : g.PathOut x p) (hd : d ∈ p) :
    ∃ q, g.PathOut d q ∧ (∀ e ∈ q, e ∈ p) ∧ q.length ≤ p.length ∧ (d ≠ x → q.length < p.length) := by
  induction path with
  | exit last =>
      obtain rfl := List.mem_singleton.1 hd
      exact ⟨_, .exit last, fun _ => id, Nat.le_refl _, fun ne => absurd rfl ne⟩
  | step edge path ih =>
      rcases List.mem_cons.1 hd with rfl | hd
      · exact ⟨_, .step edge path, fun _ => id, Nat.le_refl _, fun ne => absurd rfl ne⟩
      · obtain ⟨q, rest, sub, le, -⟩ := ih hd
        rw [List.length_cons]
        exact ⟨q, rest, fun e he => List.mem_cons_of_mem _ (sub e he), by omega, fun _ => by omega⟩

namespace PostDominates

theorem refl (g : Flow V) (x : Nat) : g.PostDominates x x := fun _ path => path.head_mem

theorem trans (hde : g.PostDominates d e) (hex : g.PostDominates e x) : g.PostDominates d x := by
  intro p path
  obtain ⟨q, rest, sub, -⟩ := path.suffix (hex p path)
  exact sub d (hde q rest)

theorem reachesExit (h : g.PostDominates d x) (reaches : g.ReachesExit x) : g.ReachesExit d := by
  obtain ⟨p, path⟩ := reaches
  obtain ⟨q, rest, -⟩ := path.suffix (h p path)
  exact ⟨q, rest⟩

/-- Two nodes that post-dominate each other are one: the paths from one to the other and back would become
shorter and shorter. -/
theorem antisymm (hde : g.PostDominates d e) (hed : g.PostDominates e d) (reaches : g.ReachesExit d) : d = e := by
  obtain ⟨p, path⟩ := reaches
  by_contra ne
  induction hn : p.length using Nat.strong_induction_on generalizing d e p with
  | _ n ih =>
      obtain ⟨q, rest, -, -, shorter⟩ := path.suffix (hed p path)
      exact ih q.length (hn ▸ shorter (Ne.symm ne)) hed hde q rest (Ne.symm ne) rfl

/-- The post-dominators of a node form a chain. -/
theorem chain (hd : g.PostDominates d x) (he : g.PostDominates e x) (reaches : g.ReachesExit x) :
    g.PostDominates d e ∨ g.PostDominates e d := by
  by_contra neither
  obtain ⟨fromE, fromD⟩ := not_or.1 neither
  obtain ⟨q, hq, missD⟩ : ∃ q, g.PathOut e q ∧ d ∉ q := by simpa [PostDominates] using fromE
  obtain ⟨r, hr, missE⟩ : ∃ r, g.PathOut d r ∧ e ∉ r := by simpa [PostDominates] using fromD
  -- whichever of the two comes first on a path, from there the other one can be missed
  have misses : ∀ {p}, g.PathOut x p → ∃ p', g.PathOut x p' ∧ (d ∉ p' ∨ e ∉ p') := by
    intro p path
    clear hd he reaches
    induction path with
    | @exit x last =>
        by_cases same : d = x
        · subst same
          exact ⟨r, hr, .inr missE⟩
        · exact ⟨_, .exit last, .inl (by simpa using same)⟩
    | @step x y _ edge _ ih =>
        by_cases sameD : d = x
        · subst sameD
          exact ⟨r, hr, .inr missE⟩
        by_cases sameE : e = x
        · subst sameE
          exact ⟨q, hq, .inl missD⟩
        obtain ⟨p', path', miss⟩ := ih
        refine ⟨x :: p', .step edge path', miss.imp ?_ ?_⟩
        · exact fun miss mem => (List.mem_cons.1 mem).elim sameD miss
        · exact fun miss mem => (List.mem_cons.1 mem).elim sameE miss
  obtain ⟨p, path⟩ := reaches
  obtain ⟨p', path', miss⟩ := misses path
  exact miss.elim (· (hd p' path')) (· (he p' path'))

/-- What post-dominates a node besides itself post-dominates its successors. -/
theorem of_edge (h : g.PostDominates d x) (ne : d ≠ x) (edge : y ∈ g.succs x) : g.PostDominates d y :=
  fun _ path => (List.mem_cons.1 (h _ (.step edge path))).resolve_left ne

end PostDominates

theorem ImmediatelyPostDominates.unique (hd : g.ImmediatelyPostDominates d x) (he : g.ImmediatelyPostDominates e x)
    (reaches : g.ReachesExit x) : d = e :=
  (he.2 d hd.1).antisymm (hd.2 e he.1) (hd.1.2.reachesExit reaches)

section

variable (within : ∀ n < g.size, ∀ m ∈ g.succs n, m < g.size)

include within

theorem PathOut.lt (path : g.PathOut x p) (hx : x < g.size) : ∀ y ∈ p, y < g.size := by
  induction path with
  | exit _ => simpa using hx
  | step edge _ ih => exact List.forall_mem_cons.2 ⟨hx, ih (within _ hx _ edge)⟩

theorem PostDominates.lt (h : g.PostDominates d x) (hx : x < g.size) (reaches : g.ReachesExit x) : d < g.size := by
  obtain ⟨p, path⟩ := reaches
  exact path.lt within hx d (h p path)

end

section Rank

open Classical

/-- The number of post-dominators. -/
noncomputable def rank (g : Flow V) (x : Nat) : Nat :=
  ((Finset.range g.size).filter fun d => g.PostDominates d x).card

theorem rank_le (g : Flow V) (x : Nat) : g.rank x ≤ g.size := by
  unfold rank
  exact (Finset.card_filter_le _ _).trans (Finset.card_range _).le

theorem rank_pos (hx : x < g.size) : 0 < g.rank x :=
  Finset.card_pos.2 ⟨x, Finset.mem_filter.2 ⟨Finset.mem_range.2 hx, .refl g x⟩⟩

/-- A node has more post-dominators than each of the others among them. -/
theorem StrictlyPostDominates.rank_lt (h : g.StrictlyPostDominates d x) (hx : x < g.size)
    (reaches : g.ReachesExit x) : g.rank d < g.rank x := by
  unfold rank
  refine Finset.card_lt_card (Finset.ssubset_iff_of_subset ?_ |>.2 ⟨x, ?_, ?_⟩)
  · intro e he
    rw [Finset.mem_filter] at he ⊢
    exact ⟨he.1, he.2.trans h.2⟩
  · exact Finset.mem_filter.2 ⟨Finset.mem_range.2 hx, .refl g x⟩
  · intro hmem
    exact h.1 (h.2.antisymm (Finset.mem_filter.1 hmem).2 (h.2.reachesExit reaches))

/-- Of the strict post-dominators of a node, the one with most post-dominators is the immediate one. -/
theorem exists_immediate (within : ∀ n < g.size, ∀ m ∈ g.succs n, m < g.size) (hx : x < g.size)
    (reaches : g.ReachesExit x) (h : g.StrictlyPostDominates d x) : ∃ e, g.ImmediatelyPostDominates e x := by
  have mem : ∀ e, e ∈ (Finset.range g.size).filter (g.StrictlyPostDominates · x) ↔ g.StrictlyPostDominates e x := by
    intro e
    rw [Finset.mem_filter, Finset.mem_range]
    exact ⟨fun h => h.2, fun h => ⟨h.2.lt within hx reaches, h⟩⟩
  obtain ⟨e, he, most⟩ := Finset.exists_max_image _ g.rank ⟨d, (mem d).2 h⟩
  have he := (mem e).1 he
  refine ⟨e, he, fun c hc => ?_⟩
  rcases he.2.chain hc.2 reaches with below | above
  · by_cases same : e = c
    · exact same ▸ .refl g e
    · have lt := StrictlyPostDominates.rank_lt ⟨same, below⟩ (hc.2.lt within hx reaches) (hc.2.reachesExit reaches)
      exact absurd (most c ((mem c).2 hc)) (by omega)
  · exact above

end Rank

end Flow

end DeltaSlice

/-!
The sets of post-dominators. A missing set stands for all nodes. In every round the set of a node becomes
smaller or stays as it is, and no post-dominator is ever lost; when nothing changes any more, a set holds the
post-dominators of its node only.
-/

namespace DeltaSlice

namespace NodeSet

theorem mem_inter {n : Nat} {s t : NodeSet} : n ∈ inter s t ↔ n ∈ s ∧ n ∈ t := by
  simp [inter]

theorem mem_diff {n : Nat} {s t : NodeSet} : n ∈ diff s t ↔ n ∈ s ∧ n ∉ t := by
  simp [diff]

theorem eq_of_mem_iff {s t : NodeSet} (hs : s.Pairwise (· < ·)) (ht : t.Pairwise (· < ·))
    (same : ∀ n, n ∈ s ↔ n ∈ t) : s = t := by
  have perm : s.Perm t := (List.perm_ext_iff_of_nodup (hs.imp Nat.ne_of_lt) (ht.imp Nat.ne_of_lt)).2 same
  exact perm.eq_of_pairwise (fun _ _ _ _ hab hba => absurd hab (by omega)) hs ht

/-- A set within another one is as large only if they are equal. -/
theorem length_lt {s t : NodeSet} (hs : s.Pairwise (· < ·)) (ht : t.Pairwise (· < ·)) (sub : ∀ n ∈ s, n ∈ t)
    (ne : s ≠ t) : s.length < t.length := by
  have subperm := List.subperm_of_subset (hs.imp Nat.ne_of_lt) sub
  refine Nat.lt_of_le_of_ne subperm.length_le fun same => ne ?_
  have perm := subperm.perm_of_length_le same.ge
  exact eq_of_mem_iff hs ht fun n => perm.mem_iff

theorem length_le_of_lt {s : NodeSet} {bound : Nat} (hs : s.Pairwise (· < ·)) (lt : ∀ n ∈ s, n < bound) :
    s.length ≤ bound := by
  have sub : s ⊆ List.range bound := fun n hn => List.mem_range.2 (lt n hn)
  simpa using (List.subperm_of_subset (hs.imp Nat.ne_of_lt) sub).length_le

end NodeSet

namespace Flow

variable {V : Type} {g : Flow V} {sets : List (Option NodeSet)} {s new : NodeSet} {d x y : Nat}

theorem mem_meet {ss : List NodeSet} : d ∈ meet ss ↔ ss ≠ [] ∧ ∀ s ∈ ss, d ∈ s := by
  cases ss with
  | nil => simp [meet]
  | cons s ss =>
      have common : ∀ s, d ∈ ss.foldl NodeSet.inter s ↔ d ∈ s ∧ ∀ s' ∈ ss, d ∈ s' := by
        induction ss with
        | nil => simp
        | cons s' ss ih => simp [ih, NodeSet.mem_inter, and_assoc]
      simp [meet, common]

theorem pairwise_meet {ss : List NodeSet} (h : ∀ s ∈ ss, s.Pairwise (· < ·)) : (meet ss).Pairwise (· < ·) := by
  cases ss with
  | nil => exact .nil
  | cons s ss =>
      have all : ∀ s : NodeSet, s.Pairwise (· < ·) → (ss.foldl NodeSet.inter s).Pairwise (· < ·) := by
        clear h
        induction ss with
        | nil => exact fun _ h => h
        | cons s' ss ih => exact fun s h => ih _ (h.filter _)
      exact all s (h s List.mem_cons_self)

/-- The set of the node. -/
def Has (sets : List (Option NodeSet)) (x : Nat) (s : NodeSet) : Prop := sets[x]? = some (some s)

theorem has_iff_join : Has sets x s ↔ (sets[x]?).join = some s := by
  unfold Has
  cases sets[x]? <;> simp

theorem Has.unique {t : NodeSet} (hs : Has sets x s) (ht : Has sets x t) : s = t :=
  Option.some.inj (Option.some.inj (Eq.trans hs.symm ht))

theorem has_set (hx : x < sets.length) : Has (sets.set x (some new)) y s ↔
    if y = x then s = new else Has sets y s := by
  unfold Has
  rw [List.getElem?_set]
  by_cases same : x = y
  · subst same
    simp [hx, eq_comm]
  · rw [if_neg same, if_neg (Ne.symm same)]

theorem mem_postDomStep : d ∈ g.postDomStep sets x ↔
    d = x ∨ (∃ y ∈ g.succs x, ∃ s, Has sets y s) ∧ ∀ y ∈ g.succs x, ∀ s, Has sets y s → d ∈ s := by
  have listed : ∀ s, s ∈ (g.succs x).filterMap (fun y => (sets[y]?).join) ↔ ∃ y ∈ g.succs x, Has sets y s := by
    intro s
    simp only [List.mem_filterMap, has_iff_join]
  unfold postDomStep
  rw [NodeSet.mem_insert, mem_meet]
  refine or_congr_right (and_congr ?_ ?_)
  · rw [← List.isEmpty_eq_false_iff, List.isEmpty_eq_false_iff_exists_mem]
    simp only [listed]
    exact ⟨fun ⟨s, y, hy, hs⟩ => ⟨y, hy, s, hs⟩, fun ⟨y, hy, s, hs⟩ => ⟨s, y, hy, hs⟩⟩
  · simp only [listed]
    exact ⟨fun h y hy s hs => h s ⟨y, hy, hs⟩, fun h s ⟨y, hy, hs⟩ => h y hy s hs⟩

/-- A node can be given a set when it is an exit or one of its successors has a set. -/
def Grounded (g : Flow V) (sets : List (Option NodeSet)) (x : Nat) : Prop :=
  g.succs x = [] ∨ ∃ y ∈ g.succs x, ∃ s, Has sets y s

/-- What holds between the rounds: sets are ascending, a new set would be no larger, and no post-dominator of
a node is missing. -/
structure Narrowing (g : Flow V) (sets : List (Option NodeSet)) : Prop where
  sized : sets.length = g.size
  sorted : ∀ x s, Has sets x s → s.Pairwise (· < ·)
  lt : ∀ x s, Has sets x s → ∀ d ∈ s, d < g.size
  grounded : ∀ x s, Has sets x s → g.Grounded sets x
  shrinks : ∀ x s, Has sets x s → ∀ d ∈ g.postDomStep sets x, d ∈ s
  keeps : ∀ x s, Has sets x s → ∀ d, g.PostDominates d x → d ∈ s

/-- What a set still holds; a missing one counts more than any. -/
def spread (size : Nat) : Option NodeSet → Nat
  | none => size + 1
  | some s => s.length

/-- A bound on the changes to come. -/
def slack (g : Flow V) (sets : List (Option NodeSet)) : Nat := (sets.map (spread g.size)).sum

theorem narrowing_start (g : Flow V) : g.Narrowing (List.replicate g.size none) := by
  have none : ∀ x s, ¬ Has (List.replicate g.size none) x s := by
    intro x s h
    unfold Has at h
    rw [List.getElem?_replicate] at h
    split at h <;> simp at h
  refine ⟨List.length_replicate, ?_, ?_, ?_, ?_, ?_⟩ <;> exact fun x s h => absurd h (none x s)

namespace Narrowing

theorem pairwise_postDomStep (h : g.Narrowing sets) (x : Nat) : (g.postDomStep sets x).Pairwise (· < ·) := by
  refine NodeSet.pairwise_insert (pairwise_meet fun s hs => ?_)
  obtain ⟨y, -, hy⟩ := List.mem_filterMap.1 hs
  exact h.sorted y s (has_iff_join.2 hy)

theorem postDomStep_lt (h : g.Narrowing sets) (hx : x < g.size) : ∀ d ∈ g.postDomStep sets x, d < g.size := by
  intro d hd
  rcases mem_postDomStep.1 hd with rfl | ⟨⟨y, hy, s, hs⟩, all⟩
  · exact hx
  · exact h.lt y s hs d (all y hy s hs)

/-- A node gets the set that its successors leave it. -/
theorem set (h : g.Narrowing sets) (hx : x < g.size) (ground : g.Grounded sets x) :
    g.Narrowing (sets.set x (some (g.postDomStep sets x))) := by
  have inside : x < sets.length := h.sized ▸ hx
  -- the new set is no larger than the one before
  have narrower : ∀ y s, Has sets y s → ∀ t, Has (sets.set x (some (g.postDomStep sets x))) y t → ∀ d ∈ t, d ∈ s := by
    intro y s hs t ht d hd
    rw [has_set inside] at ht
    split at ht
    · rename_i same
      subst same ht
      exact h.shrinks y s hs d hd
    · exact hs.unique ht ▸ hd
  have still : ∀ y, (∃ s, Has sets y s) → ∃ t, Has (sets.set x (some (g.postDomStep sets x))) y t := by
    rintro y ⟨s, hs⟩
    simp only [has_set inside]
    by_cases same : y = x
    · exact ⟨_, by rw [if_pos same]⟩
    · exact ⟨s, by rwa [if_neg same]⟩
  have grounds : ∀ {y}, g.Grounded sets y → g.Grounded (sets.set x (some (g.postDomStep sets x))) y := fun ground =>
    ground.imp_right fun ⟨z, hz, given⟩ => ⟨z, hz, still z given⟩
  have steps : ∀ y, g.Grounded sets y →
      ∀ d ∈ g.postDomStep (sets.set x (some (g.postDomStep sets x))) y, d ∈ g.postDomStep sets y := by
    intro y ground d hd
    rcases mem_postDomStep.1 hd with rfl | ⟨⟨z, hz, -⟩, all⟩
    · exact mem_postDomStep.2 (.inl rfl)
    · refine mem_postDomStep.2 (.inr ⟨ground.resolve_left (List.ne_nil_of_mem hz), fun z hz s hs => ?_⟩)
      obtain ⟨t, ht⟩ := still z ⟨s, hs⟩
      exact narrower z s hs t ht d (all z hz t ht)
  have cases : ∀ {y s}, Has (sets.set x (some (g.postDomStep sets x))) y s →
      y = x ∧ s = g.postDomStep sets x ∨ Has sets y s := by
    intro y s hs
    rw [has_set inside] at hs
    split at hs
    · rename_i same
      exact .inl ⟨same, hs⟩
    · exact .inr hs
  refine ⟨by rw [List.length_set, h.sized], fun y s hs => ?_, fun y s hs => ?_, fun y s hs => ?_,
    fun y s hs d hd => ?_, fun y s hs d hd => ?_⟩
  · rcases cases hs with ⟨rfl, rfl⟩ | hs
    · exact h.pairwise_postDomStep y
    · exact h.sorted y s hs
  · rcases cases hs with ⟨rfl, rfl⟩ | hs
    · exact h.postDomStep_lt hx
    · exact h.lt y s hs
  · rcases cases hs with ⟨rfl, -⟩ | hs
    · exact grounds ground
    · exact grounds (h.grounded y s hs)
  · rcases cases hs with ⟨rfl, rfl⟩ | hs
    · exact steps y ground d hd
    · exact h.shrinks y s hs d (steps y (h.grounded y s hs) d hd)
  · rcases cases hs with ⟨rfl, rfl⟩ | hs
    · rw [mem_postDomStep]
      by_cases same : d = y
      · exact .inl same
      · refine .inr ⟨ground.resolve_left fun none => ?_, fun z hz s hs => h.keeps z s hs d (hd.of_edge same hz)⟩
        exact same (List.mem_singleton.1 (hd _ (.exit (mem_exits.2 ⟨hx, none⟩))))
    · exact h.keeps y s hs d hd

/-- A change uses up some of the slack. -/
theorem slack_lt (h : g.Narrowing sets) (hx : x < g.size)
    (changes : ¬ (sets[x]?).join = some (g.postDomStep sets x)) :
    g.slack (sets.set x (some (g.postDomStep sets x))) < g.slack sets := by
  have few := NodeSet.length_le_of_lt (h.pairwise_postDomStep x) (h.postDomStep_lt hx)
  obtain ⟨old, hold⟩ : ∃ old, sets[x]? = some old := ⟨_, List.getElem?_eq_getElem (h.sized ▸ hx)⟩
  have sum := Reaching.sum_set (spread g.size) hold (some (g.postDomStep sets x))
  have smaller : spread g.size (some (g.postDomStep sets x)) < spread g.size old := by
    cases old with
    | none => exact Nat.lt_succ_of_le few
    | some s =>
        refine NodeSet.length_lt (h.pairwise_postDomStep x) (h.sorted x s hold) (h.shrinks x s hold) fun same => ?_
        exact changes (by rw [hold, same]; rfl)
  unfold slack
  omega

end Narrowing

/-- What a round over the nodes `xs` does: every one of them has a set afterwards. -/
structure Round (g : Flow V) (xs : List Nat) (sets : List (Option NodeSet))
    (r : Bool × List (Option NodeSet)) : Prop where
  narrowing : g.Narrowing r.2
  has : ∀ y, (∃ s, Has r.2 y s) ↔ (∃ s, Has sets y s) ∨ y ∈ xs
  same : r.1 = false → r.2 = sets ∧ ∀ x ∈ xs, Has sets x (g.postDomStep sets x)
  slack_le : g.slack r.2 ≤ g.slack sets
  slack_lt : r.1 = true → g.slack r.2 < g.slack sets

/-- Nodes are given sets one after the other, each when one of its successors has a set. -/
theorem postDomRound_round {pre xs : List Nat} (h : g.Narrowing sets) (lt : ∀ x ∈ xs, x < g.size)
    (ground : ∀ a x b, pre ++ xs = a ++ x :: b → g.succs x = [] ∨ ∃ y ∈ a, y ∈ g.succs x)
    (done : ∀ y ∈ pre, ∃ s, Has sets y s) : g.Round xs sets (g.postDomRound xs sets) := by
  induction xs generalizing pre sets with
  | nil => exact ⟨h, by simp [postDomRound], fun _ => ⟨rfl, by simp⟩, Nat.le_refl _, by simp [postDomRound]⟩
  | cons x xs ih =>
      obtain ⟨hx, rest⟩ := List.forall_mem_cons.1 lt
      have grounded : g.Grounded sets x := by
        refine (ground pre x xs rfl).imp_right fun ⟨y, hy, edge⟩ => ⟨y, edge, done y hy⟩
      have ground' : ∀ a y b, (pre ++ [x]) ++ xs = a ++ y :: b → g.succs y = [] ∨ ∃ z ∈ a, z ∈ g.succs y := by
        simpa using ground
      unfold postDomRound
      dsimp only
      split
      · rename_i same
        have here := has_iff_join.2 same
        have r := ih h rest ground' fun y hy => by
          rcases List.mem_append.1 hy with hy | hy
          · exact done y hy
          · exact List.mem_singleton.1 hy ▸ ⟨_, here⟩
        refine ⟨r.narrowing, fun y => ?_, fun still => ?_, r.slack_le, r.slack_lt⟩
        · rw [r.has, List.mem_cons]
          refine ⟨fun hy => hy.imp_right .inr, fun hy => ?_⟩
          rcases hy with hy | rfl | hy
          · exact .inl hy
          · exact .inl ⟨_, here⟩
          · exact .inr hy
        · obtain ⟨unchanged, all⟩ := r.same still
          exact ⟨unchanged, List.forall_mem_cons.2 ⟨here, all⟩⟩
      · rename_i changes
        have inside : x < sets.length := h.sized ▸ hx
        have given : ∀ y, (∃ s, Has (sets.set x (some (g.postDomStep sets x))) y s) ↔ (∃ s, Has sets y s) ∨ y = x := by
          intro y
          simp only [has_set inside]
          by_cases same : y = x <;> simp [same]
        have r := ih (h.set hx grounded) rest ground' fun y hy => by
          rw [given]
          rcases List.mem_append.1 hy with hy | hy
          · exact .inl (done y hy)
          · exact .inr (List.mem_singleton.1 hy)
        have less := h.slack_lt hx changes
        refine ⟨r.narrowing, fun y => ?_, by simp, by have := r.slack_le; dsimp only; omega,
          fun _ => by have := r.slack_le; dsimp only; omega⟩
        rw [r.has, given, List.mem_cons, or_assoc]

/-- Rounds over the nodes are made until one changes nothing. There is no bound on their number. -/
inductive Settles (g : Flow V) (order : List Nat) : List (Option NodeSet) → List (Option NodeSet) → Prop
  | last {sets sets' : List (Option NodeSet)} : g.postDomRound order sets = (false, sets') →
      Settles g order sets sets'
  | more {sets sets' sets'' : List (Option NodeSet)} : g.postDomRound order sets = (true, sets') →
      Settles g order sets' sets'' → Settles g order sets sets''

/-- What the sets are like when no round changes them. -/
structure Settled (g : Flow V) (order : List Nat) (sets sets' : List (Option NodeSet)) : Prop where
  settles : g.Settles order sets sets'
  narrowing : g.Narrowing sets'
  has : ∀ y, (∃ s, Has sets' y s) ↔ (∃ s, Has sets y s) ∨ y ∈ order
  stable : ∀ x ∈ order, Has sets' x (g.postDomStep sets' x)

theorem postDomLoop_settled {order : List Nat} {fuel : Nat} (h : g.Narrowing sets) (lt : ∀ x ∈ order, x < g.size)
    (ground : ∀ a x b, order = a ++ x :: b → g.succs x = [] ∨ ∃ y ∈ a, y ∈ g.succs x)
    (enough : g.slack sets < fuel) : g.Settled order sets (g.postDomLoop order fuel sets) := by
  induction fuel generalizing sets with
  | zero => omega
  | succ fuel ih =>
      have r := @postDomRound_round _ _ _ [] order h lt ground (by simp)
      unfold postDomLoop
      split
      · rename_i sets' changed
        rw [changed] at r
        have less := r.slack_lt rfl
        have all := ih r.narrowing (by dsimp only at less ⊢; omega)
        refine ⟨.more changed all.settles, all.narrowing, fun y => ?_, all.stable⟩
        rw [all.has, r.has, or_assoc, or_self]
      · rename_i sets' unchanged
        rw [unchanged] at r
        obtain ⟨rfl, stable⟩ := r.same rfl
        exact ⟨.last unchanged, r.narrowing, r.has, stable⟩

/-- Sets that no round changes hold the post-dominators, if rounds go over all nodes with a way out. -/
theorem Settled.mem_iff {order : List Nat} {start : List (Option NodeSet)} (h : g.Settled order start sets)
    (onward : ∀ x ∈ order, ∀ y ∈ g.succs x, g.ReachesExit y → y ∈ order) (hx : x ∈ order) (hs : Has sets x s) :
    d ∈ s ↔ g.PostDominates d x := by
  refine ⟨fun hd p path => ?_, h.narrowing.keeps x s hs d⟩
  induction path generalizing s with
  | @exit x last =>
      obtain rfl := hs.unique (h.stable x hx)
      rcases mem_postDomStep.1 hd with rfl | ⟨⟨y, hy, -⟩, -⟩
      · exact List.mem_singleton_self _
      · rw [(mem_exits.1 last).2] at hy
        cases hy
  | @step x y p edge path ih =>
      obtain rfl := hs.unique (h.stable x hx)
      rcases mem_postDomStep.1 hd with rfl | ⟨-, common⟩
      · exact List.mem_cons_self
      · have hy := onward x hx y edge ⟨p, path⟩
        exact List.mem_cons_of_mem _ (ih hy (h.stable y hy) (common y edge _ (h.stable y hy)))

section Order

variable (within : ∀ n < g.size, ∀ m ∈ g.succs n, m < g.size)
  (mirror : ∀ n < g.size, ∀ m, m ∈ g.preds n ↔ m < g.size ∧ n ∈ g.succs m)

theorem reachingBack_eq (fuel : Nat) (visited : NodeSet) (queue : List Nat) :
    g.reachingBack fuel visited queue = search g.preds (· ++ ·) fuel visited queue := by
  induction fuel generalizing visited queue with
  | zero => rfl
  | succ fuel ih =>
      cases queue with
      | nil => rfl
      | cons x queue => simp only [reachingBack, search, ih]

/-- The search backwards from the exits starts with these nodes. -/
def outermost (g : Flow V) : NodeSet × List Nat := NodeSet.insertNew [] g.exits

theorem leadingOut_eq : g.leadingOut = search g.preds (· ++ ·) (g.size + 1) g.outermost.1 g.outermost.2 :=
  reachingBack_eq _ _ _

theorem mem_outermost : x ∈ g.outermost.2 ↔ x ∈ g.exits := by
  unfold outermost
  rw [(NodeSet.insertNew_extends [] g.exits).mem_new]
  simp

theorem outermost_start : g.outermost.1.Perm g.outermost.2 ∧ g.outermost.2.Nodup ∧ ∀ x ∈ g.outermost.2, x < g.size := by
  have extended := NodeSet.insertNew_extends [] g.exits
  exact ⟨extended.perm.trans (.of_eq (List.append_nil _)), extended.nodup_new,
    fun x hx => (mem_exits.1 (mem_outermost.1 hx)).1⟩

include mirror

theorem preds_lt : ∀ x < g.size, ∀ y ∈ g.preds x, y < g.size := fun x hx y hy => ((mirror x hx y).1 hy).1

/-- The search for the nodes from which exits can be reached comes to its end. -/
theorem leadingOut_meets : SearchMeets g.preds (· ++ ·) g.outermost.1 g.outermost.2 g.leadingOut := by
  obtain ⟨start, nodup, lt⟩ := outermost_start (g := g)
  rw [leadingOut_eq]
  refine (Searching.start start nodup lt).meets (fun _ _ _ => .refl _) (preds_lt mirror) ?_
  rw [start.length_eq]
  omega

/-- A node comes in the order after one of its successors, unless it is an exit. -/
theorem leadingOut_grounded (lt : ∀ x ∈ g.leadingOut, x < g.size) :
    ∀ a x b, g.leadingOut = a ++ x :: b → g.succs x = [] ∨ ∃ y ∈ a, y ∈ g.succs x := by
  intro a x b split
  have before := exists_before_of_search (fun _ _ _ => List.mem_append.1) (leadingOut_eq ▸ split)
  refine before.imp (fun first => (mem_exits.1 (mem_outermost.1 first)).2) fun ⟨y, hy, edge⟩ => ⟨y, hy, ?_⟩
  have inside : y < g.size := lt y (split ▸ List.mem_append_left _ hy)
  exact ((mirror y inside x).1 edge).2

include within

theorem mem_leadingOut : x ∈ g.leadingOut ↔ x < g.size ∧ g.ReachesExit x := by
  obtain ⟨start, nodup, lt⟩ := outermost_start (g := g)
  constructor
  · intro hx
    rw [leadingOut_eq] at hx
    obtain ⟨e, he, back⟩ := reaches_of_mem_search (fun _ _ _ => List.mem_append.1) hx
    clear hx
    induction back with
    | refl => exact ⟨lt e he, [e], .exit (mem_outermost.1 he)⟩
    | tail _ edge ih =>
        obtain ⟨inside, p, path⟩ := ih
        obtain ⟨hx, edge⟩ := (mirror _ inside _).1 edge
        exact ⟨hx, _, .step edge path⟩
  · rintro ⟨hx, p, path⟩
    have back : ∃ e ∈ g.outermost.2, Relation.ReflTransGen (fun a b => b ∈ g.preds a) e x := by
      induction path with
      | exit last => exact ⟨_, mem_outermost.2 last, .refl⟩
      | step edge _ ih =>
          have inside := within _ hx _ edge
          obtain ⟨e, he, back⟩ := ih inside
          exact ⟨e, he, back.tail ((mirror _ inside _).2 ⟨hx, edge⟩)⟩
    obtain ⟨e, he, back⟩ := back
    rw [leadingOut_eq]
    exact mem_search_of_reaches (fun _ _ _ => .refl _) (preds_lt mirror) start nodup lt (Nat.lt_succ_self _) he back

theorem postDomSets_settled : g.Settled g.leadingOut (List.replicate g.size none) g.postDomSets := by
  have lt : ∀ x ∈ g.leadingOut, x < g.size := fun x hx => ((mem_leadingOut within mirror).1 hx).1
  refine postDomLoop_settled (narrowing_start g) lt (leadingOut_grounded mirror lt) ?_
  rw [slack, List.map_replicate, List.sum_replicate_nat, spread, Nat.mul_succ]
  omega

/-- The nodes with sets are those with a way out, and the sets hold their post-dominators. -/
theorem has_postDomSets : (∃ s, Has g.postDomSets x s) ↔ x < g.size ∧ g.ReachesExit x := by
  rw [(postDomSets_settled within mirror).has, mem_leadingOut within mirror]
  refine or_iff_right ?_
  rintro ⟨s, hs⟩
  unfold Has at hs
  rw [List.getElem?_replicate] at hs
  split at hs <;> simp at hs

theorem mem_of_has (hs : Has g.postDomSets x s) : d ∈ s ↔ g.PostDominates d x := by
  have settled := postDomSets_settled within mirror
  refine settled.mem_iff (fun x hx y hy reaches => ?_) ?_ hs
  · exact (mem_leadingOut within mirror).2 ⟨within x ((mem_leadingOut within mirror).1 hx).1 y hy, reaches⟩
  · exact (mem_leadingOut within mirror).2 ((has_postDomSets within mirror).1 ⟨s, hs⟩)

end Order

end Flow

end DeltaSlice
