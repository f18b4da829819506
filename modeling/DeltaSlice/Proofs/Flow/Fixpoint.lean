import DeltaSlice.Proofs.Flow.Chains
import Mathlib.Algebra.BigOperators.Group.List.Basic
import Mathlib.Algebra.GroupWithZero.Nat
import Mathlib.Data.List.Sort

/-!
The fixpoint of the definitions that reach every node. A visit hands what leaves a node over to its
successors; a node waits for a visit as long as its successors were not told of all that leaves it. Sets
only grow, so visits come to an end, and then every definition has arrived where it can.
-/

namespace DeltaSlice

namespace NodeSet

theorem subset_of_union_length {s t : NodeSet} (hs : s.Pairwise (· < ·)) (h : (union s t).length = s.length) :
    ∀ i ∈ t, i ∈ s := by
  have sub : s ⊆ union s t := fun i hi => mem_union.2 (.inl hi)
  have perm := (List.subperm_of_subset (hs.imp Nat.ne_of_lt) sub).perm_of_length_le (Nat.le_of_eq h)
  exact fun i hi => perm.mem_iff.2 (mem_union.2 (.inr hi))

theorem length_le_union {s t : NodeSet} (hs : s.Pairwise (· < ·)) : s.length ≤ (union s t).length :=
  (List.subperm_of_subset (hs.imp Nat.ne_of_lt) fun _ hi => mem_union.2 (.inl hi)).length_le

end NodeSet

namespace Flow

variable {V : Type} {g : Flow V}

namespace Reaching

variable {r r' : Reaching V} {leaving : NodeSet} {m n : Nat}

/-- The definition with this number is in the set of the node. -/
def Has (r : Reaching V) (m i : Nat) : Prop := ∃ s, r.sets[m]? = some (some s) ∧ i ∈ s

/-- The node has a set. -/
def Met (r : Reaching V) (m : Nat) : Prop := ∃ s, r.sets[m]? = some (some s)

/-- The definition is known to reach the node. -/
def Holds (r : Reaching V) (m : Nat) (d : Nat × V) : Prop := ∃ i, r.Has m i ∧ r.definitions[i]? = some d

/-- What a set still lacks if there are so many definitions; a missing set counts more than any. -/
def lack (total : Nat) : Option NodeSet → Nat
  | none => total + 2
  | some s => total + 1 - s.length

/-- A bound on the visits to come. -/
def room (total : Nat) (r : Reaching V) : Nat := (r.sets.map (lack total)).sum + r.work.length

/-- Sets are ascending and hold numbers of definitions. -/
structure Formed (size total : Nat) (r : Reaching V) : Prop where
  sized : r.sets.length = size
  sorted : ∀ (m : Nat) (s : NodeSet), r.sets[m]? = some (some s) →
    s.Pairwise (· < ·) ∧ ∀ i ∈ s, i < r.definitions.length
  work : r.work.Pairwise (· < ·)
  distinct : r.definitions.Nodup
  few : r.definitions.length ≤ total

theorem Formed.length_le {size total : Nat} (h : r.Formed size total) {s : NodeSet}
    (hs : r.sets[m]? = some (some s)) : s.length ≤ total := by
  obtain ⟨sorted, lt⟩ := h.sorted m s hs
  have sub : s ⊆ List.range r.definitions.length := fun i hi => List.mem_range.2 (lt i hi)
  have := (List.subperm_of_subset (sorted.imp Nat.ne_of_lt) sub).length_le
  have := h.few
  simp at *
  omega

theorem mem_arriving {d : Nat × (Nat × V)} :
    d ∈ arriving r m ↔ r.Has m d.1 ∧ r.definitions[d.1]? = some d.2 := by
  obtain ⟨i, d⟩ := d
  unfold arriving Has
  rw [List.mem_filterMap]
  constructor
  · rintro ⟨j, hj, hd⟩
    obtain ⟨e, he, same⟩ := Option.map_eq_some_iff.1 hd
    obtain ⟨rfl, rfl⟩ := Prod.mk.inj same
    cases hset : r.sets[m]? with
    | none => simp [hset] at hj
    | some s =>
        cases s with
        | none => simp [hset] at hj
        | some s => exact ⟨⟨s, rfl, by simpa [hset] using hj⟩, he⟩
  · rintro ⟨⟨s, hs, hi⟩, hd⟩
    exact ⟨i, by simpa [hs] using hi, by simp [hd]⟩

section Numbering

/-- The definitions of a node have numbers, and no other ones were added. -/
structure Numbered (n : Nat) (vs : List V) (r r' : Reaching V) (own : NodeSet) : Prop where
  sets : r'.sets = r.sets
  work : r'.work = r.work
  kept : r.definitions <+: r'.definitions
  distinct : r.definitions.Nodup → r'.definitions.Nodup
  new : ∀ d ∈ r'.definitions, d ∈ r.definitions ∨ d.1 = n ∧ d.2 ∈ vs
  named : ∀ i ∈ own, ∃ v ∈ vs, r'.definitions[i]? = some (n, v)
  all : ∀ v ∈ vs, ∃ i ∈ own, r'.definitions[i]? = some (n, v)

variable [DecidableEq V]

theorem number_numbered (r : Reaching V) (n : Nat) (v : V) :
    Numbered n [v] r (r.number (n, v)).2 [(r.number (n, v)).1] := by
  unfold number
  split
  · rename_i i hi
    obtain ⟨lt, found, -⟩ := List.idxOf?_eq_some_iff.1 hi
    have found : r.definitions[i]? = some (n, v) := by rw [List.getElem?_eq_getElem lt, found]
    exact ⟨rfl, rfl, List.prefix_rfl, id, fun d hd => .inl hd, by simpa using found, by simpa using found⟩
  · rename_i fresh
    have fresh : (n, v) ∉ r.definitions := by simpa using fresh
    refine ⟨rfl, rfl, List.prefix_append _ _, fun h => ?_, fun d hd => ?_, by simp, by simp⟩
    · exact List.nodup_append.2 ⟨h, List.nodup_singleton _, fun a ha b hb hab =>
        fresh (List.mem_singleton.1 hb ▸ hab ▸ ha)⟩
    · rcases List.mem_append.1 hd with hd | hd
      · exact .inl hd
      · obtain rfl := List.mem_singleton.1 hd
        exact .inr ⟨rfl, by simp⟩

omit [DecidableEq V] in
theorem getElem?_of_kept {l l' : List (Nat × V)} (h : l <+: l') {i : Nat} {d : Nat × V} (hd : l[i]? = some d) :
    l'[i]? = some d := by
  obtain ⟨more, rfl⟩ := h
  rw [List.getElem?_append_left (List.getElem?_eq_some_iff.1 hd).1, hd]

theorem numberAll_numbered (r : Reaching V) (n : Nat) (vs : List V) :
    Numbered n vs r (r.numberAll n vs).2 (r.numberAll n vs).1 := by
  induction vs generalizing r with
  | nil => exact ⟨rfl, rfl, List.prefix_rfl, id, fun d hd => .inl hd, by simp [numberAll], by simp⟩
  | cons v vs ih =>
      have one := number_numbered r n v
      have rest := ih (r.number (n, v)).2
      unfold numberAll
      refine ⟨rest.sets.trans one.sets, rest.work.trans one.work, one.kept.trans rest.kept,
        fun h => rest.distinct (one.distinct h), fun d hd => ?_, fun i hi => ?_, fun w hw => ?_⟩
      · rcases rest.new d hd with hd | ⟨hn, hv⟩
        · refine (one.new d hd).imp_right fun ⟨hn, hv⟩ => ⟨hn, by simpa using .inl (List.mem_singleton.1 hv)⟩
        · exact .inr ⟨hn, by simp [hv]⟩
      · rcases NodeSet.mem_insert.1 hi with rfl | hi
        · obtain ⟨w, hw, hd⟩ := one.named _ (List.mem_singleton_self _)
          exact ⟨w, by simpa using .inl (List.mem_singleton.1 hw), getElem?_of_kept rest.kept hd⟩
        · obtain ⟨w, hw, hd⟩ := rest.named i hi
          exact ⟨w, by simp [hw], hd⟩
      · rcases List.mem_cons.1 hw with rfl | hw
        · obtain ⟨i, hi, hd⟩ := one.all w (List.mem_singleton_self _)
          obtain rfl := List.mem_singleton.1 hi
          exact ⟨_, NodeSet.mem_insert.2 (.inl rfl), getElem?_of_kept rest.kept hd⟩
        · obtain ⟨i, hi, hd⟩ := rest.all w hw
          exact ⟨i, NodeSet.mem_insert.2 (.inr hi), hd⟩

end Numbering

section Handing

/-- Nodes were told of definitions, and those to which one of them was new wait for a visit. -/
structure Told (leaving : NodeSet) (ms : List Nat) (total : Nat) (r r' : Reaching V) : Prop where
  formed : r'.Formed r.sets.length total
  definitions : r'.definitions = r.definitions
  has : ∀ l i, r'.Has l i ↔ r.Has l i ∨ l ∈ ms ∧ i ∈ leaving
  met : ∀ l, r'.Met l ↔ r.Met l ∨ l ∈ ms
  waiting : ∀ l ∈ r.work, l ∈ r'.work
  woken : ∀ l ∈ r'.work, l ∈ r.work ∨ l ∈ ms
  same : ∀ l, l ∉ r'.work → r'.sets[l]? = r.sets[l]?
  room_le : r'.room total ≤ r.room total

theorem sum_set {β : Type} (f : β → Nat) {l : List β} {i : Nat} {b : β} (hb : l[i]? = some b) (c : β) :
    ((l.set i c).map f).sum + f b = (l.map f).sum + f c := by
  induction l generalizing i with
  | nil => cases hb
  | cons x l ih =>
      cases i with
      | zero =>
          obtain rfl := Option.some.inj hb
          simp only [List.set_cons_zero, List.map_cons, List.sum_cons]
          omega
      | succ i =>
          have := ih hb
          simp only [List.set_cons_succ, List.map_cons, List.sum_cons]
          omega

theorem length_insert_le (n : Nat) (s : NodeSet) : (NodeSet.insert n s).length ≤ s.length + 1 := by
  induction s with
  | nil => exact Nat.le_refl _
  | cons m s ih =>
      unfold NodeSet.insert
      split
      · exact Nat.le_refl _
      · split
        · exact Nat.le_succ _
        · exact Nat.succ_le_succ ih

/-- A node gets a larger set. -/
theorem told_of_set {total : Nat} (formed : r.Formed r.sets.length total) {old : Option NodeSet}
    (hold : r.sets[m]? = some old) {s : NodeSet} (sorted : s.Pairwise (· < ·))
    (mem : ∀ i, i ∈ s ↔ r.Has m i ∨ i ∈ leaving) (lt : ∀ i ∈ leaving, i < r.definitions.length)
    (more : lack total (some s) < lack total old) :
    Told leaving [m] total r { r with sets := r.sets.set m (some s), work := NodeSet.insert m r.work } := by
  have inside : m < r.sets.length := (List.getElem?_eq_some_iff.1 hold).1
  have at_ : ∀ l, (r.sets.set m (some s))[l]? = if l = m then some (some s) else r.sets[l]? := fun l => by
    rw [List.getElem?_set]
    by_cases hl : m = l
    · simp [hl, hl ▸ inside]
    · simp [hl, Ne.symm hl]
  have known : ∀ i ∈ s, i < r.definitions.length := fun i hi => by
    rcases (mem i).1 hi with ⟨s', hs', hi⟩ | hi
    · exact (formed.sorted m s' hs').2 i hi
    · exact lt i hi
  refine ⟨⟨List.length_set, fun l s' hs' => ?_, NodeSet.pairwise_insert formed.work, formed.distinct, formed.few⟩,
    rfl, fun l i => ?_, fun l => ?_, fun l hl => NodeSet.mem_insert.2 (.inr hl), fun l hl => ?_, fun l hl => ?_, ?_⟩
  · rw [at_] at hs'
    split at hs'
    · obtain rfl := Option.some.inj (Option.some.inj hs')
      exact ⟨sorted, known⟩
    · exact formed.sorted l s' hs'
  · unfold Has
    simp only [at_]
    by_cases hl : l = m
    · subst hl
      simpa [Has] using mem i
    · simp [hl]
  · unfold Met
    simp only [at_]
    by_cases hl : l = m <;> simp [hl]
  · rcases NodeSet.mem_insert.1 hl with hl | hl
    · exact .inr (by simp [hl])
    · exact .inl hl
  · rw [at_, if_neg fun hlm => hl (NodeSet.mem_insert.2 (.inl hlm))]
  · have sum := sum_set (lack total) hold (some s)
    have work := length_insert_le m r.work
    unfold room
    dsimp only
    omega

theorem flowTo_told {total : Nat} (formed : r.Formed r.sets.length total) (inside : m < r.sets.length)
    (sorted : leaving.Pairwise (· < ·)) (lt : ∀ i ∈ leaving, i < r.definitions.length) :
    Told leaving [m] total r (r.flowTo leaving m) := by
  obtain ⟨old, hold⟩ : ∃ old, r.sets[m]? = some old := ⟨_, List.getElem?_eq_getElem inside⟩
  unfold flowTo
  rw [hold]
  cases old with
  | none =>
      change Told leaving [m] total r { r with
        sets := r.sets.set m (some leaving), work := NodeSet.insert m r.work }
      refine told_of_set formed hold sorted (fun i => ⟨.inr, fun h => h.resolve_left ?_⟩) lt ?_
      · rintro ⟨s, hs, -⟩
        cases hold.symm.trans hs
      · simp only [lack]
        omega
  | some old =>
      have ascending := (formed.sorted m old hold).1
      have has : ∀ i, r.Has m i ↔ i ∈ old := fun i =>
        ⟨fun ⟨s, hs, hi⟩ => Option.some.inj (Option.some.inj (hold.symm.trans hs)) ▸ hi, fun hi => ⟨old, hold, hi⟩⟩
      change Told leaving [m] total r (if (NodeSet.union old leaving).length = old.length then r else { r with
        sets := r.sets.set m (some (NodeSet.union old leaving)), work := NodeSet.insert m r.work })
      split
      · rename_i unchanged
        have known := NodeSet.subset_of_union_length ascending unchanged
        refine ⟨formed, rfl, fun l i => ⟨.inl, fun h => h.elim id ?_⟩, fun l => ⟨.inl, fun h => h.elim id ?_⟩,
          fun _ => id, fun _ => .inl, fun _ _ => rfl, Nat.le_refl _⟩
        · rintro ⟨hl, hi⟩
          exact List.mem_singleton.1 hl ▸ (has i).2 (known i hi)
        · exact fun hl => List.mem_singleton.1 hl ▸ ⟨old, hold⟩
      · rename_i grown
        have larger := NodeSet.length_le_union (t := leaving) ascending
        refine told_of_set formed hold (NodeSet.pairwise_union ascending)
          (fun i => by rw [NodeSet.mem_union, has]) lt ?_
        have few := formed.length_le hold
        simp only [lack]
        omega

theorem foldl_told {total : Nat} (formed : r.Formed r.sets.length total) {ms : List Nat}
    (inside : ∀ m ∈ ms, m < r.sets.length) (sorted : leaving.Pairwise (· < ·))
    (lt : ∀ i ∈ leaving, i < r.definitions.length) :
    Told leaving ms total r (ms.foldl (flowTo leaving) r) := by
  induction ms generalizing r with
  | nil =>
      exact ⟨formed, rfl, fun l i => by simp, fun l => by simp, fun _ => id, fun _ => .inl, fun _ _ => rfl,
        Nat.le_refl _⟩
  | cons m ms ih =>
      obtain ⟨hm, rest⟩ := List.forall_mem_cons.1 inside
      have one := flowTo_told formed hm sorted lt
      have sized := one.formed.sized
      have all := ih (r := r.flowTo leaving m) (by rw [sized]; exact one.formed) (by rwa [sized])
        (by rwa [one.definitions])
      rw [List.foldl_cons]
      refine ⟨sized ▸ all.formed, all.definitions.trans one.definitions, fun l i => ?_, fun l => ?_,
        fun l hl => all.waiting l (one.waiting l hl), fun l hl => ?_, fun l hl => ?_, all.room_le.trans one.room_le⟩
      · rw [all.has, one.has, List.mem_singleton, List.mem_cons, or_assoc, ← or_and_right]
      · rw [all.met, one.met, List.mem_singleton, List.mem_cons, or_assoc]
      · rcases all.woken l hl with hl | hl
        · refine (one.woken l hl).imp_right fun hl => by simp [List.mem_singleton.1 hl]
        · exact .inr (by simp [hl])
      · exact (all.same l hl).trans (one.same l fun hl' => hl (all.waiting l hl'))

end Handing

end Reaching

open Reaching

/-- All definitions of the graph. -/
def allDefinitions (g : Flow V) : List (Nat × V) :=
  (List.range g.size).flatMap fun n => (g.possiblyWritten n).map fun v => (n, v)

theorem mem_allDefinitions {d : Nat × V} :
    d ∈ g.allDefinitions ↔ d.1 < g.size ∧ d.2 ∈ g.possiblyWritten d.1 := by
  obtain ⟨n, v⟩ := d
  simp only [allDefinitions, List.mem_flatMap, List.mem_range, List.mem_map, Prod.mk.injEq]
  constructor
  · rintro ⟨m, hm, w, hw, rfl, rfl⟩
    exact ⟨hm, hw⟩
  · rintro ⟨hn, hv⟩
    exact ⟨n, hn, v, hv, rfl, rfl⟩

theorem visitBound_eq : g.visitBound = (g.size + 1) * (2 + g.allDefinitions.length) := by
  have sum : ∀ (l : List Nat) (k : Nat), l.foldl (fun k n => k + (g.possiblyWritten n).length) k =
      k + (l.flatMap fun n => (g.possiblyWritten n).map fun v => (n, v)).length := by
    intro l
    induction l with
    | nil => exact fun k => rfl
    | cons n l ih =>
        intro k
        rw [List.foldl_cons, ih, List.flatMap_cons, List.length_append, List.length_map, Nat.add_assoc]
  unfold visitBound allDefinitions
  rw [sum]

/-- What is known to leave a node. -/
def Leaves (g : Flow V) (r : Reaching V) (m : Nat) (d : Nat × V) : Prop :=
  r.Holds m d ∧ (g.written m d.2).definitely = false ∨ d.1 = m ∧ d.2 ∈ g.possiblyWritten m

/-- What holds between visits: a node was told of definitions that arrive there, and its successors were
told of all that leaves it, unless it waits for a visit. -/
structure Solving (g : Flow V) (r : Reaching V) : Prop where
  formed : r.Formed g.size g.allDefinitions.length
  known : ∀ d ∈ r.definitions, Relation.ReflTransGen (fun a b => b ∈ g.succs a) g.entry d.1 ∧
    d.2 ∈ g.possiblyWritten d.1
  reached : ∀ m, r.Met m → Relation.ReflTransGen (fun a b => b ∈ g.succs a) g.entry m
  arrives : ∀ m d, r.Holds m d → g.Arrives d.2 d.1 m
  entry : r.Met g.entry
  waiting : ∀ m ∈ r.work, r.Met m
  settled : ∀ m, r.Met m → m ∉ r.work → ∀ l ∈ g.succs m, r.Met l ∧ ∀ d, g.Leaves r m d → r.Holds l d

variable {r r' : Reaching V} {n m : Nat} {work : NodeSet}

/-- What a visit changes: the successors of the node hold what leaves it. -/
structure Visited (g : Flow V) (n : Nat) (r r' : Reaching V) : Prop where
  formed : r'.Formed g.size g.allDefinitions.length
  known : ∀ d ∈ r'.definitions, d ∈ r.definitions ∨ d.1 = n ∧ d.2 ∈ g.possiblyWritten n
  met : ∀ m, r'.Met m ↔ r.Met m ∨ m ∈ g.succs n
  holds : ∀ m d, r'.Holds m d ↔ r.Holds m d ∨ m ∈ g.succs n ∧ g.Leaves r n d
  waiting : ∀ m ∈ r.work, m ∈ r'.work
  woken : ∀ m ∈ r'.work, m ∈ r.work ∨ m ∈ g.succs n
  same : ∀ m, m ∉ r'.work → (r'.Met m → r.Met m) ∧ ∀ d, r'.Holds m d → r.Holds m d
  room_le : r'.room g.allDefinitions.length ≤ r.room g.allDefinitions.length

theorem room_lt_of_work {total : Nat} (hwork : r.work = n :: work) :
    Reaching.room total { r with work } < r.room total := by
  simp only [Reaching.room, hwork, List.length_cons]
  omega

theorem work_of_room_le {total : Nat} (enough : r.room total ≤ 0) : r.work = [] := by
  refine List.eq_nil_of_length_eq_zero ?_
  unfold Reaching.room at enough
  omega

namespace Solving

theorem lt (h : g.Solving r) (met : r.Met n) : n < g.size := by
  obtain ⟨s, hs⟩ := met
  exact h.formed.sized ▸ (List.getElem?_eq_some_iff.1 hs).1

/-- A visit leads on. -/
theorem visit (h : g.Solving r) (hwork : r.work = n :: work) (visited : g.Visited n { r with work } r') :
    g.Solving r' := by
  have met : r.Met n := h.waiting n (by simp [hwork])
  have reached := h.reached n met
  have before : ∀ m, m ∉ r'.work → m ≠ n → m ∉ r.work := fun m hm hn old => by
    rw [hwork] at old
    exact hm (visited.waiting m ((List.mem_cons.1 old).resolve_left hn))
  refine ⟨visited.formed, fun d hd => ?_, fun m hm => ?_, fun m d hd => ?_, (visited.met _).2 (.inl h.entry),
    fun m hm => ?_, fun m hm settled l hl => ?_⟩
  · rcases visited.known d hd with hd | ⟨rfl, hv⟩
    · exact h.known d hd
    · exact ⟨reached, hv⟩
  · rcases (visited.met m).1 hm with hm | hm
    · exact h.reached m hm
    · exact reached.tail hm
  · rcases (visited.holds m d).1 hd with hd | ⟨hm, ⟨hd, passes⟩ | ⟨rfl, -⟩⟩
    · exact h.arrives m d hd
    · exact .pass (h.arrives n d hd) passes hm
    · exact .succ hm
  · refine (visited.met m).2 ((visited.woken m hm).imp_left fun hm => h.waiting m ?_)
    rw [hwork]
    exact List.mem_cons_of_mem _ hm
  · obtain ⟨old, held⟩ := visited.same m settled
    have leaves : ∀ d, g.Leaves r' m d → g.Leaves r m d := fun d => Or.imp_left fun hd => ⟨held d hd.1, hd.2⟩
    by_cases hn : m = n
    · subst hn
      exact ⟨(visited.met l).2 (.inr hl), fun d hd => (visited.holds l d).2 (.inr ⟨hl, leaves d hd⟩)⟩
    · obtain ⟨hmet, hholds⟩ := h.settled m (old hm) (before m settled hn) l hl
      exact ⟨(visited.met l).2 (.inl hmet), fun d hd => (visited.holds l d).2 (.inl (hholds d (leaves d hd)))⟩

/-- Once no node waits, definitions have arrived wherever they can. -/
theorem arrived (h : g.Solving r) (done : r.work = []) {v : V}
    (reached : Relation.ReflTransGen (fun a b => b ∈ g.succs a) g.entry n)
    (written : v ∈ g.possiblyWritten n) (arrives : g.Arrives v n m) : r.Holds m (n, v) := by
  have settled : ∀ m, r.Met m → ∀ l ∈ g.succs m, r.Met l ∧ ∀ d, g.Leaves r m d → r.Holds l d := fun m hm =>
    h.settled m hm (by simp [done])
  have met : r.Met n := by
    clear written arrives
    induction reached with
    | refl => exact h.entry
    | tail _ hstep ih => exact (settled _ ih _ hstep).1
  have all : r.Met m ∧ r.Holds m (n, v) := by
    induction arrives with
    | succ hm => exact ⟨(settled _ met _ hm).1, (settled _ met _ hm).2 _ (.inr ⟨rfl, written⟩)⟩
    | pass _ passes hl ih => exact ⟨(settled _ ih.1 _ hl).1, (settled _ ih.1 _ hl).2 _ (.inl ⟨ih.2, passes⟩)⟩
  exact all.2

end Solving

section Visits

variable [DecidableEq V]

/-- The numbers of the definitions that leave a node. -/
def leaving (g : Flow V) (r : Reaching V) (n : Nat) : NodeSet :=
  NodeSet.union (((arriving r n).filter fun d => !(g.written n d.2.2).definitely).map (·.1))
    (r.numberAll n (g.possiblyWritten n)).1

theorem visitNode_eq (r : Reaching V) (n : Nat) : g.visitNode r n =
    (.visit n :: ((arriving r n).filter fun d => (g.read n d.2.2).possibly).map fun d => .chain ⟨d.2.1, d.2.2, n⟩,
      (g.succs n).foldl (flowTo (g.leaving r n)) (r.numberAll n (g.possiblyWritten n)).2) := rfl

omit [DecidableEq V] in
theorem arriving_sorted {size total : Nat} (h : r.Formed size total) :
    (arriving r n).Pairwise fun a b => a.1 < b.1 := by
  have sorted : (((r.sets[n]?).join).getD []).Pairwise (· < ·) := by
    cases hset : r.sets[n]? with
    | none => exact .nil
    | some s =>
        cases s with
        | none => exact .nil
        | some s => exact (h.sorted n s hset).1
  refine List.Pairwise.filterMap _ (fun i j lt a ha b hb => ?_) sorted
  obtain ⟨_, _, rfl⟩ := Option.map_eq_some_iff.1 ha
  obtain ⟨_, _, rfl⟩ := Option.map_eq_some_iff.1 hb
  exact lt

theorem leaving_sorted {size total : Nat} (h : r.Formed size total) : (g.leaving r n).Pairwise (· < ·) :=
  NodeSet.pairwise_union (List.pairwise_map.2 ((arriving_sorted h).filter _))

/-- The visited node has numbers for its definitions. -/
theorem numbered_formed (h : r.Formed g.size g.allDefinitions.length) (inside : n < g.size)
    (known : ∀ d ∈ r.definitions, d ∈ g.allDefinitions) :
    (r.numberAll n (g.possiblyWritten n)).2.Formed g.size g.allDefinitions.length := by
  have numbered := numberAll_numbered r n (g.possiblyWritten n)
  have distinct := numbered.distinct h.distinct
  refine ⟨numbered.sets ▸ h.sized, fun m s hs => ?_, numbered.work ▸ h.work, distinct, ?_⟩
  · obtain ⟨sorted, lt⟩ := h.sorted m s (numbered.sets ▸ hs)
    exact ⟨sorted, fun i hi => Nat.lt_of_lt_of_le (lt i hi) numbered.kept.length_le⟩
  · refine (List.subperm_of_subset distinct fun d hd => ?_).length_le
    rcases numbered.new d hd with hd | ⟨rfl, hv⟩
    · exact known d hd
    · exact mem_allDefinitions.2 ⟨inside, hv⟩

theorem holds_numbered {size total : Nat} (h : r.Formed size total) (m : Nat) (d : Nat × V) :
    (r.numberAll n (g.possiblyWritten n)).2.Holds m d ↔ r.Holds m d := by
  have numbered := numberAll_numbered r n (g.possiblyWritten n)
  unfold Holds Has
  rw [numbered.sets]
  constructor
  · rintro ⟨i, ⟨s, hs, hi⟩, hd⟩
    have lt := (h.sorted m s hs).2 i hi
    have old := getElem?_of_kept numbered.kept (List.getElem?_eq_getElem lt)
    exact ⟨i, ⟨s, hs, hi⟩, (List.getElem?_eq_getElem lt).trans (old.symm.trans hd)⟩
  · rintro ⟨i, has, hd⟩
    exact ⟨i, has, getElem?_of_kept numbered.kept hd⟩

/-- The numbers of what leaves the node. -/
theorem leaves_iff {d : Nat × V} : g.Leaves r n d ↔
    ∃ i ∈ g.leaving r n, (r.numberAll n (g.possiblyWritten n)).2.definitions[i]? = some d := by
  have numbered := numberAll_numbered r n (g.possiblyWritten n)
  unfold leaving Leaves
  simp only [NodeSet.mem_union, List.mem_map, List.mem_filter, mem_arriving, Bool.not_eq_true']
  constructor
  · rintro (⟨⟨i, has, hd⟩, passes⟩ | ⟨rfl, hv⟩)
    · exact ⟨i, .inl ⟨(i, d), ⟨⟨has, hd⟩, passes⟩, rfl⟩, getElem?_of_kept numbered.kept hd⟩
    · obtain ⟨i, hi, hd⟩ := numbered.all d.2 hv
      exact ⟨i, .inr hi, hd⟩
  · rintro ⟨i, ⟨⟨j, e⟩, ⟨⟨has, he⟩, passes⟩, rfl⟩ | hi, hd⟩
    · obtain rfl : e = d := Option.some.inj ((getElem?_of_kept numbered.kept he).symm.trans hd)
      exact .inl ⟨⟨j, has, he⟩, passes⟩
    · obtain ⟨v, hv, hv'⟩ := numbered.named i hi
      obtain rfl := Option.some.inj (hv'.symm.trans hd)
      exact .inr ⟨rfl, hv⟩

theorem leaving_lt :
    ∀ i ∈ g.leaving r n, i < (r.numberAll n (g.possiblyWritten n)).2.definitions.length := by
  have numbered := numberAll_numbered r n (g.possiblyWritten n)
  intro i hi
  rcases NodeSet.mem_union.1 hi with hi | hi
  · obtain ⟨⟨j, d⟩, hd, rfl⟩ := List.mem_map.1 hi
    have old := (mem_arriving.1 (List.mem_filter.1 hd).1).2
    exact Nat.lt_of_lt_of_le (List.getElem?_eq_some_iff.1 old).1 numbered.kept.length_le
  · obtain ⟨v, -, hd⟩ := numbered.named i hi
    exact (List.getElem?_eq_some_iff.1 hd).1

theorem visitNode_visited (h : r.Formed g.size g.allDefinitions.length)
    (known : ∀ d ∈ r.definitions, d ∈ g.allDefinitions) (inside : n < g.size)
    (within : ∀ m ∈ g.succs n, m < g.size) : g.Visited n r (g.visitNode r n).2 := by
  have numbered := numberAll_numbered r n (g.possiblyWritten n)
  have formed := numbered_formed h inside known
  have holds := holds_numbered (g := g) (n := n) h
  rw [visitNode_eq]
  have told : Told (g.leaving r n) (g.succs n) g.allDefinitions.length (r.numberAll n (g.possiblyWritten n)).2
      ((g.succs n).foldl (flowTo (g.leaving r n)) (r.numberAll n (g.possiblyWritten n)).2) :=
    foldl_told (formed.sized ▸ formed) (fun m hm => formed.sized ▸ within m hm) (leaving_sorted h) leaving_lt
  have leaves := fun d => leaves_iff (g := g) (r := r) (n := n) (d := d)
  dsimp only
  generalize (g.succs n).foldl _ _ = r₂ at told ⊢
  generalize (r.numberAll n (g.possiblyWritten n)).2 = r₁ at numbered formed holds told leaves
  refine ⟨formed.sized ▸ told.formed, fun d hd => numbered.new d (told.definitions ▸ hd), fun m => ?_, fun m d => ?_,
    fun m hm => told.waiting m (numbered.work ▸ hm), fun m hm => numbered.work ▸ told.woken m hm,
    fun m hm => ⟨fun met => ?_, fun d hd => ?_⟩, ?_⟩
  · rw [told.met, Met, Met, numbered.sets]
  · rw [← holds, leaves]
    simp only [Holds, told.has, told.definitions, or_and_right, exists_or]
    refine or_congr_right ⟨?_, ?_⟩
    · rintro ⟨i, ⟨hm, hi⟩, hd⟩
      exact ⟨hm, i, hi, hd⟩
    · rintro ⟨hm, i, hi, hd⟩
      exact ⟨i, ⟨hm, hi⟩, hd⟩
  · rw [Met, told.same m hm, numbered.sets] at met
    exact met
  · unfold Holds Has at hd
    rw [told.same m hm, told.definitions] at hd
    exact (holds m d).1 hd
  · refine told.room_le.trans (Nat.le_of_eq ?_)
    rw [room, room, numbered.sets, numbered.work]

/-- Chains that are noted on a visit end at the node, and their definitions are known to reach it. -/
theorem mem_visitNode {c : Chain V} : .chain c ∈ (g.visitNode r n).1 ↔
    r.Holds n (c.source, c.var) ∧ c.use = n ∧ (g.read n c.var).possibly = true := by
  rw [visitNode_eq]
  simp only [List.mem_cons, reduceCtorEq, false_or, List.mem_map, List.mem_filter, mem_arriving, Note.chain.injEq]
  constructor
  · rintro ⟨⟨i, d⟩, ⟨⟨has, hd⟩, reads⟩, rfl⟩
    exact ⟨⟨i, has, hd⟩, rfl, reads⟩
  · rintro ⟨⟨i, has, hd⟩, rfl, reads⟩
    exact ⟨(i, c.source, c.var), ⟨⟨has, hd⟩, reads⟩, rfl⟩

section

variable (within : ∀ x < g.size, ∀ y ∈ g.succs x, y < g.size)

include within in
theorem Solving.visited (h : g.Solving r) (hwork : r.work = n :: work) :
    g.Visited n { r with work } (g.visitNode { r with work } n).2 := by
  obtain ⟨sized, sorted, ascending, distinct, few⟩ := h.formed
  rw [hwork] at ascending
  have inside := h.lt (h.waiting n (by simp [hwork]))
  refine visitNode_visited ⟨sized, sorted, (List.pairwise_cons.1 ascending).2, distinct, few⟩ (fun d hd => ?_) inside
    (within n inside)
  obtain ⟨reached, written⟩ := h.known d hd
  exact mem_allDefinitions.2 ⟨reached_lt within (h.lt h.entry) reached, written⟩

include within in
/-- With enough visits, chains are noted for all links but those whose definition was already known to
reach a node that does not wait, and for nothing else. -/
theorem mem_solve {fuel : Nat} (h : g.Solving r) (enough : r.room g.allDefinitions.length ≤ fuel) :
    (∀ c, .chain c ∈ g.solve fuel r → g.Linked c) ∧ ∀ c, g.Linked c →
      .chain c ∈ g.solve fuel r ∨ c.use ∉ r.work ∧ r.Holds c.use (c.source, c.var) := by
  induction fuel generalizing r with
  | zero =>
      have done := work_of_room_le enough
      exact ⟨fun c hc => (nomatch hc), fun c hc =>
        .inr ⟨by simp [done], h.arrived done hc.reached hc.written hc.arrives⟩⟩
  | succ fuel ih =>
      unfold solve
      cases hwork : r.work with
      | nil => exact ⟨fun c hc => (nomatch hc), fun c hc =>
          .inr ⟨by simp, h.arrived hwork hc.reached hc.written hc.arrives⟩⟩
      | cons n work =>
          have visited := h.visited within hwork
          have next := h.visit hwork visited
          have room := Nat.lt_of_le_of_lt visited.room_le (room_lt_of_work hwork)
          obtain ⟨sound, complete⟩ := ih next (by omega)
          dsimp only
          refine ⟨fun c hc => ?_, fun c hc => ?_⟩
          · rcases List.mem_append.1 hc with hc | hc
            · obtain ⟨hd, rfl, reads⟩ := mem_visitNode.1 hc
              obtain ⟨i, -, hi⟩ := id hd
              obtain ⟨reached, written⟩ := h.known _ (List.mem_of_getElem? hi)
              exact ⟨reached, written, h.arrives _ _ hd, reads⟩
            · exact sound c hc
          · rcases complete c hc with noted | ⟨still, held⟩
            · exact .inl (List.mem_append_right _ noted)
            · have held : r.Holds c.use (c.source, c.var) := (visited.same _ still).2 _ held
              by_cases hn : c.use = n
              · exact .inl (List.mem_append_left _ (mem_visitNode.2 ⟨hn ▸ held, hn, hn ▸ hc.reads⟩))
              · refine .inr ⟨fun old => ?_, held⟩
                exact still (visited.waiting _ ((List.mem_cons.1 old).resolve_left hn))

include within in
/-- More visits than needed are not made. -/
theorem solve_eq_of_le {fuel more : Nat} (h : g.Solving r) (enough : r.room g.allDefinitions.length ≤ fuel)
    (le : fuel ≤ more) : g.solve more r = g.solve fuel r := by
  induction fuel generalizing r more with
  | zero =>
      have done := work_of_room_le enough
      cases more with
      | zero => rfl
      | succ more => simp only [solve, done]
  | succ fuel ih =>
      obtain ⟨more, rfl⟩ : ∃ k, more = k + 1 := ⟨more - 1, by omega⟩
      unfold solve
      cases hwork : r.work with
      | nil => rfl
      | cons n work =>
          have visited := h.visited within hwork
          have room := Nat.lt_of_le_of_lt visited.room_le (room_lt_of_work hwork)
          dsimp only
          rw [ih (h.visit hwork visited) (by omega) (by omega)]

/-- The entry waits for its visit, and no definition reaches it yet. -/
def start (g : Flow V) : Reaching V := ⟨[], (List.replicate g.size none).set g.entry (some []), [g.entry]⟩

omit [DecidableEq V] in
theorem getElem?_start (entry : g.entry < g.size) (m : Nat) : g.start.sets[m]? =
    if m = g.entry then some (some []) else if m < g.size then some none else none := by
  unfold start
  rw [List.getElem?_set, List.length_replicate, List.getElem?_replicate]
  by_cases hm : g.entry = m
  · simp [hm, hm ▸ entry]
  · simp [hm, Ne.symm hm]

omit [DecidableEq V] in
theorem set_start (entry : g.entry < g.size) {s : NodeSet} (hs : g.start.sets[m]? = some (some s)) :
    m = g.entry ∧ s = [] := by
  rw [getElem?_start entry] at hs
  split at hs
  · rename_i hm
    exact ⟨hm, (Option.some.inj (Option.some.inj hs)).symm⟩
  · split at hs
    · cases Option.some.inj hs
    · cases hs

omit [DecidableEq V] in
theorem not_holds_start (entry : g.entry < g.size) {d : Nat × V} : ¬ g.start.Holds m d := by
  rintro ⟨i, ⟨s, hs, hi⟩, -⟩
  obtain ⟨-, rfl⟩ := set_start entry hs
  cases hi

omit [DecidableEq V] in
theorem solving_start (entry : g.entry < g.size) : g.Solving g.start where
  formed := by
    refine ⟨by simp [start], fun m s hs => ?_, List.pairwise_singleton _ _, .nil, Nat.zero_le _⟩
    obtain ⟨-, rfl⟩ := set_start entry hs
    exact ⟨.nil, fun i hi => nomatch hi⟩
  known d hd := nomatch hd
  reached m := fun ⟨s, hs⟩ => (set_start entry hs).1 ▸ .refl
  arrives m d hd := (not_holds_start entry hd).elim
  entry := ⟨[], by rw [getElem?_start entry, if_pos rfl]⟩
  waiting m hm := List.mem_singleton.1 hm ▸ ⟨[], by rw [getElem?_start entry, if_pos rfl]⟩
  settled m := fun ⟨s, hs⟩ hm => (hm ((set_start entry hs).1 ▸ List.mem_singleton_self _)).elim

omit [DecidableEq V] in
/-- The bound on visits is large enough. -/
theorem room_start_le (entry : g.entry < g.size) : g.start.room g.allDefinitions.length ≤ g.visitBound := by
  have first : (List.replicate g.size (none : Option NodeSet))[g.entry]? = some none := by
    rw [List.getElem?_replicate, if_pos entry]
  have sum := sum_set (lack g.allDefinitions.length) first (some [])
  rw [List.map_replicate, List.sum_replicate_nat] at sum
  rw [visitBound_eq, Nat.add_mul, Nat.add_comm 2]
  unfold room start
  simp only [lack, List.length_singleton, List.length_nil] at sum ⊢
  omega

end

end Visits

end Flow

end DeltaSlice
