import DeltaSlice.Flow.DefUse
import DeltaSlice.Proofs.Flow.Search

/-!
Following definitions finds every chain: where the definition of a variable at a node that can be
reached from the entry arrives without being surely overwritten, a node that may read the variable
makes a chain with it.
-/

namespace DeltaSlice

namespace Flow

variable {V : Type} {g : Flow V} {v : V} {n m : Nat}

/-- The definition of `v` at `n` arrives at a node: no node on the way surely writes `v` again. -/
inductive Arrives (g : Flow V) (v : V) (n : Nat) : Nat → Prop
  | succ {m : Nat} : m ∈ g.succs n → Arrives g v n m
  | pass {m l : Nat} : Arrives g v n m → (g.written m v).definitely = false → l ∈ g.succs m →
      Arrives g v n l

/-- Where a definition of `v` goes from a node. -/
def onward (g : Flow V) (v : V) (x : Nat) : List Nat :=
  if (g.written x v).definitely then [] else g.succs x

theorem usesFrom_eq (fuel : Nat) (visited work : NodeSet) : g.usesFrom v fuel visited work =
    (search (g.onward v) NodeSet.union fuel visited work).filter
      fun x => (g.read x v).possibly := by
  induction fuel generalizing visited work with
  | zero => rfl
  | succ fuel ih =>
      cases work with
      | nil => rfl
      | cons x work =>
          simp only [usesFrom, search, ih, List.filter_cons]
          by_cases written : (g.written x v).definitely = true
          · simp [onward, written, NodeSet.insertNew, NodeSet.union]
          · simp [onward, written]

theorem follow_eq : g.follow n v =
    (search (g.onward v) NodeSet.union (g.size + 1) (NodeSet.insertNew [] (g.succs n)).1
      (NodeSet.union [] (NodeSet.insertNew [] (g.succs n)).2)).filter
      fun x => (g.read x v).possibly := by
  rw [← usesFrom_eq]
  rfl

theorem Arrives.path (h : g.Arrives v n m) :
    ∃ x ∈ g.succs n, Relation.ReflTransGen (fun a b => b ∈ g.onward v a) x m := by
  induction h with
  | succ hm => exact ⟨_, hm, .refl⟩
  | pass _ hwritten hl ih =>
      obtain ⟨x, hx, path⟩ := ih
      exact ⟨x, hx, path.tail (by simpa [onward, hwritten] using hl)⟩

theorem Arrives.onward {x : Nat} (hx : x ∈ g.succs n)
    (path : Relation.ReflTransGen (fun a b => b ∈ g.onward v a) x m) : g.Arrives v n m := by
  induction path with
  | refl => exact .succ hx
  | tail _ hstep ih =>
      unfold Flow.onward at hstep
      split at hstep
      · cases hstep
      · rename_i hwritten
        exact .pass ih (by simpa using hwritten) hstep

theorem reachableFrom_eq (fuel : Nat) (visited : NodeSet) (queue : List Nat) :
    g.reachableFrom fuel visited queue = search g.succs (· ++ ·) fuel visited queue := by
  induction fuel generalizing visited queue with
  | zero => rfl
  | succ fuel ih =>
      cases queue with
      | nil => rfl
      | cons x queue => simp only [reachableFrom, search, ih]

section

variable (within : ∀ x < g.size, ∀ y ∈ g.succs x, y < g.size)

include within in
theorem mem_follow (hn : n < g.size) (arrives : g.Arrives v n m)
    (reads : (g.read m v).possibly = true) : m ∈ g.follow n v := by
  obtain ⟨perm, mem, nodup⟩ := NodeSet.insertNew_extends [] (g.succs n)
  have work : (NodeSet.union [] (NodeSet.insertNew [] (g.succs n)).2).Perm
      (NodeSet.insertNew [] (g.succs n)).2 := NodeSet.union_perm (by simpa using nodup)
  have first : ∀ x, x ∈ NodeSet.union [] (NodeSet.insertNew [] (g.succs n)).2 ↔
      x ∈ g.succs n := fun x => by
    rw [work.mem_iff, mem]
    simp
  have onward_lt : ∀ x < g.size, ∀ y ∈ g.onward v x, y < g.size := by
    intro x hx y hy
    unfold onward at hy
    split at hy
    · cases hy
    · exact within x hx y hy
  obtain ⟨x, hx, path⟩ := arrives.path
  rw [follow_eq, List.mem_filter]
  refine ⟨mem_search_of_reaches (fun a b => NodeSet.union_perm) onward_lt
    ?_ (work.nodup_iff.2 nodup) ?_ (Nat.lt_succ_self _) ((first x).2 hx) path, reads⟩
  · exact (perm.trans (.of_eq (List.append_nil _))).trans work.symm
  · exact fun y hy => within n hn y ((first y).1 hy)

include within in
theorem mem_reachable (entry : g.entry < g.size)
    (path : Relation.ReflTransGen (fun a b => b ∈ g.succs a) g.entry n) : n ∈ g.reachable := by
  unfold reachable
  rw [reachableFrom_eq]
  exact mem_search_of_reaches (fun _ _ _ => .refl _) within (.refl _)
    (by simp) (by simpa using entry) (Nat.lt_succ_self _) (by simp) path

include within in
theorem reached_lt (entry : g.entry < g.size)
    (path : Relation.ReflTransGen (fun a b => b ∈ g.succs a) g.entry n) : n < g.size := by
  induction path with
  | refl => exact entry
  | tail _ hstep ih => exact within _ ih _ hstep

variable [DecidableEq V] {name : V → String}

theorem mem_followChains {c : Chain V} : c ∈ g.followChains name ↔
    c.source ∈ g.reachable ∧ c.var ∈ g.possiblyWritten c.source ∧
      c.use ∈ g.follow c.source c.var := by
  unfold followChains Note.chains followNotes followAll
  simp only [List.mem_mergeSort, List.mem_eraseDups, List.mem_filterMap, List.mem_flatMap,
    List.mem_cons, List.mem_map]
  constructor
  · rintro ⟨note, ⟨n, hn, v, hv, rfl | ⟨u, hu, rfl⟩⟩, hc⟩
    · cases hc
    · obtain rfl : (⟨n, v, u⟩ : Chain V) = c := by simpa [Note.chain?] using hc
      exact ⟨hn, hv, hu⟩
  · rintro ⟨hn, hv, hu⟩
    exact ⟨.chain c, ⟨c.source, hn, c.var, hv, .inr ⟨c.use, hu, rfl⟩⟩, rfl⟩

/-- What a chain tells about its ends. -/
theorem accesses_of_mem_followChains {c : Chain V} (h : c ∈ g.followChains name) :
    c.var ∈ g.possiblyWritten c.source ∧ (g.read c.use c.var).possibly = true := by
  obtain ⟨-, written, hu⟩ := mem_followChains.1 h
  refine ⟨written, ?_⟩
  rw [follow_eq] at hu
  exact (List.mem_filter.1 hu).2

include within in
theorem mem_followChains_of_arrives (entry : g.entry < g.size) (hn : n < g.size)
    (path : Relation.ReflTransGen (fun a b => b ∈ g.succs a) g.entry n)
    (written : v ∈ g.possiblyWritten n) (arrives : g.Arrives v n m)
    (reads : (g.read m v).possibly = true) : ⟨n, v, m⟩ ∈ g.followChains name :=
  mem_followChains.2 ⟨mem_reachable within entry path, written,
    mem_follow within hn arrives reads⟩

/-- A definition at a node that can be reached arrives at a node that may read the variable. -/
structure Linked (g : Flow V) (c : Chain V) : Prop where
  reached : Relation.ReflTransGen (fun a b => b ∈ g.succs a) g.entry c.source
  written : c.var ∈ g.possiblyWritten c.source
  arrives : g.Arrives c.var c.source c.use
  reads : (g.read c.use c.var).possibly = true

include within in
/-- Following definitions finds the links. -/
theorem mem_followChains_iff (entry : g.entry < g.size) {c : Chain V} :
    c ∈ g.followChains name ↔ g.Linked c := by
  refine ⟨fun h => ?_, fun h => ?_⟩
  · obtain ⟨met, written, use⟩ := mem_followChains.1 h
    obtain ⟨-, reads⟩ := accesses_of_mem_followChains h
    have reached : Relation.ReflTransGen (fun a b => b ∈ g.succs a) g.entry c.source := by
      unfold reachable at met
      rw [reachableFrom_eq] at met
      obtain ⟨x, hx, path⟩ := reaches_of_mem_search (fun _ _ _ => List.mem_append.1) met
      rwa [List.mem_singleton.1 hx] at path
    refine ⟨reached, written, ?_, reads⟩
    rw [follow_eq] at use
    obtain ⟨x, hx, path⟩ := reaches_of_mem_search (fun _ _ _ => NodeSet.mem_union.1) (List.mem_filter.1 use).1
    have first : x ∈ g.succs c.source := by
      rcases NodeSet.mem_union.1 hx with hx | hx
      · cases hx
      · exact (((NodeSet.insertNew_extends [] _).mem_new x).1 hx).1
    exact .onward first path
  · exact mem_followChains_of_arrives within entry (reached_lt within entry h.reached) h.reached h.written
      h.arrives h.reads

end

end Flow

end DeltaSlice
