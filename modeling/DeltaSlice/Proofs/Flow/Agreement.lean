import DeltaSlice.Proofs.Flow.Fixpoint

/-!
Following every definition and solving for the definitions that reach every node find the same chains, in
the same order: the links of the graph.
-/

namespace DeltaSlice

theorem nodup_eraseDups {α : Type} [DecidableEq α] (l : List α) : l.eraseDups.Nodup := by
  induction h : l.length using Nat.strong_induction_on generalizing l with
  | _ n ih =>
      cases l with
      | nil => exact .nil
      | cons a l =>
          rw [List.eraseDups_cons]
          refine List.nodup_cons.2 ⟨fun hmem => ?_, ih _ ?_ _ rfl⟩
          · simpa using List.mem_eraseDups.1 hmem
          · have := List.length_filter_le (fun b => !b == a) l
            rw [← h, List.length_cons]
            omega

namespace Chain

variable {V : Type} {name : V → String} {a b c : Chain V}

theorem le_iff : le name a b = true ↔ a.source < b.source ∨ a.source = b.source ∧
    (a.use < b.use ∨ a.use = b.use ∧ name a.var ≤ name b.var) := by
  unfold le
  by_cases source : a.source = b.source
  · by_cases use : a.use = b.use
    · simp only [source, use, ne_eq, not_true_eq_false, if_false, Nat.lt_irrefl, false_or, true_and,
        Bool.not_eq_true', decide_eq_false_iff_not]
      exact String.not_lt
    · simp [source, use]
  · simp [source]

theorem le_trans (hab : le name a b = true) (hbc : le name b c = true) : le name a c = true := by
  have text : name a.var ≤ name b.var → name b.var ≤ name c.var → name a.var ≤ name c.var := String.le_trans
  rw [le_iff] at *
  grind

theorem le_total (a b : Chain V) : (le name a b || le name b a) = true := by
  have text := String.le_total (name a.var) (name b.var)
  rw [Bool.or_eq_true, le_iff, le_iff]
  grind

theorem eq_of_le (hab : le name a b = true) (hba : le name b a = true) :
    a.source = b.source ∧ a.use = b.use ∧ name a.var = name b.var := by
  have text : name a.var ≤ name b.var → name b.var ≤ name a.var → name a.var = name b.var := String.le_antisymm
  rw [le_iff] at *
  grind

end Chain

namespace Note

variable {V : Type} [DecidableEq V] {name : V → String}

theorem mem_chains {notes : List (Note V)} {c : Chain V} : c ∈ chains name notes ↔ .chain c ∈ notes := by
  unfold chains
  rw [List.mem_mergeSort, List.mem_eraseDups, List.mem_filterMap]
  constructor
  · rintro ⟨note, hnote, hc⟩
    cases note with
    | chain d =>
        obtain rfl := Option.some.inj hc
        exact hnote
    | definition n v | visit n => cases hc
  · exact fun h => ⟨_, h, rfl⟩

theorem mem_fresh {notes : List (Note V)} {seen : List (Chain V)} {c : Chain V} :
    .chain c ∈ fresh seen notes ↔ .chain c ∈ notes ∧ c ∉ seen := by
  induction notes generalizing seen with
  | nil => simp [fresh]
  | cons note notes ih =>
      cases note with
      | chain d =>
          unfold fresh
          split
          · rename_i known
            have known : d ∈ seen := by simpa using known
            rw [ih, List.mem_cons, chain.injEq]
            refine ⟨fun h => ⟨.inr h.1, h.2⟩, fun h => ⟨h.1.resolve_left ?_, h.2⟩⟩
            rintro rfl
            exact h.2 known
          · rename_i new
            have new : d ∉ seen := by simpa using new
            rw [List.mem_cons, List.mem_cons, ih, chain.injEq, List.mem_cons, not_or]
            constructor
            · rintro (rfl | ⟨hc, -, old⟩)
              · exact ⟨.inl rfl, new⟩
              · exact ⟨.inr hc, old⟩
            · rintro ⟨hc, old⟩
              by_cases same : c = d
              · exact .inl same
              · exact .inr ⟨hc.resolve_left same, same, old⟩
      | definition n v | visit n => simp [fresh, ih]

theorem pairwise_chains (notes : List (Note V)) :
    (chains name notes).Pairwise fun a b => Chain.le name a b = true := by
  have trans : ∀ a b c : Chain V, Chain.le name a b = true → Chain.le name b c = true → Chain.le name a c = true :=
    fun _ _ _ => Chain.le_trans
  exact List.pairwise_mergeSort trans Chain.le_total _

theorem nodup_chains (notes : List (Note V)) : (chains name notes).Nodup :=
  (List.mergeSort_perm _ _).nodup_iff.2 (nodup_eraseDups _)

/-- Notes of the same chains list the same chains, if variables of different chains have different texts. -/
theorem chains_eq {notes notes' : List (Note V)} (same : ∀ c, .chain c ∈ notes ↔ .chain c ∈ notes')
    (texts : ∀ c d, .chain c ∈ notes → .chain d ∈ notes → name c.var = name d.var → c.var = d.var) :
    chains name notes = chains name notes' := by
  refine List.Perm.eq_of_pairwise (fun a b ha hb hab hba => ?_) (pairwise_chains notes) (pairwise_chains notes')
    ((List.perm_ext_iff_of_nodup (nodup_chains notes) (nodup_chains notes')).2 fun c => by
      rw [mem_chains, mem_chains, same])
  obtain ⟨source, use, text⟩ := Chain.eq_of_le hab hba
  have var := texts a b (mem_chains.1 ha) ((same b).2 (mem_chains.1 hb)) text
  obtain ⟨n, v, u⟩ := a
  obtain ⟨n', v', u'⟩ := b
  cases source
  cases use
  cases var
  rfl

end Note

namespace Flow

variable {V : Type} [DecidableEq V] {name : V → String} {g : Flow V}

section

variable (within : ∀ x < g.size, ∀ y ∈ g.succs x, y < g.size) (entry : g.entry < g.size)

include within entry

theorem mem_fixpointNotes {c : Chain V} : .chain c ∈ g.fixpointNotes ↔ g.Linked c := by
  obtain ⟨sound, complete⟩ := mem_solve within (solving_start entry) (room_start_le entry)
  unfold fixpointNotes
  rw [Note.mem_fresh]
  refine ⟨fun h => sound c h.1, fun h => ⟨(complete c h).resolve_right ?_, by simp⟩⟩
  exact fun ⟨_, held⟩ => not_holds_start entry held

theorem mem_followNotes {c : Chain V} : .chain c ∈ g.followNotes ↔ g.Linked c := by
  have same : c ∈ g.followChains (fun _ => "") ↔ g.Linked c := mem_followChains_iff within entry
  rw [← same]
  exact Note.mem_chains.symm

end

/-- Both ways of finding chains list the same ones, and solving comes to an end: with more visits than the
bound allows, nothing else is done. -/
theorem fixpointChains_eq_followChains (entry : g.entry < g.size)
    (within : ∀ n < g.size, ∀ m ∈ g.succs n, m < g.size)
    (texts : ∀ n < g.size, ∀ m < g.size, ∀ v ∈ g.possiblyWritten n, ∀ w ∈ g.possiblyWritten m,
      name v = name w → v = w) :
    g.fixpointChains name = g.followChains name ∧
      ∀ visits, g.visitBound ≤ visits → g.solve visits g.start = g.solve g.visitBound g.start := by
  refine ⟨Note.chains_eq (fun c => ?_) fun c d hc hd => ?_, fun visits enough => ?_⟩
  · rw [mem_fixpointNotes within entry, mem_followNotes within entry]
  · have hc := (mem_fixpointNotes within entry).1 hc
    have hd := (mem_fixpointNotes within entry).1 hd
    exact texts _ (reached_lt within entry hc.reached) _ (reached_lt within entry hd.reached) _ hc.written _
      hd.written
  · exact solve_eq_of_le within (solving_start entry) (room_start_le entry) enough

end Flow

/-- A loop over the nodes 2 to 5, entered through 1. Node 1 writes `x`, 3 may write it, 4 reads it; 5 writes
`x` and `y`, and 2 reads `y`. -/
def Examples.loop : Flow String where
  size := 6
  entry := 0
  succs
    | 0 => [1]
    | 1 => [2]
    | 2 => [3, 4]
    | 3 => [4]
    | 4 => [5]
    | 5 => [2]
    | _ => []
  preds
    | 1 => [0]
    | 2 => [1, 5]
    | 3 => [2]
    | 4 => [2, 3]
    | 5 => [4]
    | _ => []
  read
    | 4, v => .bool (v = "x")
    | 2, v => .bool (v = "y")
    | _, _ => .bool false
  written
    | 1, v => .bool (v = "x")
    | 3, v => if v = "x" then .unknown else .bool false
    | 5, v => .bool (v = "x" || v = "y")
    | _, _ => .bool false
  possiblyWritten
    | 1 | 3 => ["x"]
    | 5 => ["x", "y"]
    | _ => []

open Examples Flow in
theorem fixpointChains_eq_followChains_loop :
    loop.fixpointNotes.filterMap Note.chain? = [⟨1, "x", 4⟩, ⟨3, "x", 4⟩, ⟨5, "y", 2⟩, ⟨5, "x", 4⟩] ∧
    loop.fixpointChains id = loop.followChains id ∧
      ∀ visits, loop.visitBound ≤ visits → loop.solve visits loop.start = loop.solve loop.visitBound loop.start :=
  ⟨by decide +kernel, fixpointChains_eq_followChains (by decide) (by decide) fun _ _ _ _ _ _ _ _ h => h⟩

end DeltaSlice

/-!
What following definitions finds, told by paths: a definition makes a chain with every node that may read the
variable at the end of a path on which no node in between surely writes the variable. The searches come to
their end, and the chains are listed in order.
-/

namespace DeltaSlice

namespace Flow

variable {V : Type} {g : Flow V} {v : V} {n m : Nat}

/-- `x 0`, …, `x k` is a path from `n` to `m`, and no node in between surely writes `v`. -/
structure OpenPath (g : Flow V) (v : V) (n m k : Nat) (x : Nat → Nat) : Prop where
  pos : 1 ≤ k
  first : x 0 = n
  last : x k = m
  edges : ∀ i < k, x (i + 1) ∈ g.succs (x i)
  unwritten : ∀ i, 0 < i → i < k → (g.written (x i) v).definitely = false

theorem OpenPath.single (edge : m ∈ g.succs n) : g.OpenPath v n m 1 fun i => if i = 0 then n else m where
  pos := Nat.le_refl 1
  first := if_pos rfl
  last := if_neg Nat.one_ne_zero
  edges i hi := by
    obtain rfl : i = 0 := by omega
    simpa using edge
  unwritten i low high := by omega

theorem OpenPath.snoc {k l : Nat} {x : Nat → Nat} (h : g.OpenPath v n m k x)
    (passes : (g.written m v).definitely = false) (edge : l ∈ g.succs m) :
    g.OpenPath v n l (k + 1) fun i => if i ≤ k then x i else l where
  pos := by omega
  first := by simpa using h.first
  last := if_neg (by omega)
  edges i hi := by
    rw [if_pos (by omega : i ≤ k)]
    by_cases last : i = k
    · subst last
      rw [if_neg (by omega), h.last]
      exact edge
    · rw [if_pos (by omega)]
      exact h.edges i (by omega)
  unwritten i low high := by
    rw [if_pos (by omega : i ≤ k)]
    by_cases last : i = k
    · rw [last, h.last]
      exact passes
    · exact h.unwritten i low (by omega)

/-- A definition arrives along the open paths. -/
theorem arrives_iff : g.Arrives v n m ↔ ∃ k x, g.OpenPath v n m k x := by
  constructor
  · intro arrives
    induction arrives with
    | succ edge => exact ⟨1, _, .single edge⟩
    | pass _ passes edge ih =>
        obtain ⟨k, x, path⟩ := ih
        exact ⟨k + 1, _, path.snoc passes edge⟩
  · rintro ⟨k, x, path⟩
    -- along the path the definition arrives at one node after the other
    have arrives : ∀ i, i + 1 ≤ k → g.Arrives v n (x (i + 1)) := by
      intro i
      induction i with
      | zero => exact fun inside => .succ (path.first ▸ path.edges 0 (by omega))
      | succ i ih =>
          intro inside
          exact .pass (ih (by omega)) (path.unwritten _ (by omega) (by omega)) (path.edges _ (by omega))
    have pos := path.pos
    obtain ⟨k, rfl⟩ : ∃ i, k = i + 1 := ⟨k - 1, by omega⟩
    exact path.last ▸ arrives k (Nat.le_refl _)

section

variable (within : ∀ x < g.size, ∀ y ∈ g.succs x, y < g.size)

include within

/-- The search for the nodes that can be reached comes to its end. -/
theorem reachable_meets (entry : g.entry < g.size) :
    SearchMeets g.succs (· ++ ·) [g.entry] [g.entry] g.reachable := by
  have first : Searching g.succs g.size [g.entry] [g.entry] :=
    .start (.refl _) (List.nodup_singleton _) (by simpa using entry)
  unfold reachable
  rw [reachableFrom_eq]
  exact first.meets (fun _ _ _ => .refl _) within (by omega)

/-- Following one definition comes to its end. -/
theorem follow_meets (hn : n < g.size) (v : V) : ∃ met,
    SearchMeets (g.onward v) NodeSet.union (NodeSet.insertNew [] (g.succs n)).1
      (NodeSet.union [] (NodeSet.insertNew [] (g.succs n)).2) met ∧
    g.follow n v = met.filter fun x => (g.read x v).possibly := by
  obtain ⟨perm, mem, nodup⟩ := NodeSet.insertNew_extends [] (g.succs n)
  have work : (NodeSet.union [] (NodeSet.insertNew [] (g.succs n)).2).Perm (NodeSet.insertNew [] (g.succs n)).2 :=
    NodeSet.union_perm (by simpa using nodup)
  have onward_lt : ∀ x < g.size, ∀ y ∈ g.onward v x, y < g.size := by
    intro x hx y hy
    unfold onward at hy
    split at hy
    · cases hy
    · exact within x hx y hy
  have start := (perm.trans (.of_eq (List.append_nil _))).trans work.symm
  have first : Searching (g.onward v) g.size (NodeSet.insertNew [] (g.succs n)).1
      (NodeSet.union [] (NodeSet.insertNew [] (g.succs n)).2) := by
    refine .start start (work.nodup_iff.2 nodup) fun y hy => within n hn y ?_
    exact ((mem y).1 (work.mem_iff.1 hy)).1
  refine ⟨_, first.meets (fun _ _ => NodeSet.union_perm) onward_lt ?_, follow_eq⟩
  rw [start.length_eq]
  omega

end

variable {name : V → String}

/-- By source, use and text of the variable. -/
def Before (name : V → String) (a b : Chain V) : Prop :=
  a.source < b.source ∨ a.source = b.source ∧ (a.use < b.use ∨ a.use = b.use ∧ name a.var < name b.var)

theorem before_of_le {a b : Chain V} (le : Chain.le name a b = true) (ne : a ≠ b)
    (text : name a.var = name b.var → a.var = b.var) : Before name a b := by
  rcases Chain.le_iff.1 le with source | ⟨source, use | ⟨use, var⟩⟩
  · exact .inl source
  · exact .inr ⟨source, .inl use⟩
  · refine .inr ⟨source, .inr ⟨use, ?_⟩⟩
    refine String.not_le.1 fun ge => ne ?_
    have var := text (String.le_antisymm var ge)
    obtain ⟨n, v, u⟩ := a
    obtain ⟨n', v', u'⟩ := b
    cases source
    cases use
    cases var
    rfl

variable [DecidableEq V]

/-- Following definitions comes to an end and lists, each once and in order, the chains of definitions at nodes
that can be reached with the nodes that may read the variable at the end of an open path. -/
theorem followChains_exact (entry : g.entry < g.size) (within : ∀ n < g.size, ∀ m ∈ g.succs n, m < g.size)
    (texts : ∀ n < g.size, ∀ m < g.size, ∀ v ∈ g.possiblyWritten n, ∀ w ∈ g.possiblyWritten m,
      name v = name w → v = w) :
    SearchMeets g.succs (· ++ ·) [g.entry] [g.entry] g.reachable ∧
    (∀ n < g.size, ∀ v, ∃ met,
      SearchMeets (g.onward v) NodeSet.union (NodeSet.insertNew [] (g.succs n)).1
        (NodeSet.union [] (NodeSet.insertNew [] (g.succs n)).2) met ∧
      g.follow n v = met.filter fun x => (g.read x v).possibly) ∧
    (g.followChains name).Nodup ∧ (g.followChains name).Pairwise (Before name) ∧
    ∀ n v m, ⟨n, v, m⟩ ∈ g.followChains name ↔
      Relation.ReflTransGen (fun a b => b ∈ g.succs a) g.entry n ∧ v ∈ g.possiblyWritten n ∧
        (g.read m v).possibly = true ∧ ∃ k x, g.OpenPath v n m k x := by
  have links : ∀ {c}, c ∈ g.followChains name ↔ g.Linked c := mem_followChains_iff within entry
  have nodup : (g.followChains name).Nodup := Note.nodup_chains _
  refine ⟨reachable_meets within entry, fun n hn v => follow_meets within hn v, nodup, ?_, fun n v m => ?_⟩
  · have sorted : (g.followChains name).Pairwise fun a b => Chain.le name a b = true := Note.pairwise_chains _
    refine (sorted.and nodup).imp_of_mem fun ha hb h => before_of_le h.1 h.2 ?_
    have la := links.1 ha
    have lb := links.1 hb
    exact texts _ (reached_lt within entry la.reached) _ (reached_lt within entry lb.reached) _ la.written _
      lb.written
  · rw [links]
    constructor
    · rintro ⟨reached, written, arrives, reads⟩
      exact ⟨reached, written, reads, arrives_iff.1 arrives⟩
    · rintro ⟨reached, written, reads, path⟩
      exact ⟨reached, written, arrives_iff.2 path, reads⟩

end Flow

open Examples Flow in
theorem followChains_exact_loop :
    loop.entry < loop.size ∧ (∀ n < loop.size, ∀ m ∈ loop.succs n, m < loop.size) ∧
    (loop.followChains id).Pairwise (Before id) ∧ ⟨5, "x", 4⟩ ∈ loop.followChains id ∧
    ⟨1, "x", 2⟩ ∉ loop.followChains id := by
  obtain ⟨-, -, -, sorted, exact⟩ := @followChains_exact _ loop id _ (by decide) (by decide)
    fun _ _ _ _ _ _ _ _ h => h
  have reached : Relation.ReflTransGen (fun a b => b ∈ loop.succs a) loop.entry 5 := by
    have first : Relation.ReflTransGen (fun a b => b ∈ loop.succs a) loop.entry 2 :=
      .tail (.single (by decide : 1 ∈ loop.succs 0)) (by decide : 2 ∈ loop.succs 1)
    exact (first.tail (by decide : 4 ∈ loop.succs 2)).tail (by decide : 5 ∈ loop.succs 4)
  have path : loop.OpenPath "x" 5 4 2 _ := (OpenPath.single (by decide : 2 ∈ loop.succs 5)).snoc (by decide) (by decide)
  refine ⟨by decide, by decide, sorted, (exact 5 "x" 4).2 ⟨reached, by decide, by decide, 2, _, path⟩, fun listed => ?_⟩
  exact absurd ((exact 1 "x" 2).1 listed).2.2.1 (by decide)

end DeltaSlice
