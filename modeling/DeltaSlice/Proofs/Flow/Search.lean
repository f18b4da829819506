import DeltaSlice.NodeSet
import Mathlib.Data.List.Nodup
import Mathlib.Data.List.Perm.Subperm
import Mathlib.Logic.Relation
import Mathlib.Order.Lattice.Nat

/-!
Searches with a worklist: the first node is taken up, and those after it that were not met before
join the worklist. All searches of the library have this form; they differ in what comes after a node
and in where it is put. Whatever can be reached is met before the bound on steps is used up.
-/

namespace DeltaSlice

namespace NodeSet

theorem insert_perm {n : Nat} {s : NodeSet} (h : n ∉ s) : (insert n s).Perm (n :: s) := by
  induction s with
  | nil => exact .refl _
  | cons m s ih =>
      obtain ⟨hne, hs⟩ := List.ne_and_not_mem_of_not_mem_cons h
      unfold insert
      split
      · exact .refl _
      · exact ((ih hs).cons m).trans (.swap n m s)

theorem union_perm {s t : NodeSet} (h : (s ++ t).Nodup) : (union s t).Perm (s ++ t) := by
  unfold union
  induction t generalizing s with
  | nil => simp
  | cons n t ih =>
      have fresh : n ∉ s := fun hn =>
        (List.nodup_append.1 h).2.2 n hn n (by simp) rfl
      have moved : (insert n s ++ t).Perm (s ++ n :: t) :=
        ((insert_perm fresh).append_right t).trans List.perm_middle.symm
      exact (ih (moved.nodup_iff.2 h)).trans moved

/-- Inserting new numbers divides them from those that were members before. -/
structure Extends (s : NodeSet) (ns : List Nat) (r : NodeSet × List Nat) : Prop where
  perm : r.1.Perm (r.2 ++ s)
  mem_new : ∀ n, n ∈ r.2 ↔ n ∈ ns ∧ n ∉ s
  nodup_new : r.2.Nodup

theorem insertNew_extends (s : NodeSet) (ns : List Nat) : Extends s ns (insertNew s ns) := by
  induction ns generalizing s with
  | nil => exact ⟨.refl _, by simp [insertNew], .nil⟩
  | cons n ns ih =>
      unfold insertNew
      split
      · rename_i present
        have hn : n ∈ s := by simpa using present
        obtain ⟨perm, mem, nodup⟩ := ih s
        refine ⟨perm, fun m => ?_, nodup⟩
        rw [mem, List.mem_cons]
        constructor
        · rintro ⟨hm, hs⟩
          exact ⟨.inr hm, hs⟩
        · rintro ⟨rfl | hm, hs⟩
          · exact absurd hn hs
          · exact ⟨hm, hs⟩
      · rename_i absent
        have hn : n ∉ s := by simpa using absent
        obtain ⟨perm, mem, nodup⟩ := ih (insert n s)
        refine ⟨?_, fun m => ?_, ?_⟩
        · exact perm.trans (((insert_perm hn).append_left _).trans List.perm_middle)
        · rw [List.mem_cons, mem, List.mem_cons, mem_insert]
          constructor
          · rintro (rfl | ⟨hm, hs⟩)
            · exact ⟨.inl rfl, hn⟩
            · exact ⟨.inr hm, fun h => hs (.inr h)⟩
          · rintro ⟨rfl | hm, hs⟩
            · exact .inl rfl
            · by_cases hmn : m = n
              · exact .inl hmn
              · exact .inr ⟨hm, fun h => h.elim hmn hs⟩
        · refine List.nodup_cons.2 ⟨fun hmem => ?_, nodup⟩
          exact ((mem n).1 hmem).2 (mem_insert.2 (.inl rfl))

end NodeSet

/-- A search that goes on with `next` and puts new nodes into the worklist by `join`. -/
def search (next : Nat → List Nat) (join : List Nat → List Nat → List Nat) :
    Nat → NodeSet → List Nat → List Nat
  | 0, _, _ => []
  | _ + 1, _, [] => []
  | fuel + 1, visited, x :: work =>
    let (visited, new) := NodeSet.insertNew visited (next x)
    x :: search next join fuel visited (join work new)

/-- From these nodes met and waiting on, the nodes `xs` are taken up one by one, and then none waits any more.
There is no bound on the steps. -/
inductive SearchMeets (next : Nat → List Nat) (join : List Nat → List Nat → List Nat) :
    NodeSet → List Nat → List Nat → Prop
  | done (visited : NodeSet) : SearchMeets next join visited [] []
  | take {visited : NodeSet} {x : Nat} {work xs : List Nat} :
      SearchMeets next join (NodeSet.insertNew visited (next x)).1
        (join work (NodeSet.insertNew visited (next x)).2) xs →
      SearchMeets next join visited (x :: work) (x :: xs)

/-- What holds between the steps of a search among the nodes below `bound`: a node that was met waits
in the worklist, or all that comes after it was met, too. -/
structure Searching (next : Nat → List Nat) (bound : Nat) (visited : NodeSet) (work : List Nat) :
    Prop where
  nodup : visited.Nodup
  work_nodup : work.Nodup
  work_visited : ∀ x ∈ work, x ∈ visited
  lt : ∀ x ∈ visited, x < bound
  closed : ∀ x ∈ visited, x ∉ work → ∀ y ∈ next x, y ∈ visited

section

variable {next : Nat → List Nat} {join : List Nat → List Nat → List Nat} {bound : Nat}
variable (joins : ∀ a b : List Nat, (a ++ b).Nodup → (join a b).Perm (a ++ b))
variable (within : ∀ x < bound, ∀ y ∈ next x, y < bound)

theorem Searching.apart {visited : NodeSet} {x : Nat} {work : List Nat}
    (h : Searching next bound visited (x :: work)) {r : NodeSet × List Nat}
    (hr : NodeSet.Extends visited (next x) r) : (work ++ r.2).Nodup := by
  refine List.nodup_append.2 ⟨(List.nodup_cons.1 h.work_nodup).2, hr.nodup_new, ?_⟩
  intro a ha b hb hab
  exact ((hr.mem_new b).1 hb).2 (hab ▸ h.work_visited a (by simp [ha]))

include joins in
theorem Searching.mem_join {visited : NodeSet} {x : Nat} {work : List Nat}
    (h : Searching next bound visited (x :: work)) {r : NodeSet × List Nat}
    (hr : NodeSet.Extends visited (next x) r) (y : Nat) :
    y ∈ join work r.2 ↔ y ∈ work ∨ y ∈ r.2 := by
  rw [(joins _ _ (h.apart hr)).mem_iff, List.mem_append]

include joins within in
/-- One step takes a node off the worklist and adds as many to it as were met for the first time. -/
theorem Searching.step {visited : NodeSet} {x : Nat} {work : List Nat}
    (h : Searching next bound visited (x :: work)) {r : NodeSet × List Nat}
    (hr : NodeSet.Extends visited (next x) r) :
    Searching next bound r.1 (join work r.2) ∧
      r.1.length + work.length = visited.length + (join work r.2).length := by
  have waits := h.mem_join joins hr
  have apart := h.apart hr
  have joined := joins work r.2 apart
  obtain ⟨perm, mem, nodup⟩ := hr
  have met : ∀ y, y ∈ r.1 ↔ y ∈ r.2 ∨ y ∈ visited := fun y => by
    rw [perm.mem_iff, List.mem_append]
  have hxv := h.work_visited x (by simp)
  refine ⟨⟨?_, joined.nodup_iff.2 apart, ?_, ?_, ?_⟩, ?_⟩
  · rw [perm.nodup_iff]
    refine List.nodup_append.2 ⟨nodup, h.nodup, fun a ha b hb hab => ?_⟩
    exact ((mem a).1 ha).2 (hab ▸ hb)
  · intro y hy
    rcases (waits y).1 hy with hy | hy
    · exact (met y).2 (.inr (h.work_visited y (by simp [hy])))
    · exact (met y).2 (.inl hy)
  · intro y hy
    rcases (met y).1 hy with hy | hy
    · exact within x (h.lt x hxv) y ((mem y).1 hy).1
    · exact h.lt y hy
  · intro y hy hw z hz
    have hy' : y ∈ visited := ((met y).1 hy).resolve_left fun hn => hw ((waits y).2 (.inr hn))
    by_cases hyx : y = x
    · by_cases hzv : z ∈ visited
      · exact (met z).2 (.inr hzv)
      · exact (met z).2 (.inl ((mem z).2 ⟨hyx ▸ hz, hzv⟩))
    · have old : y ∉ x :: work := fun hmem =>
        hw ((waits y).2 (.inl ((List.mem_cons.1 hmem).resolve_left hyx)))
      exact (met z).2 (.inr (h.closed y hy' old z hz))
  · rw [perm.length_eq, joined.length_eq, List.length_append, List.length_append]
    omega

include joins in
/-- What was met and does not wait is the same after a step, with the node that was taken up. -/
theorem Searching.met_iff {visited : NodeSet} {x : Nat} {work : List Nat}
    (h : Searching next bound visited (x :: work)) {r : NodeSet × List Nat}
    (hr : NodeSet.Extends visited (next x) r) (y : Nat) :
    y ∈ r.1 ∧ y ∉ join work r.2 ↔ y = x ∨ (y ∈ visited ∧ y ∉ x :: work) := by
  rw [h.mem_join joins hr, hr.perm.mem_iff, List.mem_append, List.mem_cons]
  have hx := h.work_visited x (by simp)
  have hxw := (List.nodup_cons.1 h.work_nodup).1
  have old : y ∈ visited → y ∉ r.2 := fun hy hn => ((hr.mem_new y).1 hn).2 hy
  constructor
  · rintro ⟨hy, hw⟩
    refine or_iff_not_imp_left.2 fun hyx => ⟨?_, ?_⟩
    · exact hy.resolve_left fun hn => hw (.inr hn)
    · exact fun hmem => hmem.elim hyx fun hmem => hw (.inl hmem)
  · rintro (rfl | ⟨hy, hw⟩)
    · exact ⟨.inr hx, fun hmem => hmem.elim hxw (old hx)⟩
    · exact ⟨.inr hy, fun hmem => hmem.elim (fun hm => hw (.inr hm)) (old hy)⟩

theorem Searching.length_le {visited : NodeSet} {work : List Nat}
    (h : Searching next bound visited work) : visited.length ≤ bound := by
  have sub : visited ⊆ List.range bound := fun x hx => List.mem_range.2 (h.lt x hx)
  simpa using (List.subperm_of_subset h.nodup sub).length_le

include joins within in
/-- A search with enough steps meets all that waits, and with a node all that comes after it, as far
as that was not met before. -/
theorem Searching.mem_search {fuel : Nat} {visited : NodeSet} {work : List Nat}
    (h : Searching next bound visited work)
    (enough : bound + work.length < fuel + visited.length) :
    (∀ x ∈ work, x ∈ search next join fuel visited work) ∧
      ∀ x, x ∈ search next join fuel visited work ∨ (x ∈ visited ∧ x ∉ work) → ∀ y ∈ next x,
        y ∈ search next join fuel visited work ∨ (y ∈ visited ∧ y ∉ work) := by
  induction fuel generalizing visited work with
  | zero =>
      have := h.length_le
      omega
  | succ fuel ih =>
      cases work with
      | nil =>
          refine ⟨by simp, ?_⟩
          rintro x (hx | ⟨hx, hw⟩) y hy
          · simp [search] at hx
          · exact .inr ⟨h.closed x hx hw y hy, by simp⟩
      | cons x work =>
          have hr := NodeSet.insertNew_extends visited (next x)
          obtain ⟨hstep, hlength⟩ := h.step joins within hr
          obtain ⟨meets, closes⟩ := ih hstep (by simp only [List.length_cons] at enough; omega)
          have same : ∀ y, y ∈ search next join (fuel + 1) visited (x :: work) ∨
              (y ∈ visited ∧ y ∉ x :: work) ↔
              y ∈ search next join fuel (NodeSet.insertNew visited (next x)).1
                (join work (NodeSet.insertNew visited (next x)).2) ∨
              (y ∈ (NodeSet.insertNew visited (next x)).1 ∧
                y ∉ join work (NodeSet.insertNew visited (next x)).2) := fun y => by
            rw [h.met_iff joins hr, search, List.mem_cons, or_assoc, or_left_comm]
          refine ⟨fun y hy => ?_, fun y hy z hz => (same z).2 (closes y ((same y).1 hy) z hz)⟩
          rw [search, List.mem_cons]
          rcases List.mem_cons.1 hy with rfl | hy
          · exact .inl rfl
          · exact .inr (meets y ((h.mem_join joins hr y).2 (.inl hy)))

include joins within in
/-- A search with enough steps comes to its end. -/
theorem Searching.meets {fuel : Nat} {visited : NodeSet} {work : List Nat}
    (h : Searching next bound visited work) (enough : bound + work.length < fuel + visited.length) :
    SearchMeets next join visited work (search next join fuel visited work) := by
  induction fuel generalizing visited work with
  | zero =>
      have := h.length_le
      omega
  | succ fuel ih =>
      cases work with
      | nil => exact .done visited
      | cons x work =>
          obtain ⟨hstep, hlength⟩ := h.step joins within (NodeSet.insertNew_extends visited (next x))
          exact .take (ih hstep (by simp only [List.length_cons] at enough; omega))

/-- At the start of a search all nodes that were met wait. -/
theorem Searching.start {visited : NodeSet} {work : List Nat} (start : visited.Perm work)
    (nodup : work.Nodup) (lt : ∀ x ∈ work, x < bound) : Searching next bound visited work :=
  ⟨start.nodup_iff.2 nodup, nodup, fun _ hy => start.mem_iff.2 hy,
    fun y hy => lt y (start.mem_iff.1 hy), fun _ hy hw => absurd (start.mem_iff.1 hy) hw⟩

include joins within in
/-- A search that starts with the nodes in its worklist meets all that can be reached from them. -/
theorem mem_search_of_reaches {fuel : Nat} {visited : NodeSet} {work : List Nat}
    (start : visited.Perm work) (nodup : work.Nodup) (lt : ∀ x ∈ work, x < bound)
    (enough : bound < fuel) {x y : Nat} (hx : x ∈ work)
    (path : Relation.ReflTransGen (fun a b => b ∈ next a) x y) :
    y ∈ search next join fuel visited work := by
  have first : Searching next bound visited work := .start start nodup lt
  have longer : bound + work.length < fuel + visited.length := by
    rw [start.length_eq]
    omega
  obtain ⟨meets, closes⟩ := first.mem_search joins within longer
  induction path with
  | refl => exact meets x hx
  | tail _ hstep ih =>
      refine (closes _ (.inl ih) _ hstep).resolve_right ?_
      rintro ⟨hy, hw⟩
      exact hw (start.mem_iff.1 hy)

end

/-- Whatever a search meets can be reached from what waited. -/
theorem reaches_of_mem_search {next : Nat → List Nat} {join : List Nat → List Nat → List Nat}
    (joins : ∀ a b : List Nat, ∀ x ∈ join a b, x ∈ a ∨ x ∈ b) {fuel : Nat} {visited : NodeSet} {work : List Nat}
    {y : Nat} (hy : y ∈ search next join fuel visited work) :
    ∃ x ∈ work, Relation.ReflTransGen (fun a b => b ∈ next a) x y := by
  induction fuel generalizing visited work with
  | zero => cases hy
  | succ fuel ih =>
      cases work with
      | nil => cases hy
      | cons x work =>
          rw [search] at hy
          rcases List.mem_cons.1 hy with rfl | hy
          · exact ⟨y, by simp, .refl⟩
          · obtain ⟨z, hz, path⟩ := ih hy
            rcases joins _ _ z hz with hz | hz
            · exact ⟨z, by simp [hz], path⟩
            · have comes := (((NodeSet.insertNew_extends visited (next x)).mem_new z).1 hz).1
              exact ⟨x, by simp, .head comes path⟩

/-- A node that is met did not wait at first only if it comes after one that was met before. -/
theorem exists_before_of_search {next : Nat → List Nat} {join : List Nat → List Nat → List Nat}
    (joins : ∀ a b : List Nat, ∀ x ∈ join a b, x ∈ a ∨ x ∈ b) {fuel : Nat} {visited : NodeSet}
    {work pre post : List Nat} {y : Nat} (met : search next join fuel visited work = pre ++ y :: post) :
    y ∈ work ∨ ∃ x ∈ pre, y ∈ next x := by
  induction fuel generalizing visited work pre with
  | zero => simp [search] at met
  | succ fuel ih =>
      cases work with
      | nil => simp [search] at met
      | cons x work =>
          have met : x :: search next join fuel (NodeSet.insertNew visited (next x)).1
              (join work (NodeSet.insertNew visited (next x)).2) = pre ++ y :: post := met
          cases pre with
          | nil =>
              obtain ⟨rfl, -⟩ := List.cons.inj met
              exact .inl List.mem_cons_self
          | cons x' pre =>
              obtain ⟨rfl, rest⟩ := List.cons.inj met
              rcases ih rest with waits | ⟨z, hz, hy⟩
              · refine (joins _ _ y waits).imp (List.mem_cons_of_mem _) fun new => ?_
                exact ⟨x, List.mem_cons_self, (((NodeSet.insertNew_extends visited (next x)).mem_new y).1 new).1⟩
              · exact .inr ⟨z, List.mem_cons_of_mem _ hz, hy⟩

section Distance

variable {α : Type} {r : α → α → Prop} {a b c : α} {n : Nat}

/-- A path of a given length. -/
inductive Steps (r : α → α → Prop) : Nat → α → α → Prop
  | refl (a : α) : Steps r 0 a a
  | head {a b c : α} {n : Nat} : r a b → Steps r n b c → Steps r (n + 1) a c

/-- The length of a shortest path. -/
noncomputable def distance (r : α → α → Prop) (a b : α) : Nat := sInf {n | Steps r n a b}

theorem Steps.distance_le (h : Steps r n a b) : distance r a b ≤ n := Nat.sInf_le h

theorem Steps.reaches (h : Steps r n a b) : Relation.ReflTransGen r a b := by
  induction h with
  | refl => exact .refl
  | head edge _ ih => exact .head edge ih

theorem steps_distance (h : Relation.ReflTransGen r a b) : Steps r (distance r a b) a b := by
  have nonempty : {n | Steps r n a b}.Nonempty := by
    induction h using Relation.ReflTransGen.head_induction_on with
    | refl => exact ⟨0, .refl b⟩
    | head edge _ ih =>
        obtain ⟨n, path⟩ := ih
        exact ⟨n + 1, .head edge path⟩
  exact Nat.sInf_mem nonempty

theorem distance_le_succ (edge : r a b) (path : Relation.ReflTransGen r b c) :
    distance r a c ≤ distance r b c + 1 :=
  (Steps.head edge (steps_distance path)).distance_le

/-- A shortest path goes on along a shortest path. -/
theorem exists_next_of_distance (path : Relation.ReflTransGen r a c) (away : distance r a c ≠ 0) :
    ∃ b, r a b ∧ Relation.ReflTransGen r b c ∧ distance r a c = distance r b c + 1 := by
  obtain ⟨n, hn⟩ := Nat.exists_eq_succ_of_ne_zero away
  have shortest := steps_distance path
  rw [hn] at shortest
  cases shortest with
  | head edge rest =>
      refine ⟨_, edge, rest.reaches, ?_⟩
      have := rest.distance_le
      have := distance_le_succ edge rest.reaches
      omega

end Distance

/-- The levels of the nodes that a search can reach: what comes after a node is one level further at
most, and a node that is not at level zero comes after one of the level before. -/
structure Levels (next : Nat → List Nat) (level : Nat → Nat) (reached : Nat → Prop) : Prop where
  after : ∀ x, reached x → ∀ y ∈ next x, reached y ∧ level y ≤ level x + 1
  before : ∀ y, reached y → level y ≠ 0 → ∃ x, reached x ∧ y ∈ next x ∧ level y = level x + 1

/-- What holds between the steps of a search that puts new nodes last: the nodes wait in the order of
their levels, none that was met is more than one level after the first of them, and none that was not
met is as near as that. -/
structure Layered (level : Nat → Nat) (reached : Nat → Prop) (visited : NodeSet) (work : List Nat) :
    Prop where
  met : ∀ x ∈ visited, reached x
  sorted : work.Pairwise fun x y => level x ≤ level y
  near : ∀ x rest, work = x :: rest → ∀ y ∈ visited, level y ≤ level x + 1
  far : ∀ x rest, work = x :: rest → ∀ y, reached y → y ∉ visited → level x < level y

section Order

variable {next : Nat → List Nat} {join : List Nat → List Nat → List Nat} {bound fuel : Nat}
  {level : Nat → Nat} {reached : Nat → Prop} {visited : NodeSet} {work : List Nat} {x : Nat}
variable (within : ∀ x < bound, ∀ y ∈ next x, y < bound)

theorem Layered.step (levels : Levels next level reached) (h : Layered level reached visited (x :: work))
    (hx : x ∈ visited) {r : NodeSet × List Nat} (hr : NodeSet.Extends visited (next x) r)
    (goes : Searching next bound r.1 (work ++ r.2)) :
    Layered level reached r.1 (work ++ r.2) ∧ ∀ y ∈ work ++ r.2, level x ≤ level y := by
  have met : ∀ y, y ∈ r.1 ↔ y ∈ r.2 ∨ y ∈ visited := fun y => by
    rw [hr.perm.mem_iff, List.mem_append]
  obtain ⟨ahead, sorted⟩ := List.pairwise_cons.1 h.sorted
  -- The new nodes are exactly one level after the one that was taken up.
  have new : ∀ y ∈ r.2, reached y ∧ level y = level x + 1 := by
    intro y hy
    obtain ⟨comes, unmet⟩ := (hr.mem_new y).1 hy
    obtain ⟨hyr, le⟩ := levels.after x (h.met x hx) y comes
    have := h.far x work rfl y hyr unmet
    exact ⟨hyr, by omega⟩
  have near : ∀ y ∈ r.1, level y ≤ level x + 1 := by
    intro y hy
    rcases (met y).1 hy with hy | hy
    · exact (new y hy).2.le
    · exact h.near x work rfl y hy
  have waiting : ∀ y ∈ work ++ r.2, level x ≤ level y ∧ level y ≤ level x + 1 := by
    intro y hy
    refine ⟨?_, near y (goes.work_visited y hy)⟩
    rcases List.mem_append.1 hy with hy | hy
    · exact ahead y hy
    · exact (new y hy).2 ▸ Nat.le_succ _
  have sorted' : (work ++ r.2).Pairwise fun x y => level x ≤ level y := by
    refine List.pairwise_append.2 ⟨sorted, List.pairwise_of_forall_mem_list ?_, ?_⟩
    · intro y hy z hz
      rw [(new y hy).2, (new z hz).2]
    · intro y hy z hz
      rw [(new z hz).2]
      exact (waiting y (List.mem_append_left _ hy)).2
  refine ⟨⟨?_, sorted', ?_, ?_⟩, fun y hy => (waiting y hy).1⟩
  · intro y hy
    rcases (met y).1 hy with hy | hy
    · exact (new y hy).1
    · exact h.met y hy
  · intro z rest hrest y hy
    have := waiting z (hrest ▸ List.mem_cons_self)
    have := near y hy
    omega
  · intro z rest hrest y hyr unmet
    have unseen : ∀ w, reached w → w ∉ r.1 → level x < level w := fun w hwr hw =>
      h.far x work rfl w hwr fun hv => hw ((met w).2 (.inr hv))
    by_contra close
    have hz := waiting z (hrest ▸ List.mem_cons_self)
    have hy := unseen y hyr unmet
    -- The node comes after one of the level of `x`, and all of these were taken up.
    obtain ⟨w, hwr, comes, one⟩ := levels.before y hyr (by omega)
    have hw : w ∈ r.1 := by
      by_contra hw
      have := unseen w hwr hw
      omega
    refine unmet (goes.closed w hw (fun waits => ?_) y comes)
    have first : level z ≤ level w := by
      rw [hrest] at waits sorted'
      rcases List.mem_cons.1 waits with rfl | waits
      · exact le_rfl
      · exact (List.pairwise_cons.1 sorted').1 w waits
    omega

include within in
/-- A search that puts new nodes last takes them up in the order of their levels. -/
theorem Layered.search (levels : Levels next level reached) (h : Layered level reached visited work)
    (goes : Searching next bound visited work) :
    (search next (· ++ ·) fuel visited work).Pairwise (fun x y => level x ≤ level y) ∧
      ∀ y ∈ search next (· ++ ·) fuel visited work, ∃ x ∈ work, level x ≤ level y := by
  induction fuel generalizing visited work with
  | zero => exact ⟨.nil, by simp [DeltaSlice.search]⟩
  | succ fuel ih =>
      cases work with
      | nil => exact ⟨.nil, by simp [DeltaSlice.search]⟩
      | cons x work =>
          have hr := NodeSet.insertNew_extends visited (next x)
          have goes' := (goes.step (fun a b _ => List.Perm.refl (a ++ b)) within hr).1
          obtain ⟨h', ahead⟩ := h.step levels (goes.work_visited x (by simp)) hr goes'
          obtain ⟨sorted, first⟩ := ih h' goes'
          have later : ∀ y ∈ DeltaSlice.search next (· ++ ·) fuel (NodeSet.insertNew visited (next x)).1
              (work ++ (NodeSet.insertNew visited (next x)).2), level x ≤ level y := by
            intro y hy
            obtain ⟨z, hz, le⟩ := first y hy
            exact (ahead z hz).trans le
          refine ⟨List.pairwise_cons.2 ⟨later, sorted⟩, fun y hy => ⟨x, List.mem_cons_self, ?_⟩⟩
          rcases List.mem_cons.1 hy with rfl | hy
          · exact le_rfl
          · exact later y hy

include within in
/-- No node is taken up twice, and none that does not wait and was met before. -/
theorem Searching.nodup_search (joins : ∀ a b : List Nat, (a ++ b).Nodup → (join a b).Perm (a ++ b))
    (h : Searching next bound visited work) :
    (search next join fuel visited work).Nodup ∧
      ∀ y ∈ search next join fuel visited work, y ∈ work ∨ y ∉ visited := by
  induction fuel generalizing visited work with
  | zero => exact ⟨.nil, by simp [search]⟩
  | succ fuel ih =>
      cases work with
      | nil => exact ⟨.nil, by simp [search]⟩
      | cons x work =>
          have hr := NodeSet.insertNew_extends visited (next x)
          obtain ⟨nodup, fresh⟩ := ih (h.step joins within hr).1
          have met : ∀ y ∈ search next join fuel (NodeSet.insertNew visited (next x)).1
              (join work (NodeSet.insertNew visited (next x)).2), ¬ (y = x ∨ y ∈ visited ∧ y ∉ x :: work) := by
            intro y hy known
            obtain ⟨hv, hw⟩ := (h.met_iff joins hr y).2 known
            exact (fresh y hy).elim hw (· hv)
          refine ⟨List.nodup_cons.2 ⟨fun hx => met x hx (.inl rfl), nodup⟩, fun y hy => ?_⟩
          rcases List.mem_cons.1 hy with rfl | hy
          · exact .inl List.mem_cons_self
          · by_contra known
            obtain ⟨hw, hv⟩ := not_or.1 known
            exact met y hy (.inr ⟨not_not.1 hv, hw⟩)

end Order

end DeltaSlice
