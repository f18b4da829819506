import DeltaSlice.Proofs.Exploration.Workers
import Mathlib.Data.Set.Function
import Mathlib.Order.Interval.Set.Defs

/-!
The order of work does not matter. When the transitions from a state depend on its key only, what a
completed exploration recorded is determined by the states that can be reached: their keys, the
transitions between them, and the failures of the steps that were skipped. Completed explorations differ
in their numbers only.
-/

namespace DeltaSlice

open Interleaving Simulator

/-- The same ends, with the same learned on the way, and the same failures. -/
structure SameFindings (f g : Successors) : Prop where
  transitions : ∀ k i, (∃ t ∈ f.transitions, t.state.key = k ∧ t.info.key = i) ↔
    ∃ t ∈ g.transitions, t.state.key = k ∧ t.info.key = i
  failures : f.failures.Perm g.failures

/-- What leaves a state that can be reached depends on its key only. -/
def Simulator.KeyedBy (s : Simulator) (first : State) : Prop :=
  ∀ a b f, s.Reachable first a → s.Reachable first b → a.key = b.key →
    (s.successors a).result = .ok f → ∃ g, (s.successors b).result = .ok g ∧ SameFindings f g

/-- A transition that leaves a state that can be reached. -/
def Simulator.Leaves (s : Simulator) (first : State) (a : Label) : Prop :=
  ∃ st found t, s.Reachable first st ∧ (s.successors st).result = .ok found ∧
    t ∈ found.transitions ∧ a = .step st t

/-- A record of all states that can be reached, each once, with one node for the way into the first one
and one for every combination of keys of a transition, linked where transitions meet. -/
structure Interleaving.Complete (s : Simulator) (first : State) (r : Interleaving) : Prop where
  nodup_keys : r.keys.Nodup
  mem_keys : ∀ k, k ∈ r.keys ↔ ∃ st, s.Reachable first st ∧ st.key = k
  nodup_labels : r.labels.Nodup
  mem_labels : ∀ a, a ∈ r.labels ↔ a = .entry first ∨ s.Leaves first a
  succs : ∀ n m, m ∈ r.succs n ↔ r.Meets n m
  preds : ∀ n m, n ∈ r.preds m ↔ r.Meets n m

/-- `f` takes the numbers of the nodes of one record to those of another, with their labels and links. -/
structure Interleaving.Renumbers (r r' : Interleaving) (f : Nat → Nat) : Prop where
  bijective : Set.BijOn f (Set.Iio r.size) (Set.Iio r'.size)
  label : ∀ n < r.size, r'.labels[f n]? = r.labels[n]?
  link : ∀ n < r.size, ∀ m < r.size, m ∈ r.succs n ↔ f m ∈ r'.succs (f n)

section Lists

variable {α β γ : Type} {f : α → List β} {key : α → γ}

theorem perm_flatMap_of_keys {l l' : List α} (keys : (l.map key).Perm (l'.map key))
    (same : ∀ a ∈ l, ∀ b ∈ l', key a = key b → (f a).Perm (f b)) :
    (l.flatMap f).Perm (l'.flatMap f) := by
  induction l generalizing l' with
  | nil =>
      obtain rfl : l' = [] := by simpa using keys
      exact .refl _
  | cons a l ih =>
      obtain ⟨b, hb, hkey⟩ := List.mem_map.1 (keys.mem_iff.1 (List.mem_cons_self : key a ∈ _))
      obtain ⟨pre, post, rfl⟩ := List.append_of_mem hb
      have rest : (l.map key).Perm ((pre ++ post).map key) := by
        have moved := keys.trans ((List.perm_middle (a := b)).map key)
        rw [List.map_cons, List.map_cons, hkey] at moved
        exact moved.cons_inv
      have tail := ih rest fun x hx y hy => same x (List.mem_cons_of_mem _ hx) y (by
        rcases List.mem_append.1 hy with hy | hy <;> simp [hy])
      have head := same a List.mem_cons_self b hb hkey.symm
      exact (head.append tail).trans ((List.perm_middle (a := b)).flatMap_right f).symm

end Lists

namespace Schedule

variable {s : Simulator} {first st : State} {l l' : List State} {w w' : Work}

/-- All transitions of a state that was taken up are recorded in the end. -/
theorem recorded_step (h : Schedule s first l w) (done : w.Done) {a : State} (ha : a ∈ l)
    {found : Successors} (hfound : (s.successors a).result = .ok found) {t : Transition}
    (ht : t ∈ found.transitions) : .step a t ∈ w.record.labels := by
  obtain ⟨found', hfound', all⟩ := h.accounts.expanded a ha
  obtain rfl : found = found' := by
    rw [hfound] at hfound'
    exact Except.ok.inj hfound'
  rcases all t ht with recorded | ⟨e, he, -⟩
  · exact recorded
  · rw [done.2] at he
    cases he

/-- Every state that can be reached was taken up, or one with the same key. -/
theorem exists_taken (h : Schedule s first l w) (done : w.Done) (keyed : s.KeyedBy first)
    (hst : s.Reachable first st) : ∃ a ∈ l, s.Reachable first a ∧ a.key = st.key := by
  have accounts := h.accounts
  have taken : ∀ k ∈ w.record.keys, ∃ a ∈ l, s.Reachable first a ∧ a.key = k := by
    intro k hk
    have := accounts.keys.mem_iff.1 hk
    rw [done.1, List.append_nil] at this
    obtain ⟨a, ha, hkey⟩ := List.mem_map.1 this
    exact ⟨a, ha, accounts.reachable a (List.mem_append_left _ ha), hkey⟩
  induction hst with
  | start => exact taken _ (accounts.orderly.target_mem accounts.entry)
  | @step st found t hst hfound ht ih =>
      obtain ⟨a, ha, reached, hkey⟩ := ih
      obtain ⟨g, hg, same⟩ := keyed st a found hst reached hkey.symm hfound
      obtain ⟨u, hu, hends, -⟩ := (same.transitions _ _).1 ⟨t, ht, rfl, rfl⟩
      have recorded := h.recorded_step done ha hg hu
      exact hends ▸ taken _ (accounts.orderly.target_mem recorded)

/-- What a completed schedule recorded. -/
theorem complete (h : Schedule s first l w) (done : w.Done) (keyed : s.KeyedBy first) :
    w.record.Complete s first where
  nodup_keys := h.accounts.orderly.keys
  mem_keys k := by
    constructor
    · intro hk
      have := h.accounts.keys.mem_iff.1 hk
      obtain ⟨a, ha, hkey⟩ := List.mem_map.1 this
      exact ⟨a, h.accounts.reachable a ha, hkey⟩
    · rintro ⟨st, hst, rfl⟩
      obtain ⟨a, ha, -, hkey⟩ := h.exists_taken done keyed hst
      rw [← hkey]
      exact h.accounts.keys.mem_iff.2 (List.mem_map_of_mem (List.mem_append_left _ ha))
  nodup_labels := h.accounts.orderly.labels
  mem_labels a := by
    constructor
    · intro ha
      refine (h.accounts.labels a ha).imp_right fun step => ?_
      obtain ⟨st, hst, found, hfound, t, ht, rfl⟩ := step
      exact ⟨st, found, t, h.accounts.reachable st (List.mem_append_left _ hst), hfound, ht, rfl⟩
    · rintro (rfl | ⟨st, found, t, hst, hfound, ht, rfl⟩)
      · exact h.accounts.entry
      · obtain ⟨b, hb, reached, hkey⟩ := h.exists_taken done keyed hst
        obtain ⟨g, hg, same⟩ := keyed st b found hst reached hkey.symm hfound
        obtain ⟨u, hu, hends, hinfo⟩ := (same.transitions _ _).1 ⟨t, ht, rfl, rfl⟩
        have recorded := h.recorded_step done hb hg hu
        rwa [Label.step, hkey, hends, hinfo] at recorded
  succs n m := h.accounts.orderly.linked.follows_iff
  preds n m := h.accounts.orderly.linked.mem_preds

/-- Completed schedules skipped the same steps. -/
theorem perm_incomplete (h : Schedule s first l w) (h' : Schedule s first l' w') (done : w.Done)
    (done' : w'.Done) (keyed : s.KeyedBy first) : w.incomplete.Perm w'.incomplete := by
  have keys : ∀ {l w}, Schedule s first l w → w.Done → w.record.keys.Perm (l.map State.key) := by
    intro l w h done
    simpa [done.1] using h.accounts.keys
  have same : w.record.keys.Perm w'.record.keys := by
    refine (List.perm_ext_iff_of_nodup (h.complete done keyed).nodup_keys
      (h'.complete done' keyed).nodup_keys).2 fun k => ?_
    rw [(h.complete done keyed).mem_keys, (h'.complete done' keyed).mem_keys]
  rw [h.accounts.incomplete, h'.accounts.incomplete]
  refine perm_flatMap_of_keys (((keys h done).symm.trans same).trans (keys h' done')) ?_
  intro a ha b hb hkey
  obtain ⟨f, hf, -⟩ := h.accounts.expanded a ha
  obtain ⟨g, hg, alike⟩ := keyed a b f (h.accounts.reachable a (List.mem_append_left _ ha))
    (h'.accounts.reachable b (List.mem_append_left _ hb)) hkey hf
  simpa [failuresAt, hf, hg, Except.toOption] using alike.failures

end Schedule

namespace Interleaving

variable {r r' : Interleaving}

/-- Records with the same labels differ in their numbers only. -/
theorem Orderly.exists_renumbers (h : r.Orderly) (h' : r'.Orderly)
    (same : ∀ a, a ∈ r.labels ↔ a ∈ r'.labels) : ∃ f, r.Renumbers r' f := by
  have place : ∀ n, ∃ m, n < r.size → m < r'.size ∧ r'.labels[m]? = r.labels[n]? := by
    intro n
    by_cases lt : n < r.size
    · rw [← length_labels] at lt
      obtain ⟨m, hm, heq⟩ := List.mem_iff_getElem.1 ((same _).1 (List.getElem_mem lt))
      refine ⟨m, fun _ => ⟨length_labels ▸ hm, ?_⟩⟩
      rw [List.getElem?_eq_getElem hm, List.getElem?_eq_getElem lt, heq]
    · exact ⟨0, fun absurd => (lt absurd).elim⟩
  choose f hf using place
  have inj : ∀ {r : Interleaving}, r.labels.Nodup → ∀ {n m}, n < r.size → r.labels[n]? = r.labels[m]? →
      n = m :=
    fun nodup _ _ lt => (List.getElem?_inj (length_labels ▸ lt) nodup).1
  refine ⟨f, ⟨fun n hn => (hf n hn).1, ?_, ?_⟩, fun n hn => (hf n hn).2, ?_⟩
  · intro n hn m hm heq
    refine inj h.labels hn ?_
    rw [← (hf n hn).2, ← (hf m hm).2, heq]
  · intro m hm
    have lt : m < r'.labels.length := length_labels ▸ hm
    obtain ⟨n, hn, heq⟩ := List.mem_iff_getElem.1 ((same _).2 (List.getElem_mem lt))
    refine ⟨n, length_labels ▸ hn, ?_⟩
    refine inj h'.labels (hf n (length_labels ▸ hn)).1 ?_
    rw [(hf n (length_labels ▸ hn)).2, List.getElem?_eq_getElem lt, List.getElem?_eq_getElem hn, heq]
  · intro n hn m hm
    have before : m ∈ r.succs n ↔ r.Meets n m := h.linked.follows_iff
    have after : f m ∈ r'.succs (f n) ↔ r'.Meets (f n) (f m) := h'.linked.follows_iff
    rw [before, after, h.meets_iff, h'.meets_iff, (hf n hn).2, (hf m hm).2]

end Interleaving

/-- However states are taken up and transitions are recorded: a completed exploration has recorded all
states that can be reached and all transitions between them, and two of them skipped the same steps and
differ in their numbers only. Explorations without a bound are completed, in order or by workers. -/
theorem explorations_agree {s : Simulator} {first : State} (keyed : s.KeyedBy first) :
    (∀ l w, Schedule s first l w → w.Done → w.record.Complete s first) ∧
    (∀ l w l' w', Schedule s first l w → w.Done → Schedule s first l' w' → w'.Done →
      w.incomplete.Perm w'.incomplete ∧ ∃ f, w.record.Renumbers w'.record f) ∧
    (∀ b l e, b.maxStates ≤ 0 → s.Ends b first l e →
      ∃ w, Schedule s first l w ∧ w.Done ∧ w.record = e.record ∧ w.incomplete = e.incomplete) ∧
    ∀ b b' canceled canceled' e e', b.maxStates ≤ 0 → b'.maxStates ≤ 0 → s.initial = .ok first →
      (s.explore b canceled).result = .ok e → (s.explore b' canceled').result = .ok e' →
      e.incomplete.Perm e'.incomplete ∧ ∃ f, e.record.Renumbers e'.record f := by
  have agree : ∀ {l w l' w'}, Schedule s first l w → w.Done → Schedule s first l' w' → w'.Done →
      w.incomplete.Perm w'.incomplete ∧ ∃ f, w.record.Renumbers w'.record f := by
    intro l w l' w' h done h' done'
    refine ⟨h.perm_incomplete h' done done' keyed, ?_⟩
    refine h.accounts.orderly.exists_renumbers h'.accounts.orderly fun a => ?_
    rw [(h.complete done keyed).mem_labels, (h'.complete done' keyed).mem_labels]
  refine ⟨fun l w h done => h.complete done keyed, fun _ _ _ _ => agree,
    fun b l e unbounded h => h.schedule unbounded, ?_⟩
  intro b b' canceled canceled' e e' unbounded unbounded' hfirst h h'
  obtain ⟨l, ends⟩ := ends_of_explore hfirst h
  obtain ⟨l', ends'⟩ := ends_of_explore hfirst h'
  obtain ⟨w, schedule, done, hr, hi⟩ := ends.schedule unbounded
  obtain ⟨w', schedule', done', hr', hi'⟩ := ends'.schedule unbounded'
  rw [← hr, ← hr', ← hi, ← hi']
  exact agree schedule done schedule' done'

namespace Examples

/-- All sequences of transitions from some states, as long as they are few: the states that they lead
to, each with what leaves it. -/
def unroll (s : Simulator) : Nat → List State → Option (List (State × Successors))
  | 0, _ => none
  | _, [] => some []
  | n + 1, st :: rest =>
    match (s.successors st).result with
    | .ok found => (unroll s n (found.transitions.map (·.state) ++ rest)).map ((st, found) :: ·)
    | .error _ => none

/-- The keys of what leaves a state, provided that no step fails. -/
def outcome (found : Successors) : Option (List (String × String)) :=
  if found.failures.isEmpty then some (found.transitions.map fun t => (t.state.key, t.info.key))
  else none

theorem mem_unroll {s : Simulator} {n : Nat} {sts : List State} {l : List (State × Successors)}
    (h : unroll s n sts = some l) : (∀ st ∈ sts, ∃ x ∈ l, x.1 = st) ∧
      ∀ x ∈ l, (s.successors x.1).result = .ok x.2 ∧
        ∀ t ∈ x.2.transitions, ∃ y ∈ l, y.1 = t.state := by
  induction n generalizing sts l with
  | zero => cases h
  | succ n ih =>
      cases sts with
      | nil =>
          obtain rfl := Option.some.inj h
          simp
      | cons st rest =>
          unfold unroll at h
          split at h
          · rename_i found hfound
            obtain ⟨tail, htail, rfl⟩ := Option.map_eq_some_iff.1 h
            obtain ⟨covered, closed⟩ := ih htail
            have later : ∀ a, (∃ x ∈ tail, x.1 = a) → ∃ x ∈ (st, found) :: tail, x.1 = a := by
              rintro a ⟨x, hx, rfl⟩
              exact ⟨x, List.mem_cons_of_mem _ hx, rfl⟩
            refine ⟨?_, ?_⟩
            · intro a ha
              rcases List.mem_cons.1 ha with rfl | ha
              · exact ⟨_, List.mem_cons_self, rfl⟩
              · exact later a (covered a (List.mem_append_right _ ha))
            · intro x hx
              rcases List.mem_cons.1 hx with rfl | hx
              · refine ⟨hfound, fun t ht => later _ (covered _ ?_)⟩
                exact List.mem_append_left _ (List.mem_map_of_mem ht)
              · exact ⟨(closed x hx).1, fun t ht => later _ ((closed x hx).2 t ht)⟩
          · cases h

/-- When the outcomes of states with one key are the same, what leaves a state depends on its key. -/
theorem keyedBy_of_unroll {s : Simulator} {first : State} {n : Nat} {l : List (State × Successors)}
    (h : unroll s n [first] = some l)
    (same : ∀ x ∈ l, ∀ y ∈ l, x.1.key = y.1.key →
      (outcome x.2).isSome ∧ outcome x.2 = outcome y.2) : s.KeyedBy first := by
  obtain ⟨covered, closed⟩ := mem_unroll h
  have reached : ∀ {a}, s.Reachable first a → ∃ x ∈ l, x.1 = a := by
    intro a ha
    induction ha with
    | start => exact covered first (List.mem_singleton.2 rfl)
    | @step st found t _ hfound ht ih =>
        obtain ⟨x, hx, rfl⟩ := ih
        obtain ⟨result, next⟩ := closed x hx
        obtain rfl : x.2 = found := by
          rw [result] at hfound
          exact Except.ok.inj hfound
        exact next t ht
  intro a b f ha hb hkey hf
  obtain ⟨x, hx, rfl⟩ := reached ha
  obtain ⟨y, hy, rfl⟩ := reached hb
  obtain ⟨some, heq⟩ := same x hx y hy hkey
  obtain rfl : x.2 = f := by
    rw [(closed x hx).1] at hf
    exact Except.ok.inj hf
  have clean : ∀ {g}, (outcome g).isSome = true → g.failures = [] ∧
      outcome g = Option.some (g.transitions.map fun t => (t.state.key, t.info.key)) := by
    intro g hg
    unfold outcome at hg ⊢
    split
    · rename_i empty
      exact ⟨List.isEmpty_iff.1 empty, rfl⟩
    · rename_i failures
      simp [failures] at hg
  obtain ⟨none, hx'⟩ := clean some
  obtain ⟨none', hy'⟩ := clean (heq ▸ some)
  have lists := Option.some.inj (hx'.symm.trans (heq.trans hy'))
  refine ⟨y.2, (closed y hy).1, fun k i => ?_, by rw [none, none']⟩
  have members : ∀ g : Successors, (∃ t ∈ g.transitions, t.state.key = k ∧ t.info.key = i) ↔
      (k, i) ∈ g.transitions.map fun t => (t.state.key, t.info.key) := by
    intro g
    simp
  rw [members, members, lists]

/-- No bound on the states, and the given number of workers. -/
def unbounded (threads : Int) : Bounds := ⟨threads, 0, .skip⟩

/-- Whether states with one key have one outcome, without a failure. -/
def consistent (l : List (State × Successors)) : Bool :=
  l.all fun x => l.all fun y =>
    x.1.key ≠ y.1.key || (outcome x.2).isSome && outcome x.2 = outcome y.2

end Examples

open Examples in
/-- The idle threads end in either order, which is one state in the end. -/
theorem explorations_agree_race : ∃ first e e', race.KeyedBy first ∧ race.initial = .ok first ∧
    (race.explore (unbounded 1) false).result = .ok e ∧
    (race.explore (unbounded 2) false).result = .ok e' ∧ e.record.keys.length = 8 ∧
    e.record.size = 9 ∧ e.incomplete.Perm e'.incomplete ∧ ∃ f, e.record.Renumbers e'.record f := by
  obtain ⟨first, hfirst, few⟩ := Success.exists_of_yields (x := race.initial)
    (c := fun first => (unroll race 20 [first]).any consistent) (by decide +kernel)
  obtain ⟨l, hl, same⟩ := (Option.any_eq_true ..).1 few
  have keyed : race.KeyedBy first := by
    refine keyedBy_of_unroll hl fun x hx y hy hkey => ?_
    have pair := List.all_eq_true.1 (List.all_eq_true.1 same x hx) y hy
    simpa [hkey] using pair
  obtain ⟨e, he, sizes⟩ := Success.exists_of_yields (x := (race.explore (unbounded 1) false).result)
    (c := fun e => e.record.keys.length = 8 && e.record.size = 9) (by decide +kernel)
  obtain ⟨e', he', -⟩ := Success.exists_of_yields (x := (race.explore (unbounded 2) false).result)
    (c := fun _ => true) (by decide +kernel)
  simp only [Bool.and_eq_true, decide_eq_true_eq] at sizes
  obtain ⟨-, -, -, agree⟩ := explorations_agree keyed
  exact ⟨first, e, e', keyed, hfirst, he, he', sizes.1, sizes.2,
    agree (unbounded 1) (unbounded 2) false false e e' (by decide) (by decide) hfirst he he'⟩

end DeltaSlice
