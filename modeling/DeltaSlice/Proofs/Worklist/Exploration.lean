import DeltaSlice.Proofs.Step.Observed
import DeltaSlice.Proofs.Worklist.Walk

/-!
What a finished run of code has explored. The worklist merges branches, drops those that come back
with nothing new and reports only what ended; the invariant relates the branches taken up so far, the
pending ones and the points seen. It is stated for any order of informations under which composition
gives upper bounds, so that it serves every kind of information.
-/

namespace DeltaSlice

namespace Queue

/-- Composing into a list of entries changes the first entry of the key. -/
theorem composeAt_cases {key : String} {i : Info} {l l' : List (String × Transition)}
    (h : composeAt key i l = .ok l') (present : l.any (·.1 = key) = true) :
    ∃ pre e post j, l = pre ++ e :: post ∧ e.1 = key ∧ e.2.info.compose i = .ok j ∧
      l' = pre ++ (e.1, { e.2 with info := j }) :: post := by
  induction l generalizing l' with
  | nil => simp at present
  | cons e l ih =>
      unfold composeAt at h
      split at h
      · rename_i hk
        obtain ⟨j, hj, rfl⟩ := Success.map_iff.1 h
        exact ⟨[], e, l, j, rfl, hk, hj, rfl⟩
      · rename_i hk
        obtain ⟨m, hm, rfl⟩ := Success.map_iff.1 h
        have present' : l.any (·.1 = key) = true := by simpa [hk] using present
        obtain ⟨pre, x, post, j, rfl, hx, hj, rfl⟩ := ih hm present'
        exact ⟨e :: pre, x, post, j, rfl, hx, hj, rfl⟩

/-- Adding a transition appends it, or composes its information into the entry of its key. -/
theorem add_cases {q q' : Queue} {t : Transition} (h : q.add t = .ok q') :
    (t.state.key ∉ q.entries.map (·.1) ∧ q'.entries = q.entries ++ [(t.state.key, t)]) ∨
    ∃ pre e post i, q.entries = pre ++ e :: post ∧ e.1 = t.state.key ∧
      e.2.info.compose t.info = .ok i ∧
      q'.entries = pre ++ (e.1, { e.2 with info := i }) :: post := by
  simp only [add] at h
  split at h
  · rename_i present
    obtain ⟨l, hl, rfl⟩ := Success.map_iff.1 h
    exact .inr (composeAt_cases hl present)
  · rename_i absent
    injection h with h
    refine .inl ⟨?_, by rw [← h]⟩
    intro hmem
    obtain ⟨e, he, hk⟩ := List.mem_map.1 hmem
    exact absent (List.any_eq_true.2 ⟨e, he, by simpa using hk⟩)

theorem add_nodup {q q' : Queue} {t : Transition} (h : q.add t = .ok q')
    (nodup : (q.entries.map (·.1)).Nodup) : (q'.entries.map (·.1)).Nodup := by
  obtain ⟨hnew, he⟩ | ⟨pre, e, post, i, hq, -, -, he⟩ := add_cases h
  · rw [he, List.map_append, List.map_singleton]
    refine List.nodup_append.2 ⟨nodup, by simp, ?_⟩
    intro k hk k' hk' heq
    have hk' : k' = t.state.key := List.mem_singleton.1 hk'
    exact hnew (by rw [← hk', ← heq]; exact hk)
  · rw [he]
    rw [hq] at nodup
    simpa using nodup

/-- The queue has an entry of the key with at least the given information. -/
def Holds (le : Info → Info → Prop) (q : Queue) (k : String) (i : Info) : Prop :=
  ∃ e ∈ q.entries, e.1 = k ∧ le i e.2.info

end Queue

namespace Simulator

/-- An order of informations under which a composition is an upper bound of its parts, and under
which a composition with the key of its first part is no more than that part. Only informations
that occur in the run of code are concerned. -/
structure Merging (s : Simulator) (start : Transition) (le : Info → Info → Prop) : Prop where
  refl : ∀ i, le i i
  trans : ∀ {i j k}, le i j → le j k → le i k
  left : ∀ {b t u i}, s.Occurs start b t → s.Occurs start b u → t.state.key = u.state.key →
    t.info.compose u.info = .ok i → le t.info i
  right : ∀ {b t u i}, s.Occurs start b t → s.Occurs start b u → t.state.key = u.state.key →
    t.info.compose u.info = .ok i → le u.info i
  settled : ∀ {t u i}, s.Occurs start false t → s.Occurs start false u →
    t.state.key = u.state.key → t.info.compose u.info = .ok i → i.key = t.info.key → le i t.info

/-- The entries of a queue stand under their keys and occur in the run. -/
def QueueOccurs (s : Simulator) (start : Transition) (b : Bool) (q : Queue) : Prop :=
  ∀ e ∈ q.entries, e.1 = e.2.state.key ∧ s.Occurs start b e.2

section Add

variable {s : Simulator} {start : Transition} {le : Info → Info → Prop} {b : Bool}
variable {q q' : Queue} {t : Transition}

theorem QueueOccurs.add (hq : s.QueueOccurs start b q) (ht : s.Occurs start b t)
    (h : q.add t = .ok q') : s.QueueOccurs start b q' := by
  intro x hx
  obtain ⟨-, he⟩ | ⟨pre, e, post, i, hsplit, hk, hi, he⟩ := Queue.add_cases h
  · rw [he, List.mem_append, List.mem_singleton] at hx
    rcases hx with hx | rfl
    · exact hq x hx
    · exact ⟨rfl, ht⟩
  · have old : e ∈ q.entries := by simp [hsplit]
    obtain ⟨hkey, hocc⟩ := hq e old
    rw [he] at hx
    rcases List.mem_append.1 hx with hx | hx
    · exact hq x (by simp [hsplit, hx])
    · rcases List.mem_cons.1 hx with rfl | hx
      · exact ⟨hkey, hocc.merge ht (hkey.symm.trans hk) hi (.inl rfl)⟩
      · exact hq x (by simp [hsplit, hx])

/-- Adding keeps what the queue holds. -/
theorem Holds.add (hm : s.Merging start le) (hq : s.QueueOccurs start b q)
    (ht : s.Occurs start b t) (h : q.add t = .ok q') {k : String} {i : Info}
    (held : q.Holds le k i) : q'.Holds le k i := by
  obtain ⟨x, hx, hxk, hxi⟩ := held
  obtain ⟨-, he⟩ | ⟨pre, e, post, j, hsplit, hk, hj, he⟩ := Queue.add_cases h
  · exact ⟨x, by simp [he, hx], hxk, hxi⟩
  · rw [hsplit] at hx
    rcases List.mem_append.1 hx with hx | hx
    · exact ⟨x, by simp [he, hx], hxk, hxi⟩
    · rcases List.mem_cons.1 hx with rfl | hx
      · obtain ⟨hkey, hocc⟩ := hq x (by simp [hsplit])
        have grown := hm.left hocc ht (hkey.symm.trans hk) hj
        exact ⟨(x.1, { x.2 with info := j }), by simp [he], hxk, hm.trans hxi grown⟩
      · exact ⟨x, by simp [he, hx], hxk, hxi⟩

/-- What is added is held. -/
theorem Holds.added (hm : s.Merging start le) (hq : s.QueueOccurs start b q)
    (ht : s.Occurs start b t) (h : q.add t = .ok q') : q'.Holds le t.state.key t.info := by
  obtain ⟨-, he⟩ | ⟨pre, e, post, j, hsplit, hk, hj, he⟩ := Queue.add_cases h
  · exact ⟨(t.state.key, t), by simp [he], rfl, hm.refl _⟩
  · obtain ⟨hkey, hocc⟩ := hq e (by simp [hsplit])
    exact ⟨(e.1, { e.2 with info := j }), by simp [he], hk,
      hm.right hocc ht (hkey.symm.trans hk) hj⟩

end Add

/-- A point is reached: a branch at least as well informed was taken up there or is pending. -/
def Reached (le : Info → Info → Prop) (taken : List Transition) (w : Worklist) (k : String)
    (i : Info) : Prop :=
  (∃ t ∈ taken, t.state.key = k ∧ le i t.info) ∨ w.pending.Holds le k i

/-- A result of a small step is taken care of: it is among the ended ones, or its point is
reached. -/
def Handled (le : Info → Info → Prop) (taken : List Transition) (w : Worklist) (ends : Bool)
    (r : Transition) : Prop :=
  if ends then w.ended.Holds le r.state.key r.info else Reached le taken w r.state.key r.info

/-- The invariant of a run of code. `taken` are the branches taken up so far, `done` those of them
whose results have all been handled. -/
structure Explores (s : Simulator) (start : Transition) (le : Info → Info → Prop)
    (taken done : List Transition) (w : Worklist) : Prop where
  pending : s.QueueOccurs start false w.pending
  ended : s.QueueOccurs start true w.ended
  nodup : (w.ended.entries.map (·.1)).Nodup
  visited : ∀ t ∈ taken, s.Occurs start false t
  seen : ∀ k i, w.seen.get? k = some i → Reached le taken w k i ∧
    ∃ t, s.Occurs start false t ∧ t.state.key = k ∧ t.info = i
  started : Reached le taken w start.state.key start.info
  closed : ∀ t ∈ done, ∃ st, (s.smallStep t).result = .ok st ∧
    ∀ r ∈ st.results, Handled le taken w st.ends r

/-- What is reached or has ended in one worklist is so in the other. -/
structure Grows (le : Info → Info → Prop) (taken : List Transition) (w w' : Worklist) : Prop where
  reached : ∀ {k i}, Reached le taken w k i → Reached le taken w' k i
  ended : ∀ {k i}, w.ended.Holds le k i → w'.ended.Holds le k i

section Accept

variable {s : Simulator} {start : Transition} {le : Info → Info → Prop}
variable {taken done : List Transition} {w w' w'' : Worklist} {t : Transition}

theorem Grows.refl : Grows le taken w w := ⟨id, id⟩

theorem Grows.trans (h : Grows le taken w w') (h' : Grows le taken w' w'') :
    Grows le taken w w'' :=
  ⟨fun r => h'.reached (h.reached r), fun r => h'.ended (h.ended r)⟩

theorem Grows.handled (h : Grows le taken w w') {ends : Bool} (ht : Handled le taken w ends t) :
    Handled le taken w' ends t := by
  cases ends with
  | true => exact h.ended ht
  | false => exact h.reached ht

/-- The invariant survives growth as long as the queues and the points seen are in order. -/
theorem Explores.grow (h : s.Explores start le taken done w) (grows : Grows le taken w w')
    (pending : s.QueueOccurs start false w'.pending) (ended : s.QueueOccurs start true w'.ended)
    (nodup : (w'.ended.entries.map (·.1)).Nodup)
    (seen : ∀ k i, w'.seen.get? k = some i → Reached le taken w' k i ∧
      ∃ t, s.Occurs start false t ∧ t.state.key = k ∧ t.info = i) :
    s.Explores start le taken done w' where
  pending := pending
  ended := ended
  nodup := nodup
  visited := h.visited
  seen := seen
  started := grows.reached h.started
  closed := by
    intro t ht
    obtain ⟨st, hst, hr⟩ := h.closed t ht
    exact ⟨st, hst, fun r hmem => grows.handled (hr r hmem)⟩

theorem Worklist.addPending_cases (h : w.addPending t = .ok w') :
    ∃ q, w.pending.add t = .ok q ∧ w' = { w with pending := q } := by
  obtain ⟨q, hq, rfl⟩ := Success.map_iff.1 h
  exact ⟨q, hq, rfl⟩

/-- A pending branch is added, after the points seen were extended by its own point, if at all. -/
theorem Explores.addPending (hm : s.Merging start le) (h : s.Explores start le taken done w)
    (ht : s.Occurs start false t) {seen : Table String Info}
    (hseen : ∀ k i, seen.get? k = some i → w.seen.get? k = some i ∨
      (k = t.state.key ∧ i = t.info))
    (hadd : { w with seen := seen }.addPending t = .ok w') :
    s.Explores start le taken done w' ∧ Grows le taken w w' ∧
      Reached le taken w' t.state.key t.info := by
  obtain ⟨q, hq, rfl⟩ := Worklist.addPending_cases hadd
  have grows : Grows le taken w { w with seen := seen, pending := q } := by
    refine ⟨?_, id⟩
    rintro k i (hr | hr)
    · exact .inl hr
    · exact .inr (Holds.add hm h.pending ht hq hr)
  have now : Reached le taken { w with seen := seen, pending := q } t.state.key t.info :=
    .inr (Holds.added hm h.pending ht hq)
  refine ⟨h.grow grows (h.pending.add ht hq) h.ended h.nodup ?_, grows, now⟩
  intro k i hget
  rcases hseen k i hget with old | ⟨rfl, rfl⟩
  · exact ⟨grows.reached (h.seen k i old).1, (h.seen k i old).2⟩
  · exact ⟨now, t, ht, rfl, rfl⟩

theorem Explores.revisit (hm : s.Merging start le) (h : s.Explores start le taken done w)
    (ht : s.Occurs start false t) (unfrozen : t.frozen = false) (hrev : w.revisit t = .ok w') :
    s.Explores start le taken done w' ∧ Grows le taken w w' ∧
      Reached le taken w' t.state.key t.info := by
  unfold Worklist.revisit at hrev
  cases hget : w.seen.get? t.state.key with
  | none =>
      simp only [hget, Transition.copy_eq unfrozen] at hrev
      refine h.addPending hm ht ?_ hrev
      intro k i hk
      by_cases same : k = t.state.key
      · subst same
        rw [Table.get?_insert_self] at hk
        exact .inr ⟨rfl, by injection hk with hk; exact hk.symm⟩
      · rw [Table.get?_insert_of_ne _ _ same] at hk
        exact .inl hk
  | some old =>
      simp only [hget] at hrev
      obtain ⟨reached, u, hu, hkey, hinfo⟩ := h.seen _ _ hget
      cases hcomp : old.compose t.info with
      | error f => simp [hcomp] at hrev
      | ok merged =>
          simp only [hcomp] at hrev
          have hcomp' : u.info.compose t.info = .ok merged := by rw [hinfo]; exact hcomp
          have below : le t.info merged := hm.right hu ht hkey hcomp'
          split at hrev
          · -- Nothing new: what was learned before already covers this branch.
            rename_i same
            injection hrev with hrev
            subst hrev
            have covered : le merged old := by
              rw [← hinfo]
              exact hm.settled hu ht hkey hcomp' (by rw [hinfo]; exact same)
            refine ⟨h, .refl, ?_⟩
            have up : ∀ {i}, le old i → le t.info i := fun hi =>
              hm.trans below (hm.trans covered hi)
            rcases reached with ⟨x, hx, hxk, hxi⟩ | ⟨x, hx, hxk, hxi⟩
            · exact .inl ⟨x, hx, hxk, up hxi⟩
            · exact .inr ⟨x, hx, hxk, up hxi⟩
          · have hocc : s.Occurs start false { t with info := merged } :=
              hu.merge ht hkey hcomp' (.inr rfl)
            rw [Transition.copy_eq (t := { t with info := merged }) unfrozen] at hrev
            obtain ⟨hex, hgrows, hr⟩ := h.addPending hm hocc (t := { t with info := merged }) (by
              intro k i hk
              by_cases same : k = t.state.key
              · subst same
                rw [Table.get?_insert_self] at hk
                exact .inr ⟨rfl, by injection hk with hk; exact hk.symm⟩
              · rw [Table.get?_insert_of_ne _ _ same] at hk
                exact .inl hk) hrev
            refine ⟨hex, hgrows, ?_⟩
            rcases hr with ⟨x, hx, hxk, hxi⟩ | ⟨x, hx, hxk, hxi⟩
            · exact .inl ⟨x, hx, hxk, hm.trans below hxi⟩
            · exact .inr ⟨x, hx, hxk, hm.trans below hxi⟩

/-- One result of a small step is taken up. -/
theorem Explores.accept (hm : s.Merging start le) (h : s.Explores start le taken done w)
    {ends repeats : Bool} (ht : s.Occurs start ends t) (unfrozen : t.frozen = false)
    (hacc : w.accept ends repeats t = .ok w') :
    s.Explores start le taken done w' ∧ Grows le taken w w' ∧ Handled le taken w' ends t := by
  unfold Worklist.accept at hacc
  cases ends with
  | true =>
      simp only [if_true] at hacc
      obtain ⟨q, hq, rfl⟩ := Success.map_iff.1 hacc
      have grows : Grows le taken w { w with ended := q } :=
        ⟨id, fun hr => Holds.add hm h.ended ht hq hr⟩
      refine ⟨h.grow grows h.pending (h.ended.add ht hq) (Queue.add_nodup hq h.nodup) ?_, grows, ?_⟩
      · exact h.seen
      · exact Holds.added hm h.ended ht hq
  | false =>
      simp only [Bool.false_eq_true, if_false] at hacc
      cases repeats with
      | true => exact h.revisit hm ht unfrozen hacc
      | false => exact h.addPending hm ht (fun _ _ hk => .inl hk) hacc

theorem Explores.acceptAll (hm : s.Merging start le) {ends repeats : Bool} {ts : List Transition}
    (h : s.Explores start le taken done w)
    (hts : ∀ t ∈ ts, s.Occurs start ends t ∧ t.frozen = false)
    (hacc : w.acceptAll ends repeats ts = .ok w') :
    s.Explores start le taken done w' ∧ Grows le taken w w' ∧
      ∀ t ∈ ts, Handled le taken w' ends t := by
  induction ts generalizing w with
  | nil =>
      simp only [Worklist.acceptAll, Except.ok.injEq] at hacc
      subst hacc
      exact ⟨h, .refl, by simp⟩
  | cons t ts ih =>
      unfold Worklist.acceptAll at hacc
      cases hone : w.accept ends repeats t with
      | error f => simp [hone] at hacc
      | ok v =>
          simp only [hone] at hacc
          obtain ⟨hv, hgrows, hhandled⟩ := h.accept hm (hts t (by simp)).1 (hts t (by simp)).2 hone
          obtain ⟨hw', hgrows', hrest⟩ := ih hv (fun u hu => hts u (by simp [hu])) hacc
          refine ⟨hw', hgrows.trans hgrows', ?_⟩
          intro u hu
          rcases List.mem_cons.1 hu with rfl | hu
          · exact hgrows'.handled hhandled
          · exact hrest u hu

/-- One small step on the first pending branch. -/
theorem Explores.step (hm : s.Merging start le) (h : s.Explores start le taken taken w)
    {step : Step Worklist} (hstep : s.worklistStep? w = some step)
    (hres : step.result = .ok w') :
    ∃ t, s.Explores start le (t :: taken) (t :: taken) w' := by
  unfold worklistStep? at hstep
  cases hentries : w.pending.entries with
  | nil => simp [hentries] at hstep
  | cons e rest =>
      obtain ⟨k, t⟩ := e
      simp only [hentries, Option.some.injEq] at hstep
      subst hstep
      split at hres
      · cases hres
      · obtain ⟨st, hst, hres⟩ := Run.bind_result_iff.1 hres
        have hacc := Run.ofFault_result_iff.1 hres
        obtain ⟨hk, hocc⟩ := h.pending (k, t) (by simp [hentries])
        -- The branch leaves the queue and joins those taken up.
        have grows : ∀ {j i}, Reached le taken w j i →
            Reached le (t :: taken) { w with pending := ⟨rest⟩ } j i := by
          rintro j i (⟨x, hx, hxk, hxi⟩ | ⟨x, hx, hxk, hxi⟩)
          · exact .inl ⟨x, by simp [hx], hxk, hxi⟩
          · rw [hentries] at hx
            rcases List.mem_cons.1 hx with rfl | hx
            · exact .inl ⟨t, by simp, hk.symm.trans hxk, hxi⟩
            · exact .inr ⟨x, hx, hxk, hxi⟩
        have popped : s.Explores start le (t :: taken) taken { w with pending := ⟨rest⟩ } := by
          refine ⟨?_, h.ended, h.nodup, ?_, ?_, grows h.started, ?_⟩
          · exact fun x hx => h.pending x (by simp [hentries, hx])
          · intro x hx
            rcases List.mem_cons.1 hx with rfl | hx
            · exact hocc
            · exact h.visited x hx
          · exact fun j i hi => ⟨grows (h.seen j i hi).1, (h.seen j i hi).2⟩
          · intro x hx
            obtain ⟨st', hst', hr⟩ := h.closed x hx
            refine ⟨st', hst', fun r hmem => ?_⟩
            have := hr r hmem
            cases hends : st'.ends with
            | true =>
                rw [hends] at this
                exact this
            | false =>
                rw [hends] at this
                exact grows this
        obtain ⟨hw', -, hhandled⟩ :=
          popped.acceptAll hm (fun r hr => ⟨hocc.step hst hr, ((smallStep_unfrozen hst).2 r hr).1⟩) hacc
        refine ⟨t, ⟨hw'.pending, hw'.ended, hw'.nodup, hw'.visited, hw'.seen, hw'.started, ?_⟩⟩
        intro x hx
        rcases List.mem_cons.1 hx with rfl | hx
        · exact ⟨st, hst, hhandled⟩
        · exact hw'.closed x hx

end Accept

section Run

variable {s : Simulator} {start : Transition} {le : Info → Info → Prop}

theorem Explores.drain (hm : s.Merging start le) {fuel : Nat} {reports : List Report}
    {taken : List Transition} {w w' : Worklist} (h : s.Explores start le taken taken w)
    (hres : (s.drain fuel reports w).result = .ok w') :
    ∃ taken', s.Explores start le taken' taken' w' ∧ w'.pending.entries = [] := by
  induction fuel generalizing reports taken w with
  | zero => simp [Simulator.drain] at hres
  | succ fuel ih =>
      unfold Simulator.drain at hres
      cases hstep : s.worklistStep? w with
      | none =>
          simp only [hstep, Except.ok.injEq] at hres
          subst hres
          refine ⟨taken, h, ?_⟩
          unfold worklistStep? at hstep
          split at hstep
          · assumption
          · simp at hstep
      | some step =>
          simp only [hstep] at hres
          cases hone : step.result with
          | error f => simp [hone] at hres
          | ok v =>
              simp only [hone] at hres
              obtain ⟨t, ht⟩ := h.step hm hstep hone
              exact ih ht hres

/-- What a finished run of code leaves: branches at whose points everything was handled, and the
transitions that ended, one for each key. -/
structure Explored (s : Simulator) (start : Transition) (le : Info → Info → Prop)
    (taken ended : List Transition) : Prop where
  visited : ∀ t ∈ taken, s.Occurs start false t
  occurs : ∀ t ∈ ended, s.Occurs start true t
  nodup : (ended.map (·.state.key)).Nodup
  started : ∃ t ∈ taken, t.state.key = start.state.key ∧ le start.info t.info
  closed : ∀ t ∈ taken, ∃ st, (s.smallStep t).result = .ok st ∧ ∀ r ∈ st.results,
    ∃ u ∈ if st.ends then ended else taken, u.state.key = r.state.key ∧ le r.info u.info

theorem explored_of_run (hm : s.Merging start le) {ts : List Transition}
    (hrun : (s.run start).result = .ok ts) : ∃ taken, s.Explored start le taken ts := by
  obtain ⟨w, hw, hrun⟩ := Run.bind_result_iff.1 hrun
  obtain ⟨w', hdrain, hts⟩ := Run.bind_result_iff.1 hrun
  obtain rfl := Run.pure_result_iff.1 hts
  obtain ⟨q, hq, rfl⟩ := Success.map_iff.1 (Run.ofFault_result_iff.1 hw)
  have none : ∀ b, s.QueueOccurs start b Queue.empty := fun b e he => by simp [Queue.empty] at he
  have first : s.Explores start le [] [] ⟨q, .empty, .empty⟩ :=
    { pending := (none false).add .start hq
      ended := none true
      nodup := by simp [Queue.empty]
      visited := by simp
      seen := fun k i hk => by simp at hk
      started := .inr (Holds.added hm (none false) .start hq)
      closed := by simp }
  obtain ⟨taken, h, hempty⟩ := first.drain hm hdrain
  have reached : ∀ {k i}, Reached le taken w' k i → ∃ u ∈ taken, u.state.key = k ∧ le i u.info := by
    rintro k i (hr | ⟨e, he, -⟩)
    · exact hr
    · rw [hempty] at he
      cases he
  refine ⟨taken, ⟨h.visited, ?_, ?_, reached h.started, ?_⟩⟩
  · intro t ht
    obtain ⟨e, he, rfl⟩ := List.mem_map.1 ht
    exact (h.ended e he).2
  · have keys : w'.ended.transitions.map (·.state.key) = w'.ended.entries.map (·.1) := by
      simp only [Queue.transitions, List.map_map]
      exact List.map_congr_left fun e he => (h.ended e he).1.symm
    rw [keys]
    exact h.nodup
  · intro t ht
    obtain ⟨st, hst, hr⟩ := h.closed t ht
    refine ⟨st, hst, fun r hmem => ?_⟩
    have := hr r hmem
    unfold Handled at this
    split at this
    · rename_i hends
      obtain ⟨e, he, hk, hle⟩ := this
      simp only [hends, if_true]
      exact ⟨e.2, List.mem_map.2 ⟨e, he, rfl⟩, (h.ended e he).1.symm.trans hk, hle⟩
    · rename_i hends
      simp only [hends, Bool.false_eq_true, if_false]
      exact reached this

end Run

end Simulator

end DeltaSlice
