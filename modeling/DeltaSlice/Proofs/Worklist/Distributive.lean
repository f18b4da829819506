import DeltaSlice.Proofs.Step.Observed
import DeltaSlice.Proofs.Worklist.Exploration
import DeltaSlice.Proofs.Worklist.Walk
import Mathlib.Data.List.Nodup
import Mathlib.Data.Set.Lattice

/-!
Content that is collected along small steps and united by merging. If the effect of a small step
distributes over unions, merging loses and invents nothing: what a run of code collects for a state
is the union of what the single walks to that state collect.
-/

namespace DeltaSlice

namespace Simulator

/-- A kind of content of informations with the effect of a small step on it. -/
structure Content (α φ : Type) where
  of : Info → Set φ
  effect : α → Set φ → Set φ

/-- The content evolves by its effect, which distributes over unions, and merging unites it. -/
structure Distributive {α φ : Type} (s : Simulator) (start : Transition) (look : Move → α)
    (c : Content α φ) : Prop where
  step : ∀ {t st r}, s.Occurs start false t → (s.smallStep t).result = .ok st → r ∈ st.results →
    c.of r.info = c.effect (look ⟨st, r⟩) (c.of t.info)
  union : ∀ a (F : Set (Set φ)), F.Nonempty → c.effect a (⋃₀ F) = ⋃₀ (c.effect a '' F)
  merge : ∀ {b t u i}, s.Occurs start b t → s.Occurs start b u → t.state.key = u.state.key →
    t.info.compose u.info = .ok i → c.of i = c.of t.info ∪ c.of u.info

section

variable {α φ : Type} {s : Simulator} {start : Transition} {look : Move → α} {c : Content α φ}

/-- A route to the state of `t` goes on as `t` does. -/
theorem Route.goesOn {ms : List Move} {t w r : Transition} {st : SmallStep}
    (h : s.Route start false ms w) (keys : s.KeysDecide start look)
    (hkey : w.state.key = t.state.key) (ht : s.Occurs start false t)
    (hst : (s.smallStep t).result = .ok st) (hr : r ∈ st.results) :
    ∃ st' r', (s.smallStep w).result = .ok st' ∧ r' ∈ st'.results ∧
      s.Route start st.ends (ms ++ [⟨st', r'⟩]) r' ∧ r'.state.key = r.state.key ∧
      look ⟨st', r'⟩ = look ⟨st, r⟩ := by
  obtain ⟨st', hst', hends, himit⟩ := keys t w ht h.occurs hkey.symm st hst
  obtain ⟨r', hr', hkey', hlook⟩ := himit r hr
  have := Route.snoc h hst' hr'
  rw [hends] at this
  exact ⟨st', r', hst', hr', this, hkey', hlook⟩

/-- So does what was explored at that state, and its results have been explored in turn. -/
theorem Explored.goesOn {le : Info → Info → Prop} {taken ended : List Transition}
    (hx : s.Explored start le taken ended) (keys : s.KeysDecide start look) {x t r : Transition}
    {st : SmallStep} (hmem : x ∈ taken) (hkey : x.state.key = t.state.key)
    (ht : s.Occurs start false t) (hst : (s.smallStep t).result = .ok st) (hr : r ∈ st.results) :
    ∃ st' r' y, (s.smallStep x).result = .ok st' ∧ r' ∈ st'.results ∧
      look ⟨st', r'⟩ = look ⟨st, r⟩ ∧ y ∈ (if st.ends then ended else taken) ∧
      y.state.key = r.state.key ∧ le r'.info y.info := by
  obtain ⟨st', hst', hends, himit⟩ := keys t x ht (hx.visited x hmem) hkey.symm st hst
  obtain ⟨r', hr', hkey', hlook⟩ := himit r hr
  obtain ⟨st'', hst'', hclosed⟩ := hx.closed x hmem
  obtain rfl : st'' = st' := by
    rw [hst'] at hst''
    injection hst'' with h
    exact h.symm
  obtain ⟨y, hy, hykey, hyle⟩ := hclosed r' hr'
  rw [hends] at hy
  exact ⟨st'', r', y, hst', hr', hlook, hy, hykey.trans hkey', hyle⟩

theorem Distributive.mono (d : s.Distributive start look c) (a : α) {X Y : Set φ} (h : X ⊆ Y) :
    c.effect a X ⊆ c.effect a Y := by
  have key := d.union a {X, Y} ⟨X, by simp⟩
  rw [Set.sUnion_pair, Set.union_eq_self_of_subset_left h, Set.image_pair, Set.sUnion_pair] at key
  rw [key]
  exact Set.subset_union_left

/-- Along a single route the effects are performed one after the other. -/
theorem Distributive.along (d : s.Distributive start look c) {b : Bool} {ms : List Move}
    {t : Transition} (h : s.Route start b ms t) :
    c.of t.info = ms.foldl (fun X m => c.effect (look m) X) (c.of start.info) := by
  have walks : ∀ {ms t}, s.Walk start ms t →
      c.of t.info = ms.foldl (fun X m => c.effect (look m) X) (c.of start.info) := by
    intro ms t hw
    induction hw with
    | nil => rfl
    | snoc hw hst _ hr ih =>
        rw [List.foldl_append, List.foldl_cons, List.foldl_nil, ← ih]
        exact d.step hw.occurs hst hr
  cases h.cases with
  | inl hnil =>
      obtain ⟨-, rfl, rfl⟩ := hnil
      rfl
  | inr hlast =>
      obtain ⟨pre, u, st, hw, hst, -, hr, rfl⟩ := hlast
      rw [List.foldl_append, List.foldl_cons, List.foldl_nil, ← walks hw]
      exact d.step hw.occurs hst hr

/-- The content of whatever occurs is that of some routes to its state, at least one of them. -/
theorem Distributive.represented (d : s.Distributive start look c)
    (keys : s.KeysDecide start look) {b : Bool} {t : Transition} (h : s.Occurs start b t) :
    ∃ W : Set (List Move × Transition), W.Nonempty ∧
      (∀ w ∈ W, s.Route start b w.1 w.2 ∧ w.2.state.key = t.state.key) ∧
      c.of t.info = ⋃ w ∈ W, c.of w.2.info := by
  induction h with
  | start =>
      refine ⟨{([], start)}, ⟨_, rfl⟩, ?_, by simp⟩
      rintro w rfl
      exact ⟨.nil, rfl⟩
  | @step t r st hocc hst hr ih =>
      obtain ⟨W, ⟨w₀, hw₀⟩, hW, hcontent⟩ := ih
      have next : ∀ w ∈ W, ∃ st' r', (s.smallStep w.2).result = .ok st' ∧ r' ∈ st'.results ∧
          s.Route start st.ends (w.1 ++ [⟨st', r'⟩]) r' ∧ r'.state.key = r.state.key ∧
          look ⟨st', r'⟩ = look ⟨st, r⟩ := by
        intro w hw
        obtain ⟨hroute, hkey⟩ := hW w hw
        exact hroute.goesOn keys hkey hocc hst hr
      refine ⟨{x | ∃ w ∈ W, ∃ st', (s.smallStep w.2).result = .ok st' ∧ x.2 ∈ st'.results ∧
        x.1 = w.1 ++ [⟨st', x.2⟩] ∧ s.Route start st.ends x.1 x.2 ∧
        x.2.state.key = r.state.key ∧ look ⟨st', x.2⟩ = look ⟨st, r⟩}, ?_, ?_, ?_⟩
      · obtain ⟨st', r', hst', hr', hroute, hkey, hlook⟩ := next w₀ hw₀
        exact ⟨(_, r'), w₀, hw₀, st', hst', hr', rfl, hroute, hkey, hlook⟩
      · rintro x ⟨w, -, st', -, -, -, hroute, hkey, -⟩
        exact ⟨hroute, hkey⟩
      · have spread : c.effect (look ⟨st, r⟩) (c.of t.info) =
            ⋃ w ∈ W, c.effect (look ⟨st, r⟩) (c.of w.2.info) := by
          rw [hcontent, ← Set.sUnion_image, d.union _ _ (Set.Nonempty.image _ ⟨w₀, hw₀⟩),
            Set.image_image, Set.sUnion_image]
        rw [d.step hocc hst hr, spread]
        apply Set.Subset.antisymm
        · intro x hx
          obtain ⟨w, hw, hx⟩ := Set.mem_iUnion₂.1 hx
          obtain ⟨st', r', hst', hr', hroute, hkey, hlook⟩ := next w hw
          refine Set.mem_iUnion₂.2 ⟨(_, r'), ⟨w, hw, st', hst', hr', rfl, hroute, hkey, hlook⟩, ?_⟩
          rw [d.step (hW w hw).1.occurs hst' hr', hlook]
          exact hx
        · intro x hx
          obtain ⟨y, ⟨w, hw, st', hst', hr', -, -, -, hlook⟩, hx⟩ := Set.mem_iUnion₂.1 hx
          rw [d.step (hW w hw).1.occurs hst' hr', hlook] at hx
          exact Set.mem_iUnion₂.2 ⟨w, hw, hx⟩
  | @merge b t u v i ht hu hkey hi hv iht ihu =>
      obtain ⟨W, hWne, hW, hWc⟩ := iht
      obtain ⟨U, -, hU, hUc⟩ := ihu
      have hvkey : v.state.key = t.state.key := by
        rcases hv with rfl | rfl
        · rfl
        · exact hkey.symm
      refine ⟨W ∪ U, hWne.mono Set.subset_union_left, ?_, ?_⟩
      · rintro w (hw | hw)
        · exact ⟨(hW w hw).1, (hW w hw).2.trans hvkey.symm⟩
        · exact ⟨(hU w hw).1, ((hU w hw).2.trans hkey.symm).trans hvkey.symm⟩
      · rw [Set.biUnion_union, ← hWc, ← hUc]
        exact d.merge ht hu hkey hi

/-- Every route is covered by what was explored at the key of its last state. -/
theorem Distributive.covered (d : s.Distributive start look c) (keys : s.KeysDecide start look)
    {le : Info → Info → Prop} (hle : ∀ {i j}, le i j → c.of i ⊆ c.of j)
    {taken ended : List Transition} (hx : s.Explored start le taken ended) {b : Bool}
    {ms : List Move} {t : Transition} (h : s.Route start b ms t) :
    ∃ u ∈ if b then ended else taken, u.state.key = t.state.key ∧ c.of t.info ⊆ c.of u.info := by
  have advance : ∀ {b pre u st r}, s.Walk start pre u → (s.smallStep u).result = .ok st →
      st.ends = b → r ∈ st.results →
      (∃ x ∈ taken, x.state.key = u.state.key ∧ c.of u.info ⊆ c.of x.info) →
      ∃ y ∈ if b then ended else taken, y.state.key = r.state.key ∧ c.of r.info ⊆ c.of y.info := by
    rintro b pre u st r hw hst rfl hr ⟨x, hx', hkey, hsub⟩
    obtain ⟨st', r', y, hst', hr', hlook, hy, hykey, hyle⟩ :=
      hx.goesOn keys hx' hkey hw.occurs hst hr
    refine ⟨y, hy, hykey, ?_⟩
    calc c.of r.info = c.effect (look ⟨st, r⟩) (c.of u.info) := d.step hw.occurs hst hr
      _ ⊆ c.effect (look ⟨st, r⟩) (c.of x.info) := d.mono _ hsub
      _ = c.of r'.info := by rw [d.step (hx.visited x hx') hst' hr', hlook]
      _ ⊆ c.of y.info := hle hyle
  have walks : ∀ {ms t}, s.Walk start ms t →
      ∃ x ∈ taken, x.state.key = t.state.key ∧ c.of t.info ⊆ c.of x.info := by
    intro ms t hw
    induction hw with
    | nil =>
        obtain ⟨x, hx', hkey, hxle⟩ := hx.started
        exact ⟨x, hx', hkey, hle hxle⟩
    | snoc hw hst hends hr ih => exact advance hw hst hends hr ih
  obtain ⟨rfl, -, rfl⟩ | ⟨pre, u, st, hw, hst, hends, hr, -⟩ := h.cases
  · exact walks .nil
  · exact advance hw hst hends hr (walks hw)

/-- What is collected for an ended transition is what the routes to its state collect. -/
theorem Distributive.of_ended (d : s.Distributive start look c) (keys : s.KeysDecide start look)
    {le : Info → Info → Prop} (hle : ∀ {i j}, le i j → c.of i ⊆ c.of j)
    {taken ended : List Transition} (hx : s.Explored start le taken ended) {e : Transition}
    (he : e ∈ ended) (x : φ) :
    x ∈ c.of e.info ↔
      ∃ ms t, s.Completes start ms t ∧ t.state.key = e.state.key ∧ x ∈ c.of t.info := by
  constructor
  · intro h
    obtain ⟨W, -, hW, hcontent⟩ := d.represented keys (hx.occurs e he)
    rw [hcontent] at h
    obtain ⟨w, hw, hmem⟩ := Set.mem_iUnion₂.1 h
    exact ⟨w.1, w.2, (hW w hw).1, (hW w hw).2, hmem⟩
  · rintro ⟨ms, t, ht, hkey, hmem⟩
    obtain ⟨u, hu, hukey, hsub⟩ := d.covered keys hle hx (b := true) ht
    have : u = e := List.inj_on_of_nodup_map hx.nodup hu he (hukey.trans hkey)
    exact this ▸ hsub hmem

end

end Simulator

end DeltaSlice

/-!
The states that a run of code ends in. Merging and dropping branches loses no end state and invents
none, and the observer, whose informations decide about dropping, has no influence on them.
-/

namespace DeltaSlice

namespace Simulator

variable {s : Simulator} {start : Transition}

/-- For states alone nothing is learned, so nothing can be lost. -/
theorem merging_trivial (s : Simulator) (start : Transition) :
    s.Merging start fun _ _ => True :=
  ⟨fun _ => trivial, fun _ _ => trivial, fun _ _ _ _ => trivial, fun _ _ _ _ => trivial,
    fun _ _ _ _ _ => trivial⟩

def noContent : Content Unit Empty := ⟨fun _ => ∅, fun _ _ => ∅⟩

theorem distributive_noContent (s : Simulator) (start : Transition) :
    s.Distributive start (fun _ => ()) noContent :=
  ⟨fun _ _ _ => rfl, fun _ _ _ => (Set.eq_empty_of_isEmpty _).symm, fun _ _ _ _ => by
    simp [noContent]⟩

/-- The key of a state in which some sequence of small steps from `start` ends. -/
def EndKey (s : Simulator) (start : Transition) (k : String) : Prop :=
  ∃ ms r, s.Completes start ms r ∧ r.state.key = k

theorem endKey_iff_of_run (keys : s.KeysDecide start fun _ => ()) {ts : List Transition}
    (hrun : (s.run start).result = .ok ts) :
    (ts.map (·.state.key)).Nodup ∧ ∀ k, k ∈ ts.map (·.state.key) ↔ s.EndKey start k := by
  obtain ⟨taken, hx⟩ := explored_of_run (s.merging_trivial start) hrun
  have d := s.distributive_noContent start
  refine ⟨hx.nodup, fun k => ⟨?_, ?_⟩⟩
  · intro hk
    obtain ⟨t, ht, rfl⟩ := List.mem_map.1 hk
    obtain ⟨W, ⟨w, hw⟩, hW, -⟩ := d.represented keys (hx.occurs t ht)
    exact ⟨w.1, w.2, (hW w hw).1, (hW w hw).2⟩
  · rintro ⟨ms, r, hr, rfl⟩
    obtain ⟨u, hu, hkey, -⟩ := d.covered keys (fun _ => Set.Subset.rfl) hx (b := true) hr
    exact List.mem_map.2 ⟨u, hu, hkey⟩

section Transfer

variable {o : Observer} {start' : Transition} {taken ended : List Transition}

/-- Where a walk under another observer has come to the same state, that observer lets it go on. -/
theorem step_transfer (keys : (s.observedBy o).KeysDecide start' fun _ => ())
    (hx : (s.observedBy o).Explored start' (fun _ _ => True) taken ended) {ms' : List Move}
    {t t' r : Transition} {st : SmallStep} (hw : (s.observedBy o).Walk start' ms' t')
    (proc : t.proc = t'.proc) (state : t.state = t'.state)
    (hst : (s.smallStep t).result = .ok st) (hr : r ∈ st.results) :
    ∃ st' r', ((s.observedBy o).smallStep t').result = .ok st' ∧ st'.ends = st.ends ∧
      r' ∈ st'.results ∧ Alike r r' := by
  have d := (s.observedBy o).distributive_noContent start'
  obtain ⟨x, hmem, hkey, -⟩ :=
    d.covered keys (fun _ => Set.Subset.rfl) hx (b := false) hw
  -- The run took up a branch at this key, and its step succeeded.
  obtain ⟨sx, hsx, -⟩ := hx.closed x hmem
  obtain ⟨st', hst', -⟩ := keys x t' (hx.visited x hmem) hw.occurs hkey sx hsx
  have parallel := smallStep_alike proc state hst hst'
  obtain ⟨r', hr', alike⟩ := parallel.exists_result hr
  exact ⟨st', r', hst', parallel.ends.symm, hr', alike⟩

/-- A walk under one observer is a walk through the same states under any other one whose run
succeeds. -/
theorem walk_transfer (proc : start.proc = start'.proc) (state : start.state = start'.state)
    (keys : (s.observedBy o).KeysDecide start' fun _ => ())
    (hx : (s.observedBy o).Explored start' (fun _ _ => True) taken ended) {ms : List Move}
    {t : Transition} (h : s.Walk start ms t) :
    ∃ ms' t', (s.observedBy o).Walk start' ms' t' ∧ t.proc = t'.proc ∧ t.state = t'.state := by
  induction h with
  | nil => exact ⟨[], start', .nil, proc, state⟩
  | snoc hw hst hends hr ih =>
      obtain ⟨ms', t', hw', hproc, hstate⟩ := ih
      obtain ⟨st', r', hst', hends', hr', alike⟩ := step_transfer keys hx hw' hproc hstate hst hr
      exact ⟨_, r', hw'.snoc hst' (hends'.trans hends) hr', alike.proc, alike.state⟩

theorem EndKey.transfer (proc : start.proc = start'.proc) (state : start.state = start'.state)
    (keys : (s.observedBy o).KeysDecide start' fun _ => ()) {ts : List Transition}
    (hrun : ((s.observedBy o).run start').result = .ok ts) {k : String}
    (h : s.EndKey start k) : (s.observedBy o).EndKey start' k := by
  obtain ⟨taken, hx⟩ := explored_of_run ((s.observedBy o).merging_trivial start') hrun
  obtain ⟨ms, r, hr, rfl⟩ := h
  cases hr with
  | last hw hst hends hmem =>
      obtain ⟨ms', t', hw', hproc, hstate⟩ := walk_transfer proc state keys hx hw
      obtain ⟨st', r', hst', hends', hr', alike⟩ := step_transfer keys hx hw' hproc hstate hst hmem
      exact ⟨_, r', Completes.last hw' hst' (hends'.trans hends) hr', by rw [alike.state]⟩

end Transfer

/-- A finished run reports every end state that small steps reach and no other one, each once. Which
states these are does not depend on the observer. -/
theorem endStates_of_run (keys : s.KeysDecide start fun _ => ()) {ts : List Transition}
    (hrun : (s.run start).result = .ok ts) :
    (ts.map (·.state.key)).Nodup ∧
      (∀ k, k ∈ ts.map (·.state.key) ↔ s.EndKey start k) ∧
      ∀ (o : Observer) (i : Info) (ts' : List Transition),
        (s.observedBy o).KeysDecide { start with info := i } (fun _ => ()) →
        ((s.observedBy o).run { start with info := i }).result = .ok ts' →
        ∀ k, k ∈ ts'.map (·.state.key) ↔ k ∈ ts.map (·.state.key) := by
  obtain ⟨nodup, exact⟩ := endKey_iff_of_run keys hrun
  refine ⟨nodup, exact, ?_⟩
  intro o i ts' keys' hrun' k
  rw [exact, (endKey_iff_of_run keys' hrun').2]
  constructor
  · intro h
    exact EndKey.transfer (s := s.observedBy o) (o := s.setup.observer) (by rfl) (by rfl) keys hrun h
  · intro h
    exact EndKey.transfer (by rfl) (by rfl) keys' hrun' h

end Simulator

open Examples Simulator in
theorem endStates_of_run_guarded :
    ∃ ts, ((untracked guarded (.pdg false)).run (running (.pdg .empty))).result = .ok ts ∧
      (untracked guarded (.pdg false)).KeysDecide (running (.pdg .empty)) (fun _ => ()) ∧
      (∀ k, k ∈ ts.map (·.state.key) ↔
        (untracked guarded (.pdg false)).EndKey (running (.pdg .empty)) k) ∧
      ∃ ts', ((untracked guarded .none).run (running .none)).result = .ok ts' ∧
        ∀ k, k ∈ ts'.map (·.state.key) ↔ k ∈ ts.map (·.state.key) := by
  have keys : (untracked guarded (.pdg false)).KeysDecide (running (.pdg .empty))
      (fun _ => ()) := keysDecide_of_surveys (l := (untracked guarded (.pdg false)).survey 100 []
        [(false, running (.pdg .empty))]) (by decide +kernel)
  have keys' : (untracked guarded .none).KeysDecide (running .none) (fun _ => ()) :=
    keysDecide_of_surveys (l := (untracked guarded .none).survey 100 []
      [(false, running .none)]) (by decide +kernel)
  obtain ⟨ts, hts, -⟩ := Success.exists_of_yields (c := fun _ => true)
    (x := ((untracked guarded (.pdg false)).run (running (.pdg .empty))).result)
    (by decide +kernel)
  obtain ⟨ts', hts', -⟩ := Success.exists_of_yields (c := fun _ => true)
    (x := ((untracked guarded .none).run (running .none)).result) (by decide +kernel)
  obtain ⟨-, exact, others⟩ := endStates_of_run keys hts
  exact ⟨ts, hts, keys, exact, ts', hts', others .none .none ts' keys' hts'⟩

end DeltaSlice
