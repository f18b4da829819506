import DeltaSlice.Proofs.Accesses.Stores
import DeltaSlice.Proofs.Step.Observed
import DeltaSlice.Proofs.Worklist.Distributive
import DeltaSlice.Proofs.Worklist.ProcessStep

/-!
Possible accesses. Under the observer of read and write conditions a transition knows exactly the
variables that some sequence of small steps to its state accesses. The conditions do not matter for
that, since none is ever false; merging unites what was accessed, and a branch that is dropped for its
key has accessed nothing new.
-/

namespace DeltaSlice

inductive AccessKind where
  | reading
  | writing
deriving DecidableEq

def ReadWrite.store (i : ReadWrite) : AccessKind → Store
  | .reading => i.read
  | .writing => i.written

/-- The variables that a small step reads and those that it writes. -/
def Move.touches (m : Move) : List Variable × List Variable :=
  (m.result.scratch.read, m.result.scratch.written)

def Move.touched (m : Move) : AccessKind → List Variable
  | .reading => m.result.scratch.read
  | .writing => m.result.scratch.written

/-- The accesses that an information has an entry for. -/
def Info.accessed : Info → Set (AccessKind × Variable)
  | .readWrite i => {x | x.2 ∈ (i.store x.1).keys}
  | _ => ∅

namespace Simulator

variable {s : Simulator} {track : Variable → Bool} {start t r : Transition}

/-- A possibly reached point with the accesses on the way to it. -/
structure Notes (t : Transition) (i : ReadWrite) : Prop where
  info : t.info = .readWrite i
  live : ∀ k, ReadWrite.Live (i.store k)
  isOpen : t.Open

theorem Notes.accessed {i : ReadWrite} (h : Notes t i) :
    t.info.accessed = {x | x.2 ∈ (i.store x.1).keys} := by
  rw [h.info]
  rfl

theorem observeAccesses_live {i : ReadWrite} (hi : ∀ k, ReadWrite.Live (i.store k)) (ht : t.Open)
    (st : SmallStep) (k : AccessKind) :
    ReadWrite.Live ((Observer.observeAccesses track t i).store k) ∧
      ∀ v, v ∈ ((Observer.observeAccesses track t i).store k).keys ↔
        v ∈ (i.store k).keys ∨ v ∈ Move.touched ⟨st, t⟩ k ∧ track v = true := by
  have hc : t.condition.IsOpen := Conditions.Open.value ht
  cases k with
  | reading => exact ReadWrite.foldl_weaken_live track t.scratch.read hc (hi .reading)
  | writing => exact ReadWrite.foldl_weaken_live track t.scratch.written hc (hi .writing)

theorem Notes.step (observed : s.setup.observer = .readWrite track) {i : ReadWrite} (h : Notes t i)
    {st : SmallStep} (hst : (s.smallStep t).result = .ok st) (hr : r ∈ st.results) :
    ∃ j, Notes r j ∧ ∀ k v, v ∈ (j.store k).keys ↔
      v ∈ (i.store k).keys ∨ v ∈ Move.touched ⟨st, r⟩ k ∧ track v = true := by
  obtain ⟨st₀, rs, u, hadv, hu, heval, heq, rfl⟩ := smallStep_mem hst hr
  have silent : s.setup.observer.Silent := observed ▸ Observer.silent_readWrite track
  have hinfo : u.info = .readWrite i := (advance_keeps silent hadv hu).1.trans h.info
  have hopen : u.Open := advance_open (t := t.resetAccesses) h.isOpen hadv u hu
  rw [observed] at heval
  simp only [Observer.evaluated, hinfo] at heval
  have hrinfo := Run.pure_result_iff.1 heval
  have noted := @observeAccesses_live track u i h.live hopen st₀
  refine ⟨_, ⟨hrinfo.symm, fun k => (noted k).1, ?_⟩, fun k v => ?_⟩
  · rw [heq]
    exact hopen
  · have same : Move.touched ⟨{ st₀ with results := rs }, r⟩ k = Move.touched ⟨st₀, u⟩ k := by
      rw [heq]
      cases k with
      | reading => rfl
      | writing => rfl
    rw [same]
    exact (noted k).2 v

theorem store_compose (i j : ReadWrite) (k : AccessKind) :
    (i.compose j).store k = ReadWrite.merge (i.store k) (j.store k) := by
  cases k with
  | reading => rfl
  | writing => rfl

theorem Notes.merge {u v : Transition} {x : Info} {i j : ReadWrite} (ht : Notes t i)
    (hu : Notes u j) (hx : t.info.compose u.info = .ok x) (hv : v = t ∨ v = u) :
    Notes { v with info := x } (i.compose j) := by
  rw [ht.info, hu.info] at hx
  refine ⟨(Except.ok.inj hx).symm, fun k => ?_, ?_⟩
  · rw [store_compose]
    exact (ht.live k).merge (hu.live k)
  · cases hv with
    | inl hv => exact hv ▸ ht.isOpen
    | inr hv => exact hv ▸ hu.isOpen

theorem Occurs.notes (observed : s.setup.observer = .readWrite track) {i₀ : ReadWrite}
    (hstart : Notes start i₀) {b : Bool} (h : s.Occurs start b t) : ∃ i, Notes t i := by
  induction h with
  | start => exact ⟨i₀, hstart⟩
  | step _ hst hr ih =>
      obtain ⟨i, hi⟩ := ih
      obtain ⟨j, hj, -⟩ := hi.step observed hst hr
      exact ⟨j, hj⟩
  | merge _ _ _ hx hv iht ihu =>
      obtain ⟨i, hi⟩ := iht
      obtain ⟨j, hj⟩ := ihu
      exact ⟨_, hi.merge hj hx hv⟩

theorem accessed_merge (observed : s.setup.observer = .readWrite track) {i₀ : ReadWrite}
    (hstart : Notes start i₀) {b : Bool} {u : Transition} {x : Info} (ht : s.Occurs start b t)
    (hu : s.Occurs start b u) (hx : t.info.compose u.info = .ok x) :
    x.accessed = t.info.accessed ∪ u.info.accessed := by
  obtain ⟨i, hi⟩ := ht.notes observed hstart
  obtain ⟨j, hj⟩ := hu.notes observed hstart
  rw [hi.accessed, hj.accessed]
  have hx := (hi.merge hj hx (.inl rfl)).accessed
  refine hx.trans ?_
  ext y
  simp only [Set.mem_ofPred_eq, Set.mem_union, store_compose]
  exact (hi.live y.1).mem_keys_merge (hj.live y.1)

/-- Where the merged information has the key of its first part, nothing new was accessed. -/
theorem accessed_of_key_eq {i j : ReadWrite} (hi : ∀ k, ReadWrite.Live (i.store k))
    (hj : ∀ k, ReadWrite.Live (j.store k)) (hkey : (i.compose j).key = i.key) (k : AccessKind)
    {v : Variable} (hv : v ∈ (j.store k).keys) : v ∈ (i.store k).keys := by
  by_contra hn
  have slash : " /".length = 2 := rfl
  have total := congrArg String.length hkey
  simp only [ReadWrite.key, ReadWrite.compose, String.length_append] at total
  obtain ⟨reads, newRead⟩ := (hi .reading).length_key_merge (v := v) (hj .reading)
  obtain ⟨writes, newWrite⟩ := (hi .writing).length_key_merge (v := v) (hj .writing)
  simp only [ReadWrite.store] at reads writes newRead newWrite
  cases k with
  | reading =>
      have := newRead hv hn
      omega
  | writing =>
      have := newWrite hv hn
      omega

theorem merging_accessed (observed : s.setup.observer = .readWrite track) {i₀ : ReadWrite}
    (hstart : Notes start i₀) : s.Merging start fun i j => i.accessed ⊆ j.accessed where
  refl := fun _ => Set.Subset.rfl
  trans := fun h h' => h.trans h'
  left := by
    intro b t u x ht hu _ hx
    rw [accessed_merge observed hstart ht hu hx]
    exact Set.subset_union_left
  right := by
    intro b t u x ht hu _ hx
    rw [accessed_merge observed hstart ht hu hx]
    exact Set.subset_union_right
  settled := by
    intro t u x ht hu _ hx hsame
    obtain ⟨i, hi⟩ := ht.notes observed hstart
    obtain ⟨j, hj⟩ := hu.notes observed hstart
    have hcompose : x = .readWrite (i.compose j) := (hi.merge hj hx (.inl rfl)).info
    rw [accessed_merge observed hstart ht hu hx]
    refine Set.union_subset Set.Subset.rfl ?_
    rw [hcompose, hi.info] at hsame
    rw [hi.accessed, hj.accessed]
    exact fun y hy => accessed_of_key_eq hi.live hj.live hsame y.1 hy

/-- The accesses of a small step that are tracked. -/
def accessContent (track : Variable → Bool) :
    Content (List Variable × List Variable) (AccessKind × Variable) where
  of := Info.accessed
  effect := fun a X => X ∪ {x | track x.2 = true ∧ match x.1 with
    | .reading => x.2 ∈ a.1
    | .writing => x.2 ∈ a.2}

theorem mem_effect {m : Move} {X : Set (AccessKind × Variable)} {k : AccessKind} {v : Variable} :
    (k, v) ∈ (accessContent track).effect m.touches X ↔
      (k, v) ∈ X ∨ v ∈ m.touched k ∧ track v = true := by
  cases k with
  | reading => exact or_congr_right and_comm
  | writing => exact or_congr_right and_comm

theorem distributive_accesses (observed : s.setup.observer = .readWrite track) {i₀ : ReadWrite}
    (hstart : Notes start i₀) : s.Distributive start Move.touches (accessContent track) where
  step := by
    intro t st r hocc hst hr
    obtain ⟨i, hi⟩ := hocc.notes observed hstart
    obtain ⟨j, hj, hkeys⟩ := hi.step observed hst hr
    ext ⟨k, v⟩
    rw [mem_effect]
    change (k, v) ∈ r.info.accessed ↔ (k, v) ∈ t.info.accessed ∨ _
    rw [hi.accessed, hj.accessed]
    exact hkeys k v
  union := by
    intro a F hF
    ext x
    simp only [accessContent, Set.mem_union, Set.mem_sUnion, Set.mem_image]
    constructor
    · rintro (⟨X, hX, hx⟩ | hx)
      · exact ⟨_, ⟨X, hX, rfl⟩, .inl hx⟩
      · obtain ⟨X, hX⟩ := hF
        exact ⟨_, ⟨X, hX, rfl⟩, .inr hx⟩
    · rintro ⟨_, ⟨X, hX, rfl⟩, hx | hx⟩
      · exact .inl ⟨X, hX, hx⟩
      · exact .inr hx
  merge := fun ht hu _ hx => accessed_merge observed hstart ht hu hx

theorem mem_foldl_effect (ms : List Move) {X : Set (AccessKind × Variable)} {k : AccessKind}
    {v : Variable} :
    (k, v) ∈ ms.foldl (fun X m => (accessContent track).effect m.touches X) X ↔
      (k, v) ∈ X ∨ ∃ m ∈ ms, v ∈ m.touched k ∧ track v = true := by
  induction ms generalizing X with
  | nil => simp
  | cons m ms ih =>
      rw [List.foldl_cons, ih, mem_effect]
      simp only [List.mem_cons, exists_eq_or_imp, or_assoc]

theorem begin?_notes (observed : s.setup.observer = .readWrite track) {p : Process} {st : State}
    (hbegin : s.begin? p st = .ok start) :
    Notes start .empty ∧ start.info.accessed = ∅ := by
  obtain ⟨i, hi, rfl⟩ := Success.map_iff.1 hbegin
  rw [observed] at hi
  obtain rfl : Info.readWrite .empty = i := Run.pure_result_iff.1 hi
  refine ⟨⟨rfl, fun k => ?_, Conditions.Open.start⟩, ?_⟩
  · cases k with
    | reading => exact ReadWrite.live_empty
    | writing => exact ReadWrite.live_empty
  · ext ⟨k, v⟩
    cases k with
    | reading => exact iff_of_false List.not_mem_nil (Set.notMem_empty _)
    | writing => exact iff_of_false List.not_mem_nil (Set.notMem_empty _)

/-- A sequence of small steps accesses a variable. -/
def Touched (ms : List Move) (k : AccessKind) (v : Variable) : Prop := ∃ m ∈ ms, v ∈ m.touched k

/-- What a transition knows after a single sequence of small steps. -/
theorem Route.accessed_iff (observed : s.setup.observer = .readWrite track) {p : Process}
    {st : State} (hbegin : s.begin? p st = .ok start) {b : Bool} {ms : List Move}
    (h : s.Route start b ms t) {k : AccessKind} {v : Variable} :
    (k, v) ∈ t.info.accessed ↔ Touched ms k v ∧ track v = true := by
  obtain ⟨hstart, hnone⟩ := begin?_notes observed hbegin
  have along := (distributive_accesses observed hstart).along h
  change t.info.accessed = ms.foldl _ start.info.accessed at along
  rw [along, hnone, mem_foldl_effect]
  simp only [Set.mem_empty_iff_false, false_or, Touched, ← and_assoc, exists_and_right]

/-- A completed transition of a process knows what the sequences to its state access. -/
theorem accessed_of_makeStep (observed : s.setup.observer = .readWrite track) {p : Process}
    {st : State} (hbegin : s.begin? p st = .ok start) (keys : s.KeysDecide start Move.touches)
    {ts : List Transition} (hstep : (s.makeStep p st).result = .ok ts) (hr : r ∈ ts) :
    ∃ i, r.info = .readWrite i ∧ ∀ k v, (ReadWrite.lookup (i.store k) v).possibly = true ↔
      ∃ ms, s.Leads start ms r ∧ Touched ms k v ∧ track v = true := by
  obtain ⟨hstart, -⟩ := begin?_notes observed hbegin
  obtain ⟨taken, ended, hx, e, he, hstate, hinfo⟩ :=
    explored_of_makeStep hbegin (merging_accessed observed hstart) hstep hr
  obtain ⟨i, hi⟩ := (hx.occurs e he).notes observed hstart
  rw [observed] at hinfo
  have hinfo : e.info = r.info := Run.pure_result_iff.1 hinfo
  refine ⟨i, hinfo.symm.trans hi.info, fun k v => ?_⟩
  have hmono : ∀ {i j : Info}, i.accessed ⊆ j.accessed →
      (accessContent track).of i ⊆ (accessContent track).of j := fun hsub => hsub
  have collected := (distributive_accesses observed hstart).of_ended keys hmono hx he (k, v)
  simp only [accessContent, hi.accessed] at collected
  rw [(hi.live k).possibly_iff]
  refine collected.trans ⟨?_, ?_⟩
  · rintro ⟨ms, t, hc, hkey, hmem⟩
    refine ⟨ms, ⟨t, hc, by rw [hkey, hstate]⟩, ?_⟩
    exact (Route.accessed_iff observed hbegin (b := true) hc).1 hmem
  · rintro ⟨ms, ⟨t, hc, hkey⟩, htouched⟩
    refine ⟨ms, t, hc, by rw [hkey, hstate], ?_⟩
    exact (Route.accessed_iff observed hbegin (b := true) hc).2 htouched

/-- A variable is possibly written by a transition of a process exactly if some sequence of small
steps to its state writes it, and so for reading. -/
theorem possiblyAccessed_iff (observed : s.setup.observer = .readWrite fun _ => true) {p : Process}
    {st : State} (hbegin : s.begin? p st = .ok start) (keys : s.KeysDecide start Move.touches)
    {ts : List Transition} (hstep : (s.makeStep p st).result = .ok ts) (hr : r ∈ ts) :
    ∃ i, r.info = .readWrite i ∧ ∀ v,
      ((i.writtenOf v).possibly = true ↔
        ∃ ms, s.Leads start ms r ∧ ∃ m ∈ ms, v ∈ m.result.scratch.written) ∧
      ((i.readOf v).possibly = true ↔
        ∃ ms, s.Leads start ms r ∧ ∃ m ∈ ms, v ∈ m.result.scratch.read) := by
  obtain ⟨i, hinfo, hiff⟩ := accessed_of_makeStep observed hbegin keys hstep hr
  simp only [and_true] at hiff
  exact ⟨i, hinfo, fun v => ⟨hiff .writing v, hiff .reading v⟩⟩

end Simulator

open Examples Simulator in
theorem possiblyAccessed_iff_guarded :
    ∃ start, (untracked guarded (.readWrite fun _ => true)).begin? runner atStart = .ok start ∧
      (untracked guarded (.readWrite fun _ => true)).KeysDecide start Move.touches ∧
      ∃ ts, ((untracked guarded (.readWrite fun _ => true)).makeStep runner atStart).result = .ok ts ∧
        ∃ r ∈ ts, ∃ i, r.info = .readWrite i ∧ ∀ v, (i.writtenOf v).possibly = true ↔
          ∃ ms, (untracked guarded (.readWrite fun _ => true)).Leads start ms r ∧
            ∃ m ∈ ms, v ∈ m.result.scratch.written := by
  obtain ⟨start, ts, r, -, hbegin, hts, hr, -, h⟩ := exists_of_leadsWith
    (s := untracked guarded (.readWrite fun _ => true)) (p := runner) (t := atStart)
    (l := List.replicate 11 0) (c := fun start _ _ =>
      (untracked guarded (.readWrite fun _ => true)).surveys Move.touches start
        ((untracked guarded (.readWrite fun _ => true)).survey 100 [] [(false, start)]))
    (by decide +kernel)
  have keys := keysDecide_of_surveys h
  obtain ⟨i, hi, hiff⟩ := possiblyAccessed_iff rfl hbegin keys hts hr
  exact ⟨start, hbegin, keys, ts, hts, r, hr, i, hi, fun v => (hiff v).1⟩

end DeltaSlice

/-!
Definite accesses. An access that is definite on one way to a state stays definite when another way
to the same state is merged, also where that other way is without it.
-/

namespace DeltaSlice

def Info.definitelyWrites (info : Info) (v : Variable) : Bool :=
  match info with
  | .readWrite i => (i.writtenOf v).definitely
  | _ => false

theorem Info.exists_of_definitelyWrites {info : Info} {v : Variable}
    (h : info.definitelyWrites v = true) :
    ∃ i, info = .readWrite i ∧ (i.writtenOf v).definitely = true := by
  cases info with
  | readWrite i => exact ⟨i, rfl, h⟩
  | _ => cases h

/-- `if (u) return; v = 1;` where `u` is unknown. -/
def Examples.leaving : System :=
  let u := field 0 "u"
  let v := field 1 "v"
  single [u, v] [] [⟨"run", [.branch 0 (ref u) [.ret 0 none] [], assign v (number 1)], [], false⟩]

open Examples Simulator in
/-- The thread ends in the same state whether it returns early or writes `v`; the write counts as
definite, though the early return is without it. -/
theorem definitelyAccessed_fails_leaving :
    ∃ start ts r i ms, (untracked leaving (.readWrite fun _ => true)).begin? runner atStart =
        .ok start ∧
      ((untracked leaving (.readWrite fun _ => true)).makeStep runner atStart).result = .ok ts ∧
      r ∈ ts ∧ r.info = .readWrite i ∧
      (i.writtenOf (.ofOwner (.inst top) (field 1 "v"))).definitely = true ∧
      (untracked leaving (.readWrite fun _ => true)).Leads start ms r ∧
      ∀ m ∈ ms, .ofOwner (.inst top) (field 1 "v") ∉ m.result.scratch.written := by
  obtain ⟨start, ts, r, ms, hbegin, hts, hr, hleads, h⟩ := exists_of_leadsWith
    (s := untracked leaving (.readWrite fun _ => true)) (p := runner) (t := atStart)
    (l := List.replicate 20 0) (c := fun _ ms r =>
      (ms.all fun m => !m.result.scratch.written.contains (.ofOwner (.inst top) (field 1 "v"))) &&
        r.info.definitelyWrites (.ofOwner (.inst top) (field 1 "v"))) (by decide +kernel)
  simp only [Bool.and_eq_true, List.all_eq_true, Bool.not_eq_true', List.contains_eq_mem,
    decide_eq_false_iff_not] at h
  obtain ⟨hnever, hdef⟩ := h
  obtain ⟨i, hi, hdef⟩ := Info.exists_of_definitelyWrites hdef
  exact ⟨start, ts, r, i, ms, hbegin, hts, hr, hi, hdef, hleads, hnever⟩

end DeltaSlice
