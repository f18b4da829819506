import DeltaSlice.Proofs.Step.Obedience
import DeltaSlice.Proofs.Step.Seats
import DeltaSlice.Proofs.Termination.Values

/-!
The frames of running code. What stands in a frame was made by the code below the place where it stands, so
frames have finitely many contents, up to the numbers of event lists.
-/

namespace DeltaSlice

variable {sys : System} {K : Stock}

namespace Frame

/-- The frame without the numbers of event lists. -/
def unnumbered (f : Frame) : Frame :=
  { f with receiver := f.receiver.unnumbered, levels := f.levels.map (·.map (·.map Value.unnumbered)) }

theorem key_unnumbered (f : Frame) : f.unnumbered.key = f.key := by
  have slots : slotKey ∘ Option.map Value.unnumbered = slotKey := by
    funext o
    cases o with
    | none => rfl
    | some x => exact x.key_unnumbered
  unfold key unnumbered
  simp only [Value.key_unnumbered, ← List.map_reverse, List.map_map, Function.comp_def]
  simp only [← Function.comp_def, slots]

end Frame

/-- Receiver and results are values that may come up where they stand, and there is no more room for results than
an expression has children. -/
structure Frame.Holds (sys : System) (K : Stock) (f : Frame) : Prop where
  receiver : f.receiver.unnumbered ∈ K.all sys
  results : ∀ (k : Nat) c x, f.slot? k c = some x → x.unnumbered ∈ K.below sys ⟨f.location.routine, f.path.drop k⟩
  narrow : ∀ l ∈ f.levels, l.length ≤ sys.size + 1 + K.width

theorem Level.length_put_le {l : Level} {i : Int} {n : Nat} {o : Option Value} (h : l.length ≤ n) (hi : i < n) :
    (l.put i o).length ≤ n := by
  unfold Level.put
  split
  · exact h
  · unfold Level.set
    rw [List.length_set, List.length_append, List.length_replicate]
    omega

namespace Frame.Holds

variable {f : Frame} {x : Value} {i : Int} {up : Path} {e : Expr}

theorem start (r : Routine) (hx : x.unnumbered ∈ K.all sys) : (Frame.start r x).Holds sys K where
  receiver := hx
  results k c v hv := by
    have none : (Frame.start r x).slot? k c = none := by cases k <;> simp [slot?, Frame.start, elementAt?]
    rw [none] at hv
    cases hv
  narrow l hl := by
    obtain rfl := List.mem_singleton.1 hl
    exact Nat.zero_le _

/-- What stands as a result, if only the unknown value. -/
theorem value (h : f.Holds sys K) (k : Nat) (c : Int) :
    (f.value k c).unnumbered ∈ K.below sys ⟨f.location.routine, f.path.drop k⟩ := by
  unfold Frame.value
  cases hx : f.slot? k c with
  | none => exact Stock.base_subset_below Stock.unknown_mem_base
  | some x => exact h.results k c x hx

theorem value_mem_all (h : f.Holds sys K) (k : Nat) (c : Int) : (f.value k c).unnumbered ∈ K.all sys :=
  Stock.below_subset_all (h.value k c)

/-- An event that is at hand comes up. -/
theorem event_mem (h : f.Holds sys K) {ev : Event} (hev : (f.value 0 0).asEvent? = some ev) : ev ∈ K.events sys := by
  have known := h.value_mem_all 0 0
  rw [Int.ofNat_zero, Value.eq_of_asEvent? hev] at known
  exact known

theorem enter (h : f.Holds sys K) (i : Int) : (f.enter i).Holds sys K where
  receiver := h.receiver
  results k c x hx := by
    cases k with
    | zero =>
        have none : (f.enter i).slot? 0 c = none := slot?_enter_zero
        rw [Int.ofNat_zero, none] at hx
        cases hx
    | succ k => exact h.results k c x (slot?_enter_succ k ▸ hx)
  narrow := List.forall_mem_cons.2 ⟨Nat.zero_le _, h.narrow⟩

theorem pop (h : f.Holds sys K) (n : Nat) (j : Int) : Frame.Holds sys K { f.pop n with comingFrom := j } where
  receiver := h.receiver
  results k c x hx := by
    have hx : (f.pop n).slot? k c = some x := hx
    rw [slot?_pop_add] at hx
    have result := h.results (n + k) c x hx
    rw [← List.drop_drop] at result
    exact result
  narrow l hl := h.narrow l (List.mem_of_mem_drop hl)

theorem put (h : f.Holds sys K) {o : Option Value} (inside : i ≤ sys.size)
    (ho : ∀ x, o = some x → x.unnumbered ∈ K.below sys f.location) : (f.put i o).Holds sys K := by
  have location := put_location f i o
  have path : (f.put i o).path = f.path := congrArg Location.path location
  constructor
  · have receiver : (f.put i o).receiver = f.receiver := by
      unfold Frame.put
      split <;> rfl
    exact receiver ▸ h.receiver
  · intro k c x hx
    rw [location, path]
    cases k with
    | zero =>
        obtain ⟨-, -, here⟩ | before := slot?_put_cases hx
        · exact ho x here
        · exact h.results 0 c x before
    | succ k => exact h.results (k + 1) c x (slot?_put_succ i o k ▸ hx)
  · unfold Frame.put
    split
    · rename_i l ls levels
      have narrow := h.narrow
      rw [levels, List.forall_mem_cons] at narrow
      exact List.forall_mem_cons.2 ⟨Level.length_put_le narrow.1 (by omega), narrow.2⟩
    · exact h.narrow

/-- Leaving an expression with a value that was made from what stands in it. -/
theorem finish (h : f.Holds sys K) (he : sys.at? f.location = some e)
    (hx : x.unnumbered ∈ sys.stage (K.base sys) (sys.height f.location + 1)) : (sys.finish x f).Holds sys K := by
  obtain ⟨i, up, path⟩ := index_of_at? he
  rw [location_of_path path] at he hx
  obtain ⟨above, habove, hi⟩ := Option.bind_eq_some_iff.1 he
  have habove : sys.scope? ⟨f.location.routine, up⟩ = some above := habove
  have outer : (f.pop 1).location = ⟨f.location.routine, up⟩ := by simp [Frame.pop, path]
  have inside : i ≤ sys.size := by
    obtain ⟨-, wide⟩ := System.path_bounded (System.scope?_of_at? he)
    exact (wide i (by simp)).2.le
  unfold System.finish leave
  rw [path]
  dsimp only
  split
  · refine (h.pop 1 i).put inside fun y hy => ?_
    obtain rfl := Option.some.inj hy
    have higher := System.height_child_lt habove hi
    exact outer.symm ▸ System.stage_mono higher hx
  · exact h.pop 1 i

end Frame.Holds

namespace Simulator

variable {s : Simulator} {t : Transition} {ps : ProcessState} {top : Frame} {below fs : List Frame} {e : Expr}
  {o : Option Expr} {n : Nat} {b : Bool} {x : Value}

/-- What a reference names is a variable that is at hand. -/
theorem referenced_mem (holds : top.Holds s.program.system K) (arises : ps.routines ∈ K.calls) (d : Decl) :
    s.referenced ps top d ∈ K.variablesOf s.program.system d := by
  unfold referenced
  split
  · dsimp only
    have qualifier : (if s.program.system.isQualified top.location then top.value 1 0 else top.receiver).unnumbered ∈
        K.all s.program.system := by
      split
      · exact holds.value_mem_all 1 0
      · exact holds.receiver
    split
    · rename_i i hi
      exact .inl (.inl ⟨i, Stock.mem_instances_of_value qualifier hi, rfl⟩)
    · exact .inl (.inr rfl)
  · exact .inr ⟨_, arises, rfl⟩

/-- An expression is left with a value that one operation makes from what stands in it. -/
theorem LeftWith.mem (h : s.LeftWith t ps top e x) (holds : top.Holds s.program.system K)
    (untracked : ∀ v, s.setup.tracksVariable v = false) (arises : ps.routines ∈ K.calls)
    (he : s.program.system.at? top.location = some e) :
    x.unnumbered ∈ s.program.system.stage (K.base s.program.system) (s.program.system.height top.location + 1) := by
  have inBase : ∀ {y : Value}, y ∈ K.base s.program.system → y ∈ s.program.system.stage (K.base s.program.system)
      (s.program.system.height top.location + 1) := fun hy => System.base_subset_stage _ hy
  have leaf : ∀ {y : Value}, y ∈ K.leaves s.program.system e → y ∈ s.program.system.stage
      (K.base s.program.system) (s.program.system.height top.location + 1) :=
    fun hy => inBase (Stock.leaf_mem_base he hy)
  have slot : ∀ c, (top.value 0 c).unnumbered ∈ s.program.system.stage (K.base s.program.system)
      (s.program.system.height top.location) := fun c => holds.value 0 c
  have code : e ∈ s.program.system.code := ⟨_, he⟩
  cases h with
  | unknown _ => exact inBase Stock.unknown_mem_base
  | bool b => exact inBase (Stock.bool_mem_base b)
  | literal id l => exact leaf rfl
  | @event id name i ev hi hev =>
      refine leaf ⟨i, Stock.mem_instances_of_value holds.receiver hi, ?_⟩
      unfold System.event? at hev
      split at hev
      · split at hev
        · exact Option.some.inj hev ▸ rfl
        · cases hev
      · cases hev
  | place id d => exact leaf ⟨_, referenced_mem holds arises d, rfl⟩
  | loaded id d tracked =>
      rw [untracked] at tracked
      cases tracked
  | slot c _ => exact System.stage_mono (Nat.le_succ _) (slot c)
  | unary id op y =>
      rw [Value.applyUnary_unnumbered]
      exact .inr ⟨_, slot 0, _, slot 0, .inl ⟨id, op, y, code, rfl⟩⟩
  | binary id op y z =>
      rcases Value.apply_unnumbered op (top.value 0 0) (top.value 0 1) with logical | same
      · rcases logical with unknown | ⟨b, known⟩
        · rw [unknown]
          exact inBase Stock.unknown_mem_base
        · rw [known]
          exact inBase (Stock.bool_mem_base b)
      · rw [same]
        exact .inr ⟨_, slot 0, _, slot 1, .inr (.inl ⟨id, op, y, z, code, rfl⟩)⟩
  | @events id op y z n choice l hl =>
      rw [← eventList?_unnumbered] at hl
      exact .inr ⟨_, slot 0, _, slot 1, .inr (.inr ⟨choice, l, hl, rfl⟩)⟩

/-- Frames that shift hold no other values than before. -/
theorem Shifts.holds (h : s.Shifts t ps top below o n b fs) (holds : ∀ f ∈ top :: below, f.Holds s.program.system K)
    (seated : Seated s.program.system (top :: below)) (acyclic : s.program.system.Acyclic)
    (here : ∀ x, o = some x → s.program.system.at? top.location = some x)
    (called : ∀ f, below.head? = some f → f.CallsFor s.program.system top.location.routine)
    (untracked : ∀ v, s.setup.tracksVariable v = false) (arises : ps.routines ∈ K.calls)
    (own : ∀ p, t.proc = some p → .lit (.inst p.inst) ∈ K.values) : ∀ f ∈ fs, f.Holds s.program.system K := by
  obtain ⟨first, rest⟩ := List.forall_mem_cons.1 holds
  have replace : ∀ {f : Frame}, f.Holds s.program.system K → ∀ g ∈ f :: below, g.Holds s.program.system K :=
    fun hf => List.forall_mem_cons.2 ⟨hf, rest⟩
  obtain ⟨es, hes, -, -⟩ := seated.first.scope
  cases h with
  | enter j _ _ => exact replace (first.enter j)
  | finish same left => exact replace (first.finish (here _ same) (left.mem first untracked arises (here _ same)))
  | @exit id label levels target j same _ hj =>
      refine replace ((first.pop (levels + 1) j).put ?_ fun x hx => ?_)
      · exact ((System.path_bounded hes).2 j (List.mem_of_getElem? hj)).2.le
      · cases hx
  | next _ _ _ => exact replace (first.pop _ _)
  | call _ _ receiver =>
      refine List.forall_mem_cons.2 ⟨.start _ ?_, holds⟩
      rw [receiver]
      split
      · exact first.value_mem_all 1 0
      · exact first.receiver
  | returns _ returned =>
      cases returned with
      | @back caller rest' x same hx =>
          subst same
          obtain ⟨calls, others⟩ := List.forall_mem_cons.1 rest
          obtain ⟨id, args, site, last⟩ := called caller rfl
          have lower : s.program.system.height top.location < s.program.system.height caller.location :=
            System.height_called_lt acyclic ⟨_, id, args, site⟩
          have result : x.unnumbered ∈ K.below s.program.system caller.location := by
            rcases hx with rfl | rfl
            · exact Stock.base_subset_below Stock.unknown_mem_base
            · exact Stock.below_mono lower.le (first.value 0 0)
          have width := (System.path_bounded (System.scope?_of_at? site)).1
          have := Expr.length_le_numbers (Expr.call id top.location.routine args).children
          have inside : caller.comingFrom + 1 ≤ s.program.system.size := by
            simp only [Expr.children] at width this
            omega
          refine List.forall_mem_cons.2 ⟨?_, others⟩
          refine (calls.pop 0 (caller.comingFrom + 1)).put inside fun y hy => ?_
          exact Option.some.inj hy ▸ result
      | ends _ ended =>
          rcases ended with rfl | ⟨p, hp, rfl⟩
          · intro f hf
            cases hf
          · exact fun f hf => List.mem_singleton.1 hf ▸ .start _ (Stock.values_subset_all (own p hp))

end Simulator

namespace Stock

variable {f : Frame} {fs : List Frame}

/-- The frames that may come up, without numbers. -/
def frames (K : Stock) (sys : System) : Set Frame :=
  {f | (∃ c ∈ K.calls, f.location.routine ∈ c) ∧ f.location.path ∈ sys.paths ∧
    f.comingFrom ∈ Set.Icc (-1 : Int) sys.size ∧ (f.levels.length ≤ sys.size + 1 ∧
      ∀ l ∈ f.levels, l.length ≤ sys.size + 1 + K.width ∧ ∀ o ∈ l, o ∈ insert none (some '' K.all sys)) ∧
    f.receiver ∈ K.all sys}

/-- The stacks of frames that may come up, without numbers. -/
def frameStacks (K : Stock) (sys : System) : Set (List Frame) :=
  {fs | fs.map (·.location.routine) ∈ K.calls ∧ ∀ f ∈ fs, f ∈ K.frames sys}

namespace Finite

theorem frames (finite : K.Finite) : (K.frames sys).Finite := by
  have routines : {r | ∃ c ∈ K.calls, r ∈ c}.Finite := by
    have all := finite.calls.biUnion fun c _ => List.finite_toSet c
    refine all.subset ?_
    rintro r ⟨c, hc, hr⟩
    exact Set.mem_biUnion hc hr
  have slots : (insert none (some '' K.all sys)).Finite := (finite.all.image _).insert _
  have levels := finite_lists (finite_lists slots (sys.size + 1 + K.width)) (sys.size + 1)
  have receivers : (K.all sys).Finite := finite.all
  have all := routines.prod (sys.paths_finite.prod ((Set.finite_Icc (-1 : Int) sys.size).prod
    (levels.prod receivers)))
  refine (all.image fun w : Routine × Path × Int × List Level × Value =>
    (⟨⟨w.1, w.2.1⟩, w.2.2.1, w.2.2.2.1, w.2.2.2.2⟩ : Frame)).subset ?_
  rintro ⟨⟨r, path⟩, i, ls, x⟩ ⟨hr, hpath, hi, hls, hx⟩
  exact ⟨(r, path, i, ls, x), ⟨hr, hpath, hi, hls, hx⟩, rfl⟩

theorem frameStacks (finite : K.Finite) : (K.frameStacks sys).Finite := by
  have frames : (K.frames sys).Finite := finite.frames
  obtain ⟨n, hn⟩ := (finite.calls.image List.length).bddAbove
  refine (finite_lists frames n).subset ?_
  rintro fs ⟨calls, inside⟩
  refine ⟨?_, inside⟩
  have short := hn ⟨_, calls, rfl⟩
  rwa [List.length_map] at short

end Finite

end Stock

/-- A frame that holds such values is one of those that may come up. -/
theorem Frame.Holds.mem_frames {f : Frame} (h : f.Holds sys K) (seated : f.Seated sys)
    (called : ∃ c ∈ K.calls, f.location.routine ∈ c) : f.unnumbered ∈ K.frames sys := by
  obtain ⟨es, hes, low, high⟩ := seated.scope
  obtain ⟨deep, -⟩ := System.path_bounded hes
  have wide := Expr.length_le_numbers es
  refine ⟨called, System.path_mem hes, ⟨low, ?_⟩, ⟨?_, ?_⟩, h.receiver⟩
  · change f.comingFrom ≤ sys.size
    rcases high with high | ⟨high, -⟩ <;> omega
  · have levels : f.unnumbered.levels.length = f.path.length + 1 := by simp [Frame.unnumbered, seated.levels]
    have : f.path.length = f.location.path.length := rfl
    omega
  · intro l hl
    obtain ⟨l', hl', rfl⟩ := List.mem_map.1 hl
    refine ⟨by simpa using h.narrow l' hl', fun o ho => ?_⟩
    obtain ⟨o', ho', rfl⟩ := List.mem_map.1 ho
    cases o' with
    | none => exact .inl rfl
    | some x =>
        obtain ⟨k, hk⟩ := List.mem_iff_getElem?.1 hl'
        obtain ⟨c, hc⟩ := List.mem_iff_getElem?.1 ho'
        have slot : f.slot? k c = some x := by simp [Frame.slot?, elementAt?_natCast, hk, hc]
        exact .inr ⟨_, Stock.below_subset_all (h.results k c x slot), rfl⟩

/-- So are the frames of running code. -/
theorem frames_mem_frameStacks {fs : List Frame} (holds : ∀ f ∈ fs, f.Holds sys K) (seated : Seated sys fs)
    (arises : fs.map (·.location.routine) ∈ K.calls) : fs.map Frame.unnumbered ∈ K.frameStacks sys := by
  constructor
  · rw [List.map_map]
    exact arises
  · intro f hf
    obtain ⟨g, hg, rfl⟩ := List.mem_map.1 hf
    exact (holds g hg).mem_frames (seated.frames g hg) ⟨_, arises, List.mem_map_of_mem hg⟩

end DeltaSlice
