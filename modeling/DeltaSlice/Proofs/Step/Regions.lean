import DeltaSlice.Proofs.Step.Shifts
import DeltaSlice.Proofs.Structured.Code

/-!
Code below a child of an expression. Until it jumps further, code that was entered there stays there, or comes
back from there to the expression; what frames hold above the expression does not change meanwhile. Routines that
are called from there leave the frame of their caller alone.
-/

namespace DeltaSlice

open Transition

namespace Frame

/-- The results that the frame holds above the expression at `w`, the innermost level first. -/
def above (f : Frame) (w : Path) : List Level := f.levels.drop (f.path.length - w.length + 1)

variable {f : Frame} {w : Path}

theorem above_congr {g : Frame} (path : g.path = f.path) (levels : g.levels.drop 1 = f.levels.drop 1) :
    g.above w = f.above w := by
  unfold above
  rw [path, Nat.add_comm, ← List.drop_drop, levels, List.drop_drop, Nat.add_comm]

theorem levels_put {l : Level} {ls : List Level} (levels : f.levels = l :: ls) {i : Int} (low : 0 ≤ i)
    (x : Option Value) : (f.put i x).levels = l.set i.toNat x :: ls := by
  unfold put
  rw [levels]
  exact congrArg (· :: ls) (if_neg (not_lt.2 low))

theorem drop_put (f : Frame) (i : Int) (x : Option Value) : (f.put i x).levels.drop 1 = f.levels.drop 1 := by
  unfold put
  split
  · rename_i levels
    rw [levels]
    rfl
  · rfl

theorem above_put (i : Int) (x : Option Value) : (f.put i x).above w = f.above w :=
  above_congr (by rw [path, put_location]; rfl) (drop_put f i x)

theorem above_enter (i : Int) (inside : w.length ≤ f.path.length) : (f.enter i).above w = f.above w := by
  have longer : (f.enter i).path.length - w.length + 1 = (f.path.length - w.length + 1) + 1 := by
    change f.path.length + 1 - w.length + 1 = _
    omega
  unfold above
  rw [longer]
  rfl

theorem above_pop {n : Nat} (inside : w.length + n ≤ f.path.length) : (f.pop n).above w = f.above w := by
  have shorter : n + ((f.pop n).path.length - w.length + 1) = f.path.length - w.length + 1 := by
    simp only [pop, path, List.length_drop] at inside ⊢
    omega
  have levels : (f.pop n).levels = f.levels.drop n := rfl
  unfold above
  rw [← shorter, levels, List.drop_drop]

theorem above_finish {sys : System} {i : Int} {up : Path} (x : Value) (here : f.path = i :: up)
    (inside : w.length ≤ up.length) : (sys.finish x f).above w = f.above w := by
  have popped : (f.pop 1).above w = f.above w := above_pop (by rw [here]; exact Nat.succ_le_succ inside)
  unfold System.finish leave
  rw [here]
  dsimp only
  split
  · rw [above_put]
    exact popped
  · exact popped

theorem above_self (f : Frame) : f.above f.path = f.levels.drop 1 := by rw [above, Nat.sub_self]

theorem finish_location {sys : System} {l : Location} {i : Int} (here : f.location = l.child i) (x : Value) :
    (sys.finish x f).location = l := by
  have path : f.path = i :: l.path := by rw [path, here, Location.child]
  rw [System.finish, leave_location path, here]
  rfl

theorem finish_comingFrom {sys : System} {l : Location} {i : Int} (here : f.location = l.child i) (x : Value) :
    (sys.finish x f).comingFrom = i := by
  have path : f.path = i :: l.path := by rw [path, here, Location.child]
  exact leave_comingFrom path _ _

/-- A result that is used is kept in the level of the parent. -/
theorem finish_levels {sys : System} {i : Int} {up : Path} {l : Level} {ls : List Level} (here : f.path = i :: up)
    (low : 0 ≤ i) (used : sys.isUsed f.location = true) (levels : f.levels.drop 1 = l :: ls) (x : Value) :
    (sys.finish x f).levels = l.set i.toNat (some x) :: ls := by
  unfold System.finish leave
  rw [here, used]
  dsimp only
  rw [if_pos rfl]
  exact levels_put levels low _

end Frame

/-- What holds everywhere in an expression holds for the expressions below it. -/
theorem System.test_below {sys : System} {p : Expr → Bool} {r : Routine} {up q : Path} {c : Int} {e₀ e : Expr}
    (found : sys.at? ⟨r, c :: up⟩ = some e₀) (all : e₀.everywhere p = true)
    (he : sys.at? ⟨r, q ++ c :: up⟩ = some e) : p e = true := by
  have below : e.everywhere p = true := by
    induction q generalizing e with
    | nil => exact Option.some.inj (found.symm.trans he) ▸ all
    | cons i q ih =>
        rcases Path.resolve?_cases he with ⟨empty, -⟩ | ⟨e', he', hmem⟩
        · simp at empty
        · exact Expr.everywhere_child (ih he') hmem
  unfold Expr.everywhere at below
  exact (Bool.and_eq_true_iff.1 below).1

/-- The code is at the expression at `l`, where it comes from child `c`. -/
def At (l : Location) (c : Int) (below fs : List Frame) : Prop :=
  ∃ f, fs = f :: below ∧ f.location = l ∧ f.comingFrom = c

/-- The code is back at the expression at `l` from child `c`; above the expression the frame holds `ls`. -/
def Back (l : Location) (c : Int) (ls : List Level) (below fs : List Frame) : Prop :=
  ∃ f, fs = f :: below ∧ f.location = l ∧ f.comingFrom = c ∧ f.above l.path = ls

/-- The code is below child `c` of the expression at `l`, or in a routine called from there; above the expression
the frame holds `ls`. -/
def Under (l : Location) (c : Int) (ls : List Level) (below fs : List Frame) : Prop :=
  ∃ called f q, fs = called ++ f :: below ∧ f.location = ⟨l.routine, q ++ c :: l.path⟩ ∧ f.above l.path = ls

namespace Frame

variable {f : Frame} {l : Location} {c : Int} {q : Path} {below : List Frame}

theorem path_of_location (here : f.location = ⟨l.routine, q ++ c :: l.path⟩) : f.path = q ++ c :: l.path := by
  rw [path, here]

theorem enter_under (here : f.location = ⟨l.routine, q ++ c :: l.path⟩) (j : Int) :
    Under l c (f.above l.path) below (f.enter j :: below) := by
  refine ⟨[], f.enter j, j :: q, rfl, ?_, above_enter j ?_⟩
  · rw [enter, here]
    rfl
  · rw [path_of_location here, List.length_append, List.length_cons]
    omega

/-- Into a child of the expression. -/
theorem enter_child (here : f.location = l) (c : Int) : Under l c (f.levels.drop 1) below (f.enter c :: below) := by
  refine ⟨[], f.enter c, [], rfl, ?_, ?_⟩
  · rw [enter, here]
    rfl
  · rw [← here]
    exact (above_enter c (Nat.le_refl _)).trans f.above_self

theorem finish_under {sys : System} (here : f.location = ⟨l.routine, q ++ c :: l.path⟩) (x : Value) :
    Under l c (f.above l.path) below (sys.finish x f :: below) ∨
      Back l c (f.above l.path) below (sys.finish x f :: below) := by
  have path := path_of_location here
  cases q with
  | nil =>
      exact .inr ⟨_, rfl, finish_location here x, finish_comingFrom here x, above_finish x path (Nat.le_refl _)⟩
  | cons i q =>
      refine .inl ⟨[], _, q, rfl, finish_location here x, above_finish x path ?_⟩
      change l.path.length ≤ (q ++ c :: l.path).length
      rw [List.length_append, List.length_cons]
      omega

/-- Where the target of an exit stands below the child or is the child itself. -/
theorem exit_under (here : f.location = ⟨l.routine, q ++ c :: l.path⟩) {m : Nat} (low : m ≤ q.length) {j : Int}
    (hj : f.path[m]? = some j) :
    Under l c (f.above l.path) below ({ f.pop (m + 1) with comingFrom := j }.put j none :: below) ∨
      Back l c (f.above l.path) below ({ f.pop (m + 1) with comingFrom := j }.put j none :: below) := by
  have path := path_of_location here
  have kept : ({ f.pop (m + 1) with comingFrom := j }.put j none).above l.path = f.above l.path := by
    rw [above_put]
    exact above_pop (by rw [path, List.length_append, List.length_cons]; omega)
  have outer : ({ f.pop (m + 1) with comingFrom := j }.put j none).location =
      ⟨l.routine, (q ++ c :: l.path).drop (m + 1)⟩ := by
    rw [put_location]
    change (f.pop (m + 1)).location = _
    rw [pop, path, here]
  rcases Nat.lt_or_eq_of_le low with inside | rfl
  · refine .inl ⟨[], _, q.drop (m + 1), rfl, ?_, kept⟩
    rw [outer, List.drop_append_of_le_length inside]
  · refine .inr ⟨_, rfl, ?_, ?_, kept⟩
    · have all : (q ++ c :: l.path).drop (q.length + 1) = l.path := by simp [List.drop_append]
      rw [outer, all]
    · rw [put_comingFrom]
      rw [path] at hj
      simpa using hj.symm

/-- Where the target of a repetition stands below the child or is the child itself. -/
theorem next_under (here : f.location = ⟨l.routine, q ++ c :: l.path⟩) {m : Nat} (low : m ≤ q.length) (j : Int) :
    Under l c (f.above l.path) below ({ f.pop m with comingFrom := j } :: below) := by
  have path := path_of_location here
  refine ⟨[], _, q.drop m, rfl, ?_, above_pop (f := f) ?_⟩
  · change (f.pop m).location = _
    rw [pop, path, here, List.drop_append_of_le_length low]
  · rw [path, List.length_append, List.length_cons]
    omega

end Frame

namespace Simulator

variable {s : Simulator} {t r : Transition} {ps : ProcessState} {top : Frame} {below fs : List Frame}
  {e : Expr} {n : Nat} {b : Bool} {l : Location} {c : Int} {q : Path} {ls : List Level}

/-- A step that is no jump. -/
theorem Shifts.under (h : s.Shifts t ps top below (some e) n b fs) (calm : e.isJump = false)
    (here : top.location = ⟨l.routine, q ++ c :: l.path⟩) :
    Under l c (top.above l.path) below fs ∨ Back l c (top.above l.path) below fs := by
  cases h with
  | enter j => exact .inl (Frame.enter_under here j)
  | finish _ _ => exact Frame.finish_under here _
  | exit same | next same =>
      obtain rfl := Option.some.inj same
      cases calm
  | call => exact .inl ⟨[_], top, q, rfl, here, rfl⟩
  | returns returns =>
      have returning := returns e rfl
      cases e with
      | ret => cases calm
      | _ => cases returning

/-- What a called routine does. -/
theorem Shifts.called {o : Option Expr} {called : List Frame} {f : Frame}
    (h : s.Shifts t ps top (called ++ f :: below) o n b fs) :
    ∃ called' f', fs = called' ++ f' :: below ∧ f'.location = f.location ∧ f'.levels.drop 1 = f.levels.drop 1 := by
  have kept : ∀ g : Frame, ∃ called' f', g :: (called ++ f :: below) = called' ++ f' :: below ∧
      f'.location = f.location ∧ f'.levels.drop 1 = f.levels.drop 1 := fun g => ⟨g :: called, f, rfl, rfl, rfl⟩
  cases h with
  | enter | finish | exit | next => exact kept _
  | call => exact ⟨_ :: top :: called, f, rfl, rfl, rfl⟩
  | returns _ returned =>
      cases returned with
      | @back caller rest v same hv =>
          cases called with
          | nil =>
              obtain ⟨rfl, rfl⟩ := List.cons.inj same
              refine ⟨[], _, rfl, ?_, ?_⟩
              · rw [Frame.put_location]
              · rw [Frame.drop_put]
          | cons g called =>
              obtain ⟨rfl, rfl⟩ := List.cons.inj same
              exact ⟨_ :: called, f, rfl, rfl, rfl⟩
      | ends none => simp at none

/-- The parts of a small step on an expression. -/
theorem smallStep_at (unfrozen : t.frozen = false) (firm : ∀ f ∈ t.frames, f.Firm)
    (hframes : t.frames = top :: below) (he : s.program.system.at? top.location = some e) :
    ∃ ps, t.running? = some ps ∧ (s.smallStep t).result =
      (s.setup.observer.announce s.program t.resetAccesses e).result >>= fun scratch =>
        (s.exprStep { t.resetAccesses with scratch } ps top e).result >>= fun st =>
          (s.observeResults st.expr st.comingFrom st.results).result >>= fun results => .ok { st with results } := by
  obtain ⟨ps, hps, -⟩ := frames_eq_cons.1 hframes
  have running : t.resetAccesses.running? = some ps := hps
  have head : t.resetAccesses.top? = some top := top?_of_frames hframes
  refine ⟨ps, hps, ?_⟩
  rw [smallStep_eq unfrozen firm]
  unfold advance
  rw [running, head]
  obtain ⟨i, up, path⟩ := Frame.index_of_at? he
  simp only [path, Run.result_bind, Program.at?, he, bind_assoc]

/-- A small step on an expression, as far as frames are concerned. -/
theorem smallStep_frames {st : SmallStep} (hframes : t.frames = top :: below)
    (he : s.program.system.at? top.location = some e) (hst : (s.smallStep t).result = .ok st) :
    ∃ u ps st₀, u.frames = top :: below ∧ u.running? = some ps ∧ (s.exprStep u ps top e).result = .ok st₀ ∧
      st.ends = st₀.ends ∧ List.Forall₂ (fun r₀ r => r.frames = r₀.frames) st₀.results st.results := by
  obtain ⟨st₀, rs, hadv, hobs, rfl⟩ := smallStep_cases hst
  obtain ⟨ps, top', hps, htop, step⟩ := advance_cases hadv
  obtain rfl : top' = top := Option.some.inj (htop.symm.trans (top?_of_frames hframes))
  obtain ⟨i, up, path⟩ := Frame.index_of_at? he
  obtain ⟨body, -⟩ | ⟨_, _, e', sc, -, he', -, hst₀⟩ := step
  · cases body.symm.trans path
  obtain rfl : e' = e := Option.some.inj (he'.symm.trans he)
  refine ⟨{ t.resetAccesses with scratch := sc }, ps, st₀, hframes, hps, hst₀, rfl,
    (observeResults_alike hobs).imp fun r₀ r alike => ?_⟩
  rw [frames, frames, Transition.running?, Transition.running?, alike.proc, alike.state]

/-- A result of a small step on an expression, as far as frames are concerned. -/
theorem smallStep_frame {st : SmallStep} (hframes : t.frames = top :: below)
    (he : s.program.system.at? top.location = some e) (hst : (s.smallStep t).result = .ok st) (hr : r ∈ st.results) :
    ∃ u ps st₀, u.frames = top :: below ∧ (s.exprStep u ps top e).result = .ok st₀ ∧
      ∃ r₀ ∈ st₀.results, r.frames = r₀.frames := by
  obtain ⟨u, ps, st₀, hu, -, hst₀, -, results⟩ := smallStep_frames hframes he hst
  obtain ⟨length, same⟩ := List.forall₂_iff_get.1 results
  obtain ⟨i, hi, rfl⟩ := List.getElem_of_mem hr
  exact ⟨u, ps, st₀, hu, hst₀, _, List.get_mem _ _, same i (length ▸ hi) hi⟩

/-- A small step of code that does not jump any further. -/
theorem smallStep_under {st : SmallStep} (h : Under l c ls below t.frames)
    (calm : ∀ f q e, t.frames = f :: below → f.location = ⟨l.routine, q ++ c :: l.path⟩ →
      s.program.system.at? f.location = some e → e.isJump = false)
    (hst : (s.smallStep t).result = .ok st) (hr : r ∈ st.results) :
    Under l c ls below r.frames ∨ Back l c ls below r.frames := by
  obtain ⟨ps, top, rest, o, es, -, hframes, shifts, body, located, -⟩ := smallStep_shifts hst hr
  obtain ⟨called, f, q, same, here, kept⟩ := h
  rw [hframes] at same
  cases called with
  | nil =>
      obtain ⟨rfl, rfl⟩ := List.cons.inj same
      cases o with
      | none =>
          have path := body rfl
          rw [Frame.path_of_location here] at path
          simp at path
      | some e =>
          rw [← kept]
          exact shifts.under (calm top q e hframes here (located e rfl)) here
  | cons g called =>
      obtain ⟨rfl, rfl⟩ := List.cons.inj same
      obtain ⟨called', f', frames, location, levels⟩ := shifts.called
      refine .inl ⟨called', f', q, frames, location.trans here, ?_⟩
      rw [← kept]
      exact Frame.above_congr (by rw [Frame.path, location]; rfl) levels

section Jumps

variable {st : SmallStep} {id : Nat} {label : String} (hframes : t.frames = top :: below)

include hframes

theorem smallStep_exit (he : s.program.system.at? top.location = some (.exit id label))
    (hst : (s.smallStep t).result = .ok st) (hr : r ∈ st.results) : ∃ m target j,
      s.program.system.target? top.location.routine label true 1 top.path.tail = some (m, target) ∧
      top.path[m]? = some j ∧ r.frames = { top.pop (m + 1) with comingFrom := j }.put j none :: below := by
  obtain ⟨u, ps, st₀, hu, hst₀, r₀, hr₀, same⟩ := smallStep_frame hframes he hst hr
  have hst₀ : s.exitStep u top (.exit id label) label = .ok st₀ := hst₀
  obtain ⟨m, target, j, htarget, hj, rfl⟩ := exitStep_cases hst₀
  obtain rfl := List.mem_singleton.1 hr₀
  have popped := frames_mapTop (t := u.mapConditions (·.dropThrough target.id)) hu (·.pop (m + 1))
  exact ⟨m, target, j, htarget, Frame.outermost?_succ_eq_some hj, same.trans (frames_comeFrom popped j none)⟩

theorem smallStep_next (he : s.program.system.at? top.location = some (.next id label))
    (hst : (s.smallStep t).result = .ok st) (hr : r ∈ st.results) : ∃ m target j,
      s.program.system.target? top.location.routine label false 1 top.path.tail = some (m, target) ∧
      r.frames = { top.pop m with comingFrom := j } :: below := by
  obtain ⟨u, ps, st₀, hu, hst₀, r₀, hr₀, same⟩ := smallStep_frame hframes he hst hr
  have hst₀ : s.nextStep u top (.next id label) label = .ok st₀ := hst₀
  obtain ⟨m, target, _, htarget, -, rfl⟩ := nextStep_cases hst₀
  obtain rfl := List.mem_singleton.1 hr₀
  exact ⟨m, target, _, htarget, same.trans (frames_mapTop (t := u.mapConditions _) hu _)⟩

/-- A return evaluates its value first, if it has one. -/
theorem smallStep_return {value : Option Expr} (he : s.program.system.at? top.location = some (.ret id value))
    (hst : (s.smallStep t).result = .ok st) (hr : r ∈ st.results) :
    (value.isSome = true ∧ top.comingFrom = -1 ∧ r.frames = top.enter 0 :: below) ∨
      (value = none ∨ top.comingFrom ≠ -1) ∧ ∃ u, Returns u top below r.frames := by
  obtain ⟨u, ps, st₀, hu, hst₀, r₀, hr₀, same⟩ := smallStep_frame hframes he hst hr
  rw [same]
  unfold exprStep at hst₀
  dsimp only at hst₀
  split at hst₀
  · rename_i first
    obtain ⟨start, some⟩ := Bool.and_eq_true_iff.1 first
    obtain rfl := Run.pure_result_iff.1 hst₀
    obtain rfl := List.mem_singleton.1 hr₀
    exact .inl ⟨some, of_decide_eq_true start, frames_mapTop hu _⟩
  · rename_i later
    obtain rfl := Run.pure_result_iff.1 hst₀
    refine .inr ⟨?_, u, returnFrom_returns hu ?_ r₀ hr₀⟩
    · cases value with
      | none => exact .inl rfl
      | some v => exact .inr (by simpa using later)
    · split
      · exact .inr rfl
      · exact .inl rfl

end Jumps

end Simulator

end DeltaSlice
