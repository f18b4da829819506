import DeltaSlice.Proofs.Safety.Transitions

/-!
Small steps do not break. Code that runs in a sound frame of a sound state goes on in one, or it comes to its
end and leaves every process with a frame to go on with.
-/

namespace DeltaSlice

open Transition

/-- Every result of the step goes on in a sound frame or is the end of the code. -/
def SmallStep.Sound (s : Simulator) (entry : Option NodeId) (st : SmallStep) : Prop :=
  ∀ r ∈ st.results, r.Runs s entry ∧
    (r.Awake s.program.system ∨ st.expr = none ∧ st.ends = true ∧ r.state.Framed)

namespace SmallStep

variable {s : Simulator} {entry : Option NodeId} {st : SmallStep} {e : Option Expr} {i : Int} {r : Transition}

theorem All.sound (h : st.All fun r => r.Runs s entry ∧ r.Awake s.program.system) : st.Sound s entry :=
  fun r hr => ⟨(h r hr).1.1, .inl (h r hr).1.2⟩

theorem Sound.one (h : r.Runs s entry ∧ r.Awake s.program.system) : (SmallStep.one e i r).Sound s entry :=
  All.sound (All.one h)

end SmallStep

namespace System

variable {sys : System} {r : Routine} {label : String} {exits : Bool} {n m : Nat} {up : Path} {e : Expr}
  {l : Location}

/-- The target of an exit or repetition stands somewhere above. -/
theorem target?_cases (h : sys.target? r label exits n up = some (m, e)) :
    ∃ k i rest, m = n + k ∧ up.drop k = i :: rest ∧ sys.at? ⟨r, i :: rest⟩ = some e ∧
      e.isTarget label exits = true := by
  induction up generalizing n with
  | nil => cases h
  | cons i up ih =>
      unfold target? at h
      split at h
      · cases h
      · rename_i q hq
        split at h
        · rename_i target
          obtain ⟨rfl, rfl⟩ := Prod.mk.inj (Option.some.inj h)
          exact ⟨0, i, up, rfl, rfl, hq, target⟩
        · obtain ⟨k, j, rest, rfl, drop, found⟩ := ih h
          exact ⟨k + 1, j, rest, by omega, drop, found⟩

/-- The target that is looked for from the expression above stands at that many levels up. -/
theorem target?_tail {path : Path} (h : sys.target? r label exits 1 path.tail = some (m, e)) :
    ∃ i rest, m < path.length ∧ path.drop m = i :: rest ∧ sys.at? ⟨r, i :: rest⟩ = some e ∧
      e.isTarget label exits = true := by
  obtain ⟨k, i, rest, rfl, drop, found⟩ := target?_cases h
  rw [List.drop_tail, Nat.add_comm] at drop
  refine ⟨i, rest, ?_, drop, found⟩
  rw [← Nat.sub_pos_iff_lt, ← List.length_drop, drop]
  exact Nat.succ_pos _

/-- The child of its list that an exit leaves. -/
theorem target?_index {path : Path} {j : Int} (h : sys.target? r label exits 1 path.tail = some (m, e))
    (hj : path[m]? = some j) :
    ∃ up, m < path.length ∧ path.drop m = j :: up ∧ path.drop (m + 1) = up ∧ sys.at? ⟨r, j :: up⟩ = some e := by
  obtain ⟨i, up, within, drop, found, -⟩ := target?_tail h
  obtain rfl : i = j := by
    rw [← List.head?_drop, drop] at hj
    exact Option.some.inj hj
  refine ⟨up, within, drop, ?_, found⟩
  rw [← List.tail_drop, drop]
  rfl

/-- Only variables and fields are assigned to. -/
theorem not_isAssigned (proper : sys.isProper = true) (he : sys.at? l = some e)
    (names : ∀ id d, e ≠ .var id d) (fields : ∀ id x m d, e ≠ .access id x (.var m d)) :
    sys.isAssigned l = false := by
  rw [Bool.eq_false_iff]
  intro assigned
  obtain ⟨id, d, same⟩ | ⟨id, x, m, d, same, -⟩ := sys.assigned_place proper he assigned
  · exact names id d same
  · exact fields id x m d same

end System

namespace Simulator

variable {s : Simulator} {entry : Option NodeId} {t : Transition} {top : Frame} {below : List Frame}
  {ps : ProcessState} {e : Expr} {x : Value}

section

variable (proper : s.Proper) (h : t.Runs s entry)

include proper h in
/-- At its end, code leaves every process with a frame, or at its end as well. -/
theorem endOfCode_sound (empty : t.frames = []) : (endOfCode t).Sound s entry := by
  unfold endOfCode
  cases hp : t.proc with
  | none =>
      intro r hr
      obtain rfl := List.mem_singleton.1 hr
      exact ⟨h, .inr ⟨rfl, rfl, h.framed fun p ps hp' => by rw [hp] at hp'; cases hp'⟩⟩
  | some p =>
      have own : ∀ f : ProcessState → ProcessState, (∀ ps, (f ps).Framed) →
          (t.mapRunning f).Runs s entry → (t.mapRunning f).state.Framed := by
        intro f framed runs
        refine runs.framed fun q ps hq hps => ?_
        have running : (t.mapRunning f).running? = some ps := by
          unfold running?
          rw [hq]
          exact hps
        rw [running?_mapRunning] at running
        obtain ⟨ps', -, rfl⟩ := Option.map_eq_some_iff.1 running
        exact framed ps'
      dsimp only
      split
      · have runs : (t.mapRunning (·.block (some .terminated))).Runs s entry :=
          h.mapRunning fun ps _ hps => hps.block _
        intro r hr
        obtain rfl := List.mem_singleton.1 hr
        exact ⟨runs, .inr ⟨rfl, rfl, own _ (fun ps => .inl rfl) runs⟩⟩
      · have classed : (Value.lit (.inst p.inst)).Classed s.program.system :=
          Value.classed_lit (proper.instances p (h.proc p hp))
        have runs : (t.mapRunning fun ps => (ps.block (some (.events (.of p.sensitivity true none)))).push
            (.start p.routine (.lit (.inst p.inst)))).Runs s entry := by
          refine h.mapRunning fun ps hps sound => (sound.block _).push (.start _ classed) fun top htop => ?_
          unfold frames at empty
          rw [hps] at empty
          have none : ps.stack = [] := empty
          have htop : ps.stack.head? = some top := htop
          rw [none] at htop
          cases htop
        intro r hr
        obtain rfl := List.mem_singleton.1 hr
        exact ⟨runs, .inr ⟨rfl, rfl, own _ (fun ps => .inr (List.cons_ne_nil _ _)) runs⟩⟩

include proper h in
theorem returnFrom_sound (hframes : t.frames = top :: below) (hx : x.Classed s.program.system)
    (o : Option Expr) (i : Int) : (s.returnFrom t o i x).Sound s entry := by
  have popped : (t.editRunning ProcessState.editPop).Runs s entry := by
    rw [editPop_eq]
    exact (h.mapRunning fun ps _ hps => hps.pop).note _
  have hbelow : (t.editRunning ProcessState.editPop).frames = below :=
    (frames_editPop t).trans (congrArg List.tail hframes)
  unfold returnFrom
  dsimp only
  split
  · rename_i none
    rw [top?_eq_head?] at none
    exact endOfCode_sound proper popped (List.head?_eq_none_iff.1 none)
  · rename_i caller hcaller
    rw [top?_eq_head?, hbelow] at hcaller
    obtain ⟨rest, rfl⟩ := List.head?_eq_some_iff.1 hcaller
    have calls := h.callers hframes caller List.mem_cons_self
    obtain ⟨back, awake⟩ := popped.comeFrom hbelow ((popped.sound_top hbelow).return calls hx)
    obtain ⟨top', below', stack⟩ := exists_frames_of_awake awake
    have back := back.mapScratch (f := fun sc => { sc with conditions := sc.conditions.leaveCall }) rfl
    split
    · rename_i r _ _
      have dropped := back.mapRunning fun ps _ hps => hps.dropParams r
      refine .one ⟨dropped, awake_of_frames dropped.toHeld ((frames_mapRunning fun ps => ?_).trans stack)⟩
      unfold dropParams
      generalize r :: ps.routines = names
      induction r.params generalizing ps with
      | nil => rfl
      | cons d ds ih => exact ih _
    · exact .one ⟨back, awake_of_frames back.toHeld stack⟩

include proper h in
theorem bodyStep_sound (hframes : t.frames = top :: below) (body : top.path = []) :
    (s.bodyStep t top).Sound s entry := by
  obtain ⟨es, hes, low, -⟩ := (h.sound_top hframes).scope
  have location : top.location = ⟨top.location.routine, []⟩ := Frame.location_of_path body
  obtain rfl : s.program.system.body top.location.routine = es := by
    rw [location] at hes
    exact Option.some.inj hes
  unfold bodyStep
  dsimp only
  split
  · exact .one (h.enter hframes hes (by omega))
  · exact returnFrom_sound proper h hframes (.of_none rfl) _ _

include h in
theorem exitStep_unbroken (hframes : t.frames = top :: below) (e : Expr) (label : String) :
    Unbroken (SmallStep.Sound s entry) (s.exitStep t top e label) := by
  unfold exitStep
  split
  · exact .failed
  · rename_i levels target htarget
    obtain ⟨j, up, inside, drop, found, -⟩ := System.target?_tail htarget
    have index : top.path[levels]? = some j := by
      rw [← List.head?_drop, drop]
      rfl
    have outer : (top.pop (levels + 1)).location = ⟨top.location.routine, up⟩ := by
      rw [Frame.pop, ← List.tail_drop, drop]
      rfl
    obtain ⟨es, hes, hj⟩ := Option.bind_eq_some_iff.1 found
    have hes : s.program.system.scope? ⟨top.location.routine, up⟩ = some es := hes
    obtain ⟨low, high⟩ := elementAt?_lt hj
    obtain ⟨n, rfl⟩ := Int.eq_ofNat_of_zero_le low
    rw [Frame.outermost?_succ (h.sound_top hframes).levels, index]
    have noted := h.mapScratch (f := fun sc => { sc with conditions := sc.conditions.dropThrough target.id }) rfl
    have back := (h.sound_top hframes).back (levels + 1) inside (outer ▸ hes) (by omega) high
    obtain ⟨runs, awake⟩ := noted.mapTop hframes (back.put n fun _ none => by cases none)
      (f := fun f => { f.pop (levels + 1) with comingFrom := (n : Int) }.put n none)
    refine .ok (.one ?_)
    rw [exit_eq]
    exact ⟨runs.note _, awake⟩

include h in
theorem nextStep_unbroken (hframes : t.frames = top :: below) (e : Expr) (label : String) :
    Unbroken (SmallStep.Sound s entry) (s.nextStep t top e label) := by
  unfold nextStep
  split
  · exact .failed
  · rename_i levels target htarget
    obtain ⟨j, up, inside, drop, found, loop⟩ := System.target?_tail htarget
    obtain ⟨k, -, -, rfl, -⟩ := System.target?_cases htarget
    have index : top.path[k]? = some top.path[k] := List.getElem?_eq_getElem (by omega)
    rw [Nat.add_comm 1 k] at inside drop ⊢
    rw [Frame.outermost?_succ (h.sound_top hframes).levels, index]
    have here : (top.pop (k + 1)).location = ⟨top.location.routine, j :: up⟩ := by rw [Frame.pop, drop]
    have noted := h.mapScratch (f := fun sc => { sc with conditions := sc.conditions.dropAbove target.id }) rfl
    have last : ∀ j : Int, -1 ≤ j → j < target.children.length → Frame.Sound s.program.system
        { top.pop (k + 1) with comingFrom := j } := fun j low high =>
      (h.sound_top hframes).back (k + 1) (by omega) (here ▸ System.scope?_of_at? found) low high
    refine .ok (.one (noted.mapTop hframes (last _ ?_ ?_)))
    · split <;> omega
    · cases target <;> simp [Expr.isTarget, Expr.children] at loop ⊢

end

end Simulator

end DeltaSlice
