import DeltaSlice.Proofs.Step.Disciplines
import DeltaSlice.Proofs.Step.Begins

/-!
Code obeys disciplines. Small steps keep a discipline, whatever the program, as long as the amounts of time that
are evaluated give delays of the discipline; so it holds in every state that can be reached, and wherever code
comes to.
-/

namespace DeltaSlice

open Transition

/-- A number and a unit of time. -/
def Value.amount? (x y : Value) : Option (Int64 × TimeUnit) :=
  x.asInt?.bind fun n => y.asUnit?.map fun u => (n, u)

/-- The amount of time that an expression takes from the results of its children: that of a notification, or that
of a wait. -/
def Frame.amountAt? (top : Frame) : Expr → Option (Int64 × TimeUnit)
  | .notify _ _ (_ :: _ :: _) => (top.value 0 1).amount? (top.value 0 2)
  | .call _ .wait args => if args.length = 2 ∨ args.length = 3 then (top.value 0 0).amount? (top.value 0 1) else none
  | _ => none

namespace System

variable {sys : System} {l : Location} {e : Expr} {c : Int}

/-- Below an expression, only the left side of an assignment and the member of an access are assigned to. -/
theorem child_free (he : sys.at? l = some e) (left : ∀ id x y, c = 0 → e ≠ .binary id .assign x y)
    (member : ∀ id x m, c = 1 → e ≠ .access id x m) : sys.isAssigned ⟨l.routine, c :: l.path⟩ = false := by
  refine Bool.eq_false_iff.2 fun assigned => ?_
  rcases isAssigned_cases assigned with ⟨zero, id, x, y, hat⟩ | ⟨one, _, id, x, m, _, _, _, -, hat, -⟩
  · exact left id x y zero (Option.some.inj (he.symm.trans hat))
  · exact member id x m one (Option.some.inj (he.symm.trans hat))

/-- If the member of an access is assigned to, then so is the access. -/
theorem isAssigned_of_member {id : Nat} {x m : Expr} (he : sys.at? l = some (.access id x m))
    (assigned : sys.isAssigned ⟨l.routine, 1 :: l.path⟩ = true) : sys.isAssigned l = true := by
  obtain ⟨r, path⟩ := l
  rcases isAssigned_cases assigned with ⟨zero, -⟩ | ⟨-, up, _, _, _, _, _, _, rfl, -, hat⟩
  · cases zero
  · exact isAssigned_left hat

/-- What stands before a member is not assigned to. -/
theorem receiver_free (qualified : sys.isQualified l = true) :
    sys.isAssigned ⟨l.routine, 0 :: l.path.drop 1⟩ = false := by
  unfold isQualified at qualified
  split at qualified
  · rename_i i up id x m path above
    have above : sys.at? ⟨l.routine, up⟩ = some (.access id x m) := by
      rw [above?, Location.parent, path] at above
      exact above
    rw [path]
    exact child_free above (by simp) (by simp)
  · cases qualified

end System

namespace Simulator

theorem dropParams_blocker (ps : ProcessState) (r : Routine) : (dropParams ps r).blocker = ps.blocker := by
  unfold dropParams
  generalize r :: ps.routines = stack
  induction r.params generalizing ps with
  | nil => rfl
  | cons d ds ih => exact ih _

/-- A local variable that still has a value is no parameter of the frame. -/
theorem get?_dropParams {ps : ProcessState} {r : Routine} {v : Variable} {x : Value}
    (hx : (dropParams ps r).locals.get? v = some x) :
    ps.locals.get? v = some x ∧ ∀ d ∈ r.params, v ≠ .ofFrame (r :: ps.routines) (.decl d) := by
  unfold dropParams at hx
  generalize r :: ps.routines = stack at hx ⊢
  generalize r.params = ds at hx ⊢
  induction ds generalizing ps with
  | nil => exact ⟨hx, by simp⟩
  | cons d ds ih =>
      obtain ⟨hx, others⟩ := ih hx
      have hx : (ps.locals.erase (.ofFrame stack (.decl d))).get? v = some x := hx
      rw [Table.get?_erase] at hx
      split at hx
      · cases hx
      · rename_i other
        exact ⟨hx, List.forall_mem_cons.2 ⟨other, others⟩⟩

variable {s : Simulator} {D : Discipline s} {t u r : Transition} {ps : ProcessState} {top : Frame}
  {below : List Frame} {e : Expr} {st : SmallStep}

/-- Whatever amounts of time are evaluated give delays of the discipline. -/
def Measured (D : Discipline s) (top : Frame) (e : Expr) : Prop :=
  ∀ n u d, top.amountAt? e = some (n, u) → Delay.ofAmount n u = .ok d → D.delay d

/-- A return to the caller is one change of the running code. -/
theorem returned_state (t : Transition) (i : Int) (x : Option Value) (c : Conditions → Conditions)
    (f : ProcessState → ProcessState) :
    ((((t.editRunning ProcessState.editPop).editTop (Frame.editComeFrom i x)).mapConditions c).mapRunning f).state =
      (t.mapRunning fun ps => f (ps.pop.mapTop fun g => { g with comingFrom := i }.put i x)).state := by
  have back : ∀ u : Transition, (((u.editTop (Frame.editComeFrom i x)).mapConditions c).mapRunning f).state =
      (u.mapRunning fun ps => f (ps.mapTop fun g => { g with comingFrom := i }.put i x)).state := fun u => by
    rw [comeFrom_eq, mapConditions_mapRunning_state, note_mapRunning_state, mapTop, mapRunning_mapRunning]
    rfl
  rw [back, editPop_eq, note_mapRunning_state, mapRunning_mapRunning]
  rfl

namespace Obeying

/-- At its end, code leaves no frame, or that with which a process starts over. -/
theorem endOfCode (h : t.state.Obeys D) (member : ∀ p, t.proc = some p → p ∈ s.procs) (empty : t.frames = []) :
    ∀ r ∈ (Simulator.endOfCode t).results, r.state.Obeys D := by
  intro r hr
  obtain rfl := List.mem_singleton.1 hr
  split
  · exact h
  · rename_i p hp
    split
    · exact mapRunning_obeys h fun ps _ obeys => obeys.block (by simp [Blocker.timeout?])
    · refine mapRunning_obeys h fun ps hps obeys => ?_
      have stack : ps.stack = [] := by simpa [frames, hps] using empty
      have waits : (ps.block (some (.events (.of p.sensitivity true none)))).Obeys D :=
        obeys.block fun d hd => by cases hd
      refine waits.push ?_
      rw [ProcessState.block, stack]
      exact .single (.start _ (D.inst _)) (.process (member p hp))

section

variable (h : t.state.Obeys D) (member : ∀ p, t.proc = some p → p ∈ s.procs) (hframes : t.frames = top :: below)

include h member hframes

/-- Returns end the frame and all that it held. -/
theorem returnFrom {o : Option Expr} {i : Int} {x : Value} (hx : D.plain x) :
    ∀ r ∈ (s.returnFrom t o i x).results, r.state.Obeys D := by
  obtain ⟨ps, hps, stack⟩ := frames_eq_cons.1 hframes
  have popped : (t.editRunning ProcessState.editPop).running? = some ps.pop := by
    rw [editPop_eq, running?_note, running?_mapRunning, hps]
    rfl
  have remains : ps.pop.stack = below := by rw [ProcessState.pop, stack]; rfl
  unfold Simulator.returnFrom
  dsimp only
  split
  · rename_i none
    obtain rfl : below = [] := by
      rw [top?, popped, Option.bind_some, ProcessState.top?, remains] at none
      exact List.head?_eq_none_iff.1 none
    have popped_proc := ((Keeps.refl t).editRunning ProcessState.editPop).proc
    refine endOfCode ?_ (popped_proc ▸ member) (by simp [frames, popped, remains])
    rw [editPop_eq]
    refine mapRunning_obeys h fun q hq obeys => ?_
    obtain rfl := Option.some.inj (hps.symm.trans hq)
    exact obeys.leave stack
  · rename_i caller hcaller
    obtain ⟨rest, rfl⟩ : ∃ rest, below = caller :: rest := by
      rw [top?, popped, Option.bind_some, ProcessState.top?, remains] at hcaller
      exact List.head?_eq_some_iff.1 hcaller
    have obey := top_obeys h hframes
    obtain ⟨id, args, hcall, last⟩ := obey.called
    have called : s.program.at? caller.location = some (.call id top.location.routine args) := hcall
    intro r hr
    obtain rfl := List.mem_singleton.1 hr
    rw [called]
    dsimp only
    rw [returned_state]
    refine mapRunning_obeys h fun q hq obeys => ?_
    obtain rfl := Option.some.inj (hps.symm.trans hq)
    generalize hg : ({ caller with comingFrom := caller.comingFrom + 1 }.put (caller.comingFrom + 1) (some x)) = back
    have location : back.location = caller.location := by rw [← hg, Frame.put_location]
    have changed : ps.pop.mapTop (fun f => { f with comingFrom := caller.comingFrom + 1 }.put
        (caller.comingFrom + 1) (some x)) = { ps with stack := back :: rest } := by
      unfold ProcessState.mapTop
      rw [remains, ← hg]
      rfl
    have routines : ProcessState.routines { ps with stack := back :: rest } =
        (caller :: rest).map (·.location.routine) := by
      simp [ProcessState.routines, location]
    rw [changed]
    refine ⟨?_, fun v y hy => ?_, ?_⟩
    · rw [dropParams_stack]
      refine obey.pop.replace (congrArg _ location) ?_
      rw [← hg]
      refine Frame.Obeys.put (f := { caller with comingFrom := caller.comingFrom + 1 })
        ⟨obey.pop.top.receiver, obey.pop.top.results⟩ _ fun y hy => ?_
      obtain rfl := Option.some.inj hy
      refine .of_plain hx fun id' c hc => ?_
      have inside := elementAt?_lt ((System.at?_cons hcall).symm.trans hc)
      simp only [Expr.children] at inside
      omega
    · obtain ⟨hy, others⟩ := get?_dropParams hy
      obtain ⟨plain, held⟩ := obeys.locals v y hy
      refine ⟨plain, ?_⟩
      rw [ProcessState.routines, stack, List.map_cons] at held
      rw [routines] at others
      rw [ProcessState.routines, dropParams_stack]
      exact (show D.held (ProcessState.routines { ps with stack := back :: rest }) v from
        routines ▸ D.pop held others)
    · rw [dropParams_blocker]
      exact obeys.wait

theorem bodyStep : ∀ r ∈ (s.bodyStep t top).results, r.state.Obeys D := by
  unfold Simulator.bodyStep
  dsimp only
  split
  · exact fun r hr => List.mem_singleton.1 hr ▸ enter_obeys h hframes _
  · exact returnFrom h member hframes D.unknown

end

/-- Steps that steer. -/
theorem steers {i : Int} {n : Nat} (he : s.program.system.at? top.location = some e)
    (other : ∀ id c, e ≠ .const id c) :
    DeltaSlice.Steers s i n (fun r => r.state.Obeys D ∧ r.frames = top :: below) fun r => r.state.Obeys D where
  conditions _ h := h
  enter j _ h := enter_obeys h.1 h.2 j
  finish v result h := by
    refine finish_obeys h.1 h.2 he (.of_plain (D.simple ?_) fun id c hc => ?_)
    · rcases result with rfl | ⟨b, rfl⟩
      · exact .unknown
      · exact .bool b
    · exact other id c (Option.some.inj (he.symm.trans hc))

/-- Leaving an expression other than a constant with a plain value. -/
theorem finish (h : u.state.Obeys D) (hframes : u.frames = top :: below)
    (he : s.program.system.at? top.location = some e) (other : ∀ id c, e ≠ .const id c) {x : Value}
    (hx : D.plain x) : (u.finish s.program.system x).state.Obeys D :=
  finish_obeys h hframes he (.of_plain hx fun id c hc => other id c (Option.some.inj (he.symm.trans hc)))

/-- A local variable gets a value only if the discipline allows it. -/
theorem store (h : t.state.Obeys D) {v : Variable} {x : Value} (hx : D.plain x)
    (hv : v.isLocal = true → s.setup.tracksVariable v = true →
      ∀ ps, t.running? = some ps → D.held ps.routines v) : (s.store t v x).state.Obeys D := by
  unfold Simulator.store
  split
  · rename_i tracked
    split
    · rename_i isLocal
      exact mapRunning_obeys h fun ps hps obeys => obeys.setLocal (hv isLocal tracked ps hps) hx
    · exact h.setValue v hx
  · exact h

/-- What stands for a variable may stand where it stands, and its value may stand anywhere. -/
theorem readVariable (h : t.state.Obeys D) (hframes : t.frames = top :: below) {ps : ProcessState} {id : Nat}
    {d : Decl} (hps : t.running? = some ps) (he : s.program.system.at? top.location = some (.var id d)) :
    D.At top.location ((top :: below).map (·.location.routine)) (s.readVariable t ps top d).1 ∧
      (s.readVariable t ps top d).2.state.Obeys D ∧ (s.readVariable t ps top d).2.frames = top :: below := by
  obtain ⟨q, hq, stack⟩ := frames_eq_cons.1 hframes
  obtain rfl := Option.some.inj (hps.symm.trans hq)
  have routines : ps.routines = (top :: below).map (·.location.routine) := by rw [ProcessState.routines, stack]
  have other : ∀ id' c, s.program.system.at? top.location ≠ some (.const id' c) := fun id' c hc => by
    cases Option.some.inj (he.symm.trans hc)
  unfold Simulator.readVariable
  dsimp only
  split
  · rename_i assigned
    refine ⟨?_, h, hframes⟩
    split
    · refine ⟨?_, fun free => absurd assigned (by simp [free]), fun id c hc => absurd hc (other id c)⟩
      unfold referenced
      split
      · dsimp only
        split
        · exact D.global _ _ _
        · exact D.global _ _ _
      · rename_i own
        rw [routines]
        exact D.own (top_obeys h hframes).arises he assigned (by simpa using own)
    · exact .of_plain D.unknown other
  · refine ⟨.of_plain ?_ other, h, hframes⟩
    split
    · unfold load
      split
      · cases hx : ps.locals.get? (s.referenced ps top d) with
        | none => exact D.unknown
        | some x => exact ((running_obeys h hps).locals _ x hx).1
      · cases hx : t.state.global.values.get? (s.referenced ps top d) with
        | none => exact D.unknown
        | some x => exact h.values _ x hx
    · exact D.unknown

section

variable (h : t.state.Obeys D) (hframes : t.frames = top :: below)
  (he : s.program.system.at? top.location = some e)

include h hframes he

theorem aggregate {x : Value} (hx : s.aggregate t top e = .ok (x, r)) (other : ∀ id c, e ≠ .const id c) :
    D.At top.location ((top :: below).map (·.location.routine)) x ∧ r.state.Obeys D ∧ r.frames = top :: below := by
  have obeys := (top_obeys h hframes).top
  have result : ∀ {y}, D.plain y → D.At top.location ((top :: below).map (·.location.routine)) y := fun hy =>
    .of_plain hy fun id c hc => other id c (Option.some.inj (he.symm.trans hc))
  unfold Simulator.aggregate at hx
  dsimp only at hx
  split at hx
  · obtain ⟨rfl, rfl⟩ := Prod.mk.inj (Except.ok.inj hx)
    exact ⟨result (D.simple (.applyUnary _ _)), h, hframes⟩
  · split at hx
    · cases hx
    · rename_i v target
      obtain ⟨rfl, rfl⟩ := Prod.mk.inj (Except.ok.inj hx)
      have plain : D.plain (top.value 0 1) := obeys.plain (k := 0) (System.child_free he (by simp) (by simp))
      refine ⟨result plain, store (t := t.addWritten v) h plain fun isLocal tracked ps hps => ?_,
        (store_frames _ v _).trans hframes⟩
      obtain ⟨q, hq, stack⟩ := frames_eq_cons.1 hframes
      obtain rfl := Option.some.inj (hq.symm.trans hps)
      rw [ProcessState.routines, stack]
      exact D.target (target ▸ obeys.place 0 0) isLocal tracked
    · cases hx
  · split at hx
    · rename_i op a b assign _ l hl
      obtain ⟨rfl, rfl⟩ := Prod.mk.inj (Except.ok.inj hx)
      have operand : ∀ c, D.plain (top.value 0 c) := fun c =>
        obeys.plain (k := 0) (System.child_free he (fun _ _ _ _ same => assign (Expr.binary.inj same).2.1)
          (by simp))
      refine ⟨result ?_, ⟨h.procs, h.update, h.values, h.pending⟩, hframes⟩
      split at hl
      · exact D.events _ (operand 0) (operand 1) hl
      · cases hl
    · obtain ⟨rfl, rfl⟩ := Prod.mk.inj (Except.ok.inj hx)
      exact ⟨result (D.simple (.apply _ _ _)), h, hframes⟩
  · obtain ⟨rfl, rfl⟩ := Prod.mk.inj (Except.ok.inj hx)
    refine ⟨⟨obeys.place 0 1, fun free => obeys.plain (k := 0) ?_, fun id c hc => ?_⟩, h, hframes⟩
    · exact Bool.eq_false_iff.2 fun assigned =>
        absurd (System.isAssigned_of_member he assigned) (Bool.eq_false_iff.1 free)
    · exact absurd (Option.some.inj (he.symm.trans hc)) (by simp)
  · obtain ⟨rfl, rfl⟩ := Prod.mk.inj (Except.ok.inj hx)
    exact ⟨result (obeys.plain (k := 0) (System.child_free he (by simp) (by simp))), h, hframes⟩
  · obtain ⟨rfl, rfl⟩ := Prod.mk.inj (Except.ok.inj hx)
    exact ⟨result D.unknown, h, hframes⟩

theorem aggregateStep (hst : s.aggregateStep t top e = .ok st) (other : ∀ id c, e ≠ .const id c) :
    ∀ r ∈ st.results, r.state.Obeys D := by
  obtain ⟨-, rfl⟩ | ⟨-, x, u, hx, rfl⟩ := aggregateStep_cases hst
  · exact fun r hr => List.mem_singleton.1 hr ▸ enter_obeys h hframes _
  · obtain ⟨fits, obeys, kept⟩ := aggregate h hframes he hx other
    exact fun r hr => List.mem_singleton.1 hr ▸ finish_obeys obeys kept he fits

end

section

variable (h : t.state.Obeys D) (hframes : t.frames = top :: below)

include h hframes

theorem exitStep {label : String} (hst : s.exitStep t top e label = .ok st) : ∀ r ∈ st.results, r.state.Obeys D := by
  obtain ⟨_, target, _, -, -, rfl⟩ := exitStep_cases hst
  refine fun r hr => List.mem_singleton.1 hr ▸ ?_
  rw [exit_eq]
  refine mapTop_obeys (t := t.mapConditions _) h hframes ?_ fun obeys => ?_
  · rw [Frame.put_location]
    rfl
  · exact (obeys.pop _ _).put _ (by simp)

theorem nextStep {label : String} (hst : s.nextStep t top e label = .ok st) : ∀ r ∈ st.results, r.state.Obeys D := by
  obtain ⟨_, target, _, -, -, rfl⟩ := nextStep_cases hst
  exact fun r hr => List.mem_singleton.1 hr ▸
    mapTop_obeys (t := t.mapConditions _) h hframes rfl fun obeys => obeys.pop _ _

end

theorem notifies (h : t.state.Obeys D) {p : Process} {notified : List Event}
    (told : s.Notifies t p notified r) : r.state.Obeys D := by
  cases told with
  | deaf => exact h
  | hears found =>
      refine h.block found fun d hd => (h.procs _ (List.mem_of_getElem? found)).wait d ?_
      obtain past | same := Blocker.timeout?_hear _ notified
      · rw [past] at hd
        cases hd
      · exact same ▸ hd

theorem notify (h : t.state.Obeys D) {e : Event} {delay : Option Delay} (allowed : ∀ d, delay = some d → D.delay d)
    (hr : (s.notify t e delay).result = .ok r) : r.state.Obeys D := by
  obtain ⟨-, rfl⟩ | ⟨d, rfl, rfl⟩ | ⟨-, told⟩ := notify_cases hr
  · exact h
  · refine h.setPending fun d' hd' => ?_
    rcases Delay.earlier_cases hd' with earlier | later
    · exact h.pending e d' earlier
    · exact allowed d' later
  · exact notifyProcesses_induction (P := fun r => r.state.Obeys D) (fun h told => notifies h told)
      (h.setPending fun _ hd => by cases hd) told

theorem stop (h : t.state.Obeys D) : (s.stop t).state.Obeys D := by
  refine ⟨List.forall_mem_map.2 fun ps hps => ?_, h.update, h.values, fun e d hd => nomatch hd⟩
  split
  · exact h.procs ps hps
  · exact h.procs ps hps
  · exact (h.procs ps hps).block (by simp [Blocker.timeout?])

/-- The payloads of arguments are their results. -/
theorem argumentPayloads_get {i n : Nat} {args : List Payload} (hargs : argumentPayloads top i n = .ok args) :
    args.length = n ∧ ∀ k p, args[k]? = some p → top.value 0 (i + k : Nat) = .known p := by
  induction n generalizing i args with
  | zero =>
      obtain rfl := Except.ok.inj hargs
      exact ⟨rfl, by simp⟩
  | succ n ih =>
      unfold argumentPayloads at hargs
      split at hargs
      · cases hargs
      · rename_i first known
        obtain ⟨rest, hrest, rfl⟩ := Success.map_iff.1 hargs
        obtain ⟨length, others⟩ := ih hrest
        refine ⟨congrArg (· + 1) length, fun k p hp => ?_⟩
        cases k with
        | zero =>
            obtain rfl := Option.some.inj hp
            exact known
        | succ k =>
            rw [← others k p hp, Nat.add_right_comm]
            rfl

/-- What the arguments of a wait stand for is over after a delay of the discipline. -/
theorem blocker?_obeys {p : Process} {args : List Payload} {b : Blocker} (hb : blocker? p args = some b)
    (plain : ∀ x ∈ args, D.plain (.known x))
    (measured : ∀ x y n u d, args[0]? = some x → args[1]? = some y → 2 ≤ args.length → args.length ≤ 3 →
      (Value.known x).amount? (.known y) = some (n, u) → Delay.ofAmount n u = .ok d → D.delay d) :
    ∀ d, Blocker.timeout? (some b) = some d → D.delay d := by
  have amount : ∀ {x y d}, amountOf? x y = some d → args[0]? = some x → args[1]? = some y → 2 ≤ args.length →
      args.length ≤ 3 → D.delay d := by
    intro x y d hd first second low high
    unfold amountOf? at hd
    split at hd
    · exact measured _ _ _ _ d first second low high rfl (Success.toOption_iff.1 hd)
    · cases hd
  have within : ∀ {x d b}, waitWithin? d x = some b → D.delay d →
      ∀ d', Blocker.timeout? (some b) = some d' → D.delay d' := by
    intro x d b hb hd d' hd'
    unfold waitWithin? at hb
    split at hb
    · obtain rfl := Option.some.inj hb
      exact Option.some.inj hd' ▸ hd
    · obtain rfl := Option.some.inj hb
      exact Option.some.inj hd' ▸ hd
    · cases hb
  unfold blocker? at hb
  split at hb
  · obtain rfl := Option.some.inj hb
    simp [Blocker.timeout?, EventList.of]
  · rename_i x
    have hx : D.plain (.known x) := plain x (by simp)
    unfold waitFor? at hb
    split at hb
    · obtain rfl := Option.some.inj hb
      exact fun d hd => D.timeout hx hd
    · obtain rfl := Option.some.inj hb
      simp [Blocker.timeout?, EventList.of]
    · obtain rfl := Option.some.inj hb
      exact fun d hd => Option.some.inj hd ▸ D.literal_delay hx
    · split at hb
      · obtain rfl := Option.some.inj hb
        exact fun d hd => Option.some.inj hd ▸ D.delta
      · cases hb
    · cases hb
  · rename_i x y
    split at hb
    · rename_i d hd
      obtain rfl := Option.some.inj hb
      exact fun d' hd' => Option.some.inj hd' ▸ amount hd rfl rfl (by simp) (by simp)
    · exact within hb (D.literal_delay (plain _ (by simp)))
    · cases hb
  · obtain ⟨d, hd, hb⟩ := Option.bind_eq_some_iff.1 hb
    exact within hb (amount hd rfl rfl (by simp) (by simp))
  · cases hb

/-- The delay of a notification is one of the discipline. -/
theorem delayOf_obeys {id : Nat} {target : Expr} {delays : List Expr} {delay : Option Delay}
    (operand : ∀ c, D.plain (top.value 0 c)) (measured : Measured D top (.notify id target delays))
    (hdelay : delayOf top (.notify id target delays) delays = .ok delay) : ∀ d, delay = some d → D.delay d := by
  match delays with
  | [] =>
      obtain rfl := Except.ok.inj hdelay
      exact fun d hd => nomatch hd
  | [_] =>
      unfold delayOf at hdelay
      dsimp only at hdelay
      split at hdelay
      · cases hdelay
      · rename_i x hx
        obtain rfl := Except.ok.inj hdelay
        have plain := operand 1
        rw [hx] at plain
        exact fun d hd => Option.some.inj hd ▸ D.literal_delay plain
      · split at hdelay
        · obtain rfl := Except.ok.inj hdelay
          exact fun d hd => Option.some.inj hd ▸ D.delta
        · cases hdelay
      · cases hdelay
  | _ :: _ :: _ =>
      unfold delayOf at hdelay
      dsimp only at hdelay
      split at hdelay
      · rename_i n u hn hu
        split at hdelay
        · rename_i d hd
          obtain rfl := Except.ok.inj hdelay
          refine fun d' hd' => Option.some.inj hd' ▸ measured n u d ?_ hd
          rw [Frame.amountAt?, Value.amount?, hn, hu]
          rfl
        · cases hdelay
      · cases hdelay

theorem bindParams (h : t.state.Obeys D) {r : Routine} {stack : List Routine} {ds : List Decl} {xs : List Value}
    (arises : s.Arises (r :: stack)) (called : stack ≠ [])
    (routines : t.frames.map (·.location.routine) = r :: stack) (params : ∀ d ∈ ds, d ∈ r.params)
    (plain : ∀ x ∈ xs, D.plain x) : (s.bindParams (r :: stack) t ds xs).state.Obeys D := by
  have stores : ∀ {u : Transition} {d : Decl} {x : Value}, d ∈ ds → x ∈ xs →
      u.state.Obeys D ∧ u.frames.map (·.location.routine) = r :: stack →
      (s.store u (.ofFrame (r :: stack) (.decl d)) x).state.Obeys D ∧
        (s.store u (.ofFrame (r :: stack) (.decl d)) x).frames.map (·.location.routine) = r :: stack := by
    intro u d x hd hx h
    refine ⟨store h.1 (plain x hx) fun _ tracked ps hps => ?_, (congrArg _ (store_frames _ _ x)).trans h.2⟩
    have same : ps.routines = r :: stack := by
      rw [← h.2, frames, hps]
      rfl
    exact same ▸ D.param arises called (params d hd) tracked
  exact (bindParams_induction
    (P := fun u => u.state.Obeys D ∧ u.frames.map (·.location.routine) = r :: stack)
    (fun _ h => h) stores ⟨h, routines⟩).1

section

variable (h : t.state.Obeys D) (hframes : t.frames = top :: below)

include h hframes

theorem waitStep {id : Nat} {args : List Expr} (he : s.program.system.at? top.location = some (.call id .wait args))
    (measured : Measured D top (.call id .wait args))
    (hst : s.waitStep t top (.call id .wait args) args.length = .ok st) : ∀ r ∈ st.results, r.state.Obeys D := by
  have obeys := (top_obeys h hframes).top
  obtain ⟨p, payloads, b, -, hpayloads, hb, rfl⟩ := waitStep_cases hst
  obtain ⟨length, value⟩ := argumentPayloads_get hpayloads
  have waits : ∀ d, Blocker.timeout? (some b) = some d → D.delay d := by
    refine blocker?_obeys hb (fun x hx => ?_) fun x y n u d hx hy low high amount => ?_
    · obtain ⟨k, hk⟩ := List.getElem?_of_mem hx
      rw [← value k x hk, Nat.zero_add]
      exact obeys.plain (k := 0) (System.child_free he (by simp) (by simp))
    · refine measured n u d ?_
      have two : args.length = 2 ∨ args.length = 3 := by omega
      rw [Frame.amountAt?, if_pos two, ← amount, ← value 0 x hx, ← value 1 y hy]
      rfl
  refine fun r hr => List.mem_singleton.1 hr ▸ mapRunning_obeys ?_ fun ps _ obeys => obeys.block waits
  exact finish h hframes he (by simp) D.unknown

theorem callStep {ps : ProcessState} {id : Nat} {f : Routine} {args : List Expr} (hps : t.running? = some ps)
    (he : s.program.system.at? top.location = some (.call id f args)) (measured : Measured D top (.call id f args))
    (hst : s.callStep t ps top (.call id f args) f args.length = .ok st) : ∀ r ∈ st.results, r.state.Obeys D := by
  have obeys := (top_obeys h hframes).top
  have argument : ∀ c, D.plain (top.value 0 c) := fun c =>
    obeys.plain (k := 0) (System.child_free he (by simp) (by simp))
  obtain ⟨q, hq, stack⟩ := frames_eq_cons.1 hframes
  obtain rfl := Option.some.inj (hps.symm.trans hq)
  cases callStep_cases hst with
  | argument => exact fun r hr => List.mem_singleton.1 hr ▸ enter_obeys h hframes _
  | result => exact fun r hr => List.mem_singleton.1 hr ▸ finish h hframes he (by simp) (argument _)
  | wait _ hst => exact waitStep h hframes he measured hst
  | @request i =>
      have requested : (t.mapGlobal (·.requestUpdate i)).state.Obeys D := by
        refine h.setGlobal ?_ ?_ <;> dsimp only [GlobalState.requestUpdate] <;> split <;> rfl
      exact fun r hr => List.mem_singleton.1 hr ▸ finish requested hframes he (by simp) D.unknown
  | @call m receiver last called =>
      have plain : D.plain receiver := by
        rw [called]
        split
        · rename_i qualified
          exact obeys.plain (k := 1) (System.receiver_free qualified)
        · exact obeys.receiver
      have pushed : (t.mapRunning (·.push (.start (.member m) receiver))).state.Obeys D := by
        refine mapRunning_obeys h fun q hq obeys => obeys.push ?_
        obtain rfl := Option.some.inj (hps.symm.trans hq)
        rw [stack]
        exact (top_obeys h hframes).push (.start _ plain) ⟨id, args, he, last⟩
      have stacked : ∀ f, (t.mapRunning (·.push f)).frames = f :: ps.stack := by
        intro f
        rw [frames, running?_mapRunning, hps]
        rfl
      exact fun r hr => List.mem_singleton.1 hr ▸ bindParams (t := Transition.mapConditions _ _) pushed
        (top_obeys pushed (stacked _)).arises (by simp [ProcessState.routines, stack])
        (congrArg (List.map (·.location.routine)) (stacked _)) (fun _ hd => hd)
        (List.forall_mem_map.2 fun k _ => argument k)

theorem notifyStep {id : Nat} {target : Expr} {delays : List Expr}
    (he : s.program.system.at? top.location = some (.notify id target delays))
    (measured : Measured D top (.notify id target delays))
    (hst : (s.notifyStep t top (.notify id target delays) target delays).result = .ok st) :
    ∀ r ∈ st.results, r.state.Obeys D := by
  have obeys := (top_obeys h hframes).top
  obtain ⟨-, rfl⟩ | ⟨-, _, delay, u, -, hdelay, hu, rfl⟩ := notifyStep_cases hst
  · exact fun r hr => List.mem_singleton.1 hr ▸ enter_obeys h hframes _
  · have plain := fun c => obeys.plain (k := 0) (c := c) (System.child_free he (by simp) (by simp))
    have allowed := delayOf_obeys plain measured hdelay
    exact fun r hr => List.mem_singleton.1 hr ▸
      finish (notify h allowed hu) ((notify_frames hu).trans hframes) he (by simp) D.unknown

theorem exprStep {ps : ProcessState} (member : ∀ p, t.proc = some p → p ∈ s.procs) (hps : t.running? = some ps)
    (he : s.program.system.at? top.location = some e) (measured : Measured D top e)
    (hst : (s.exprStep t ps top e).result = .ok st) : ∀ r ∈ st.results, r.state.Obeys D := by
  have obeys := (top_obeys h hframes).top
  have one : ∀ {i : Int} {r : Transition}, r.state.Obeys D → (pure (.one e i r) : Step SmallStep).result = .ok st →
      ∀ r ∈ st.results, r.state.Obeys D := by
    intro i r obeys hst r' hr
    obtain rfl := Run.pure_result_iff.1 hst
    exact List.mem_singleton.1 hr ▸ obeys
  have steered : ∀ {st' : SmallStep}, st'.All (fun r => r.state.Obeys D) →
      (pure st' : Step SmallStep).result = .ok st → ∀ r ∈ st.results, r.state.Obeys D := by
    intro st' all hst r hr
    obtain rfl := Run.pure_result_iff.1 hst
    exact (all r hr).1
  unfold Simulator.exprStep at hst
  cases e with
  | const id l =>
      dsimp only at hst
      split at hst
      · cases hst
      · have plain : D.plain (.lit l) := D.constant he
        refine one (finish_obeys h hframes he ⟨D.plain_place plain, fun _ => plain, fun id' c hc => ?_⟩) hst
        cases Option.some.inj (he.symm.trans hc)
        rfl
  | event id name =>
      refine one (finish h hframes he (by simp) ?_) hst
      split
      · exact D.simple (.inr ⟨_, rfl, by simp⟩)
      · exact D.unknown
  | var id d =>
      obtain ⟨fits, read, kept⟩ := readVariable h hframes hps he
      exact one (finish_obeys read kept he fits) hst
  | unary id op x | binary id op x y | access id x y | bracket id x | block id l | empty id =>
      exact aggregateStep h hframes he hst (by simp)
  | branch id c yes no => exact steered ((steers he (by simp)).branchStep_all ⟨h, hframes⟩ rfl) hst
  | whileLoop id l c body => exact steered ((steers he (by simp)).loopStep_all ⟨h, hframes⟩ rfl true) hst
  | doLoop id l c body => exact steered ((steers he (by simp)).loopStep_all ⟨h, hframes⟩ rfl false) hst
  | forLoop id l i c p body => exact steered ((steers he (by simp)).forStep_all ⟨h, hframes⟩ rfl) hst
  | switch id l tag cases => exact steered ((steers he (by simp)).switchStep_all ⟨h, hframes⟩ rfl) hst
  | arm id value body => exact steered ((steers he (by simp)).armStep_all ⟨h, hframes⟩ rfl) hst
  | exit id label => exact exitStep h hframes (Run.result_of _ ▸ hst)
  | next id label => exact nextStep h hframes (Run.result_of _ ▸ hst)
  | ret id value =>
      dsimp only at hst
      split at hst
      · exact one (enter_obeys h hframes _) hst
      · obtain rfl := Run.pure_result_iff.1 hst
        refine returnFrom h member hframes ?_
        split
        · exact obeys.plain (k := 0) (System.child_free he (by simp) (by simp))
        · exact D.unknown
  | notify id target delays => exact notifyStep h hframes he measured hst
  | stop id =>
      refine one (stop (finish h hframes he (by simp) D.unknown)) hst
  | call id f args => exact callStep h hframes hps he measured hst

end

end Obeying

/-- The amount of time that the next small step takes. -/
def amount? (s : Simulator) (t : Transition) : Option (Int64 × TimeUnit) :=
  t.top?.bind fun top => (s.program.at? top.location).bind top.amountAt?

/-- A small step keeps a discipline. -/
theorem smallStep_obeys (h : t.state.Obeys D) (member : ∀ p, t.proc = some p → p ∈ s.procs)
    (measured : ∀ n u d, s.amount? t = some (n, u) → Delay.ofAmount n u = .ok d → D.delay d)
    (hst : (s.smallStep t).result = .ok st) (hr : r ∈ st.results) : r.state.Obeys D := by
  obtain ⟨st₀, rs, u, hadv, hu, -, same, rfl⟩ := smallStep_mem hst hr
  have state : r.state = u.state := by rw [same]
  rw [state]
  obtain ⟨ps, top, hps, htop, step⟩ := advance_cases hadv
  obtain ⟨below, -, hframes⟩ := frames_of_top hps htop
  rcases step with ⟨-, rfl⟩ | ⟨i, up, e, sc, -, he, -, hstep⟩
  · exact Obeying.bodyStep (t := t.resetAccesses) h member hframes u hu
  · refine Obeying.exprStep (t := { t.resetAccesses with scratch := sc }) h hframes member hps he ?_ hstep u hu
    refine fun n v d amount => measured n v d ?_
    rw [amount?, show t.top? = some top from htop, Option.bind_some, he, Option.bind_some]
    exact amount

end Simulator

namespace Discipline

open Simulator

variable {s : Simulator} (D : Discipline s) {first : State}

/-- Whatever amount of time is evaluated gives a delay of the discipline. -/
def Measures (first : State) : Prop :=
  ∀ start t n u d, s.Begins first start → s.Occurs start false t → s.amount? t = some (n, u) →
    Delay.ofAmount n u = .ok d → D.delay d

/-- What is left of delays when the simulation has advanced are delays of the discipline. -/
def Passes : Prop :=
  ∀ t r, t.state.Tidy s → t.state.Obeys D → (s.advanceTime t).result = .ok r →
    (∀ ps ∈ r.state.procs, ∀ d, Blocker.timeout? ps.blocker = some d → D.delay d) ∧
      ∀ e d, r.state.pendingOf e = some d → D.delay d

/-- Whatever delays there are, if all of them are allowed. -/
theorem measures_of_all (all : ∀ d, D.delay d) : D.Measures first := fun _ _ _ _ d _ _ _ _ => all d

theorem passes_of_all (all : ∀ d, D.delay d) : D.Passes :=
  fun _ _ _ _ _ => ⟨fun _ _ d _ => all d, fun _ d _ => all d⟩

theorem initial_obeys (h : s.initial = .ok first) (values : ∀ v x, first.global.values.get? v = some x → D.plain x) :
    first.Obeys D := by
  obtain ⟨procs, update, _, started⟩ := initial_cases h
  refine ⟨fun ps hps => ?_, fun ps hps => ?_, values, fun e d hd => ?_⟩
  · rw [procs] at hps
    obtain ⟨p, hp, rfl⟩ := List.mem_map.1 hps
    refine .start (.start _ (D.inst _)) (.process hp) fun d hd => ?_
    have untimed := timeout?_initProcess p
    exact absurd (untimed.symm.trans hd) (by simp)
  · rw [update] at hps
    cases hps
  · rw [State.pendingOf, started] at hd
    cases hd

/-- Waits and pending notifications apart, nothing changes when the simulation advances. -/
theorem advanceTime_obeys {t r : Transition} (passes : D.Passes) (tidy : t.state.Tidy s) (h : t.state.Obeys D)
    (hr : (s.advanceTime t).result = .ok r) : r.state.Obeys D := by
  obtain ⟨waits, pending⟩ := passes t r tidy h hr
  have bare := advanceTime_bare hr
  refine ⟨fun ps hps => ?_, State.update_of_bare bare ▸ h.update, State.values_of_bare bare ▸ h.values, pending⟩
  obtain ⟨i, found⟩ := List.getElem?_of_mem hps
  obtain ⟨q, hq, stack, locals⟩ := State.code_of_bare bare.symm found
  have obeys := h.procs q (List.mem_of_getElem? hq)
  have routines : ps.routines = q.routines := by rw [ProcessState.routines, ProcessState.routines, stack]
  exact ⟨stack ▸ obeys.frames, by rw [← locals, routines]; exact obeys.locals, waits ps hps⟩

/-- A discipline is kept from the first state on. -/
theorem invariant (start : s.initial = .ok first) (values : ∀ v x, first.global.values.get? v = some x → D.plain x)
    (measures : D.Measures first) (passes : D.Passes) : s.Invariant first (·.Obeys D) where
  start := D.initial_obeys start values
  clear h := h.setGlobal rfl rfl
  update hc hf h := h.setUpdate fun ps hps => Option.some.inj hps ▸
    .start (.start _ (D.inst _)) (.update hc hf) (by simp [Blocker.timeout?])
  done h := h.setUpdate fun _ hps => nomatch hps
  step begins occurs h hst hr :=
    smallStep_obeys h (fun _ => begins.mem_procs occurs)
      (fun n u d amount hd => measures _ _ n u d begins occurs amount hd) hst hr
  advance tidy h hr := D.advanceTime_obeys passes tidy h hr

end Discipline

end DeltaSlice
