import DeltaSlice.Proofs.Waits.Chronicles

/-!
The waits and the pending notifications of a state are what the history on the way to it tells. Whatever
happens next is told by the longer history.
-/

namespace DeltaSlice

namespace Happening

/-- The delay that begins is positive. -/
def IsPositive : Happening → Prop
  | blocks _ b => ∀ d, Blocker.timeout? (some b) = some d → d.IsPositive
  | planned _ d => d.IsPositive
  | _ => True

variable {x : Happening} {w : Option Blocker} {d rest : Delay}

theorem Permits.delayAfter (permits : x.Permits (some d)) (positive : d.IsPositive)
    (after : x.delayAfter d = some rest) : rest.IsPositive := by
  obtain ⟨none, -⟩ | ⟨rest', same, left⟩ := (Delay.left_nil positive).step permits
  · rw [none] at after
    cases after
  · obtain rfl := Option.some.inj (same.symm.trans after)
    cases rest' with
    | delta => trivial
    | time r =>
        cases d with
        | delta => exact left.elim
        | time _ => exact left.2

/-- What is left of the timeout of a wait stays positive. -/
theorem Permits.waitAfter (permits : x.Permits (Blocker.timeout? w))
    (positive : ∀ d, Blocker.timeout? w = some d → d.IsPositive) :
    ∀ d, Blocker.timeout? (x.waitAfter w) = some d → d.IsPositive := by
  unfold Happening.waitAfter
  obtain past | same := Blocker.timeout?_hear w x.due
  · rw [past]
    exact fun d hd => nomatch hd
  · cases hb : Blocker.hear x.due w with
    | none => exact fun d hd => nomatch hd
    | some b =>
        rw [hb] at same
        cases ht : Blocker.timeout? (some b) with
        | none =>
            rw [lapse_same (by simp [ht]), ht]
            exact fun d hd => nomatch hd
        | some d =>
            rw [ht] at same
            rw [← same] at permits
            cases hd : x.delayAfter d with
            | none =>
                rw [lapse_over ht hd]
                exact fun d hd => nomatch hd
            | some rest =>
                rw [lapse_rest ht hd]
                have left := permits.delayAfter (positive d same.symm) hd
                intro d' hd'
                cases b with
                | terminated => cases ht
                | delay _ =>
                    obtain rfl := Option.some.inj hd'
                    exact left
                | events _ =>
                    obtain rfl := Option.some.inj hd'
                    exact left

end Happening

namespace Simulator

variable {s : Simulator} {running running' : Option Nat} {h k k' : History} {x : Happening}
  {st st' st'' : State}
  {start t r u : Transition}

/-- A history tells what the processes other than the running one wait for and what is pending. -/
structure Accounts (s : Simulator) (running : Option Nat) (h : History) (st : State) : Prop where
  single : st.global.Single
  positive : ∀ p ∈ s.procs, some p.index ≠ running → ∀ w d, st.waitOf? p.index = some w →
    Blocker.timeout? w = some d → d.IsPositive
  waits : ∀ since i b before, h = since ++ .blocks i b :: before → .runs i ∉ since →
    some i ≠ running ∧ (∃ p ∈ s.procs, p.index = i) ∧
      (b.IsProper → ∃ w, st.waitOf? i = some w ∧ Blocker.Turns since b w)
  pends : ∀ e, h.Pends e (st.pendingOf e)
  fires : ∀ x before, x :: before <:+ h → History.Fires x before
  forward : ∀ x ∈ h, 0 ≤ x.passed

namespace Accounts

theorem ahead (told : s.Accounts running h st) : s.Ahead running st where
  waits := told.positive
  pending e d he := by
    have pends := told.pends e
    rw [he] at pends
    cases d with
    | delta => trivial
    | time r => exact pends.1

/-- Only waits and pending notifications matter. -/
theorem nil (told : s.Accounts running h st) (becomes : s.Undergoes running [] st st') :
    s.Accounts running h st' := by
  have same : History.waitAfter [] = id := rfl
  have planned (e : Event) : st'.pendingOf e = st.pendingOf e := becomes.pending e
  have waits : ∀ p ∈ s.procs, some p.index ≠ running → st'.waitOf? p.index = st.waitOf? p.index := by
    intro p hp other
    rw [becomes.waits p hp other, same, Option.map_id_fun, id]
  refine ⟨becomes.single told.single, fun p hp other w d hw => ?_, fun since i b before hh silent => ?_,
    fun e => ?_, told.fires, told.forward⟩
  · rw [waits p hp other] at hw
    exact told.positive p hp other w d hw
  · obtain ⟨other, ⟨p, hp, index⟩, turns⟩ := told.waits since i b before hh silent
    refine ⟨other, ⟨p, hp, index⟩, ?_⟩
    rw [← index] at other ⊢
    rw [waits p hp other, index]
    exact turns
  · rw [planned]
    exact told.pends e

/-- One more happening, other than the beginning of a wait. -/
theorem cons (told : s.Accounts running h st) (becomes : s.Undergoes running' [x] st st')
    (permits : ∀ p ∈ s.procs, some p.index ≠ running' → ∀ w, st.waitOf? p.index = some w →
      x.Permits (Blocker.timeout? w))
    (accords : ∀ e, x.Accords e (st.pendingOf e)) (positive : x.IsPositive) (forward : 0 ≤ x.passed)
    (begins : ∀ i b, x ≠ .blocks i b)
    (who : running' = running ∨ running = none ∧ ∃ i, x = .runs i ∧ running' = some i) :
    s.Accounts running' (x :: h) st' := by
  have others : ∀ i, some i ≠ running' → some i ≠ running := by
    intro i other
    rcases who with rfl | ⟨rfl, -⟩
    · exact other
    · simp
  refine ⟨becomes.single told.single, fun p hp other w d hw hd => ?_,
    fun since i b before hh silent => ?_, fun e => ?_, fun y before suffix => ?_, ?_⟩
  · rw [becomes.waits p hp other] at hw
    obtain ⟨w', hw', rfl⟩ := Option.map_eq_some_iff.1 hw
    exact (permits p hp other w' hw').waitAfter
      (fun d hd => told.positive p hp (others _ other) w' d hw' hd) d hd
  · cases since with
    | nil => exact absurd (List.cons.inj hh).1 (begins i b)
    | cons y since =>
        obtain ⟨rfl, rfl⟩ := List.cons.inj hh
        rw [List.mem_cons, not_or] at silent
        obtain ⟨other, ⟨p, hp, index⟩, turns⟩ := told.waits since i b before rfl silent.2
        have other : some i ≠ running' := by
          rcases who with rfl | ⟨-, j, rfl, rfl⟩
          · exact other
          · exact fun same => silent.1 (by rw [Option.some.inj same])
        refine ⟨other, ⟨p, hp, index⟩, fun proper => ?_⟩
        obtain ⟨w, hw, turned⟩ := turns proper
        subst index
        exact ⟨x.waitAfter w, by rw [becomes.waits p hp other, hw]; rfl,
          turned.step (permits p hp other w hw)⟩
  · rw [becomes.pending e]
    exact (told.pends e).step (accords e) fun d hd => by rw [hd] at positive; exact positive
  · rcases List.suffix_cons_iff.1 suffix with same | within
    · obtain ⟨rfl, rfl⟩ := List.cons.inj same
      exact History.fires_of_pends fun e => ⟨_, told.pends e, accords e⟩
    · exact told.fires y before within
  · exact List.forall_mem_cons.2 ⟨forward, told.forward⟩

/-- A process begins to wait. -/
theorem blocks {i : Nat} {b : Blocker} (told : s.Accounts running h st)
    (who : running = none ∨ running = some i) (known : ∃ p ∈ s.procs, p.index = i)
    (waits : st.waitOf? i = some (some b)) (positive : (Happening.blocks i b).IsPositive) :
    s.Accounts none (.blocks i b :: h) st := by
  have unplanned (n : Option Delay) (e : Event) : (Happening.blocks i b).pendingAfter e n = n := by
    cases n <;> rfl
  have unheard (w : Option Blocker) : (Happening.blocks i b).waitAfter w = w :=
    (Happening.waitAfter_within fun _ => rfl).trans Blocker.hear_nil
  refine ⟨told.single, fun p hp _ w d hw hd => ?_, fun since j c before hh silent => ?_, fun e => ?_,
    fun y before suffix => ?_, List.forall_mem_cons.2 ⟨Int.le_refl _, told.forward⟩⟩
  · by_cases own : p.index = i
    · rw [own, waits] at hw
      obtain rfl := Option.some.inj hw
      exact positive d hd
    · have other : some p.index ≠ running := by rcases who with rfl | rfl <;> simp [own]
      exact told.positive p hp other w d hw hd
  · cases since with
    | nil =>
        obtain ⟨same, rfl⟩ := List.cons.inj hh
        obtain ⟨rfl, rfl⟩ := Happening.blocks.inj same
        exact ⟨by simp, known, fun proper => ⟨_, waits, Blocker.turns_nil proper⟩⟩
    | cons y since =>
        obtain ⟨rfl, rfl⟩ := List.cons.inj hh
        rw [List.mem_cons, not_or] at silent
        obtain ⟨-, known, turns⟩ := told.waits since j c before rfl silent.2
        refine ⟨by simp, known, fun proper => ?_⟩
        obtain ⟨w, hw, turned⟩ := turns proper
        have step := turned.step (x := .blocks i b) trivial
        rw [unheard] at step
        exact ⟨w, hw, step⟩
  · have step := (told.pends e).step (x := .blocks i b) ⟨trivial, trivial⟩ (by simp)
    rwa [unplanned] at step
  · rcases List.suffix_cons_iff.1 suffix with first | within
    · obtain ⟨rfl, rfl⟩ := List.cons.inj first
      trivial
    · exact told.fires y before within

/-- A process starts to run. -/
theorem runs (i : Nat) (told : s.Accounts none h st) : s.Accounts (some i) (.runs i :: h) st := by
  refine told.cons ⟨rfl, id, fun p _ _ => ?_, fun e => ?_⟩ (fun _ _ _ _ _ => trivial)
    (fun _ => ⟨trivial, trivial⟩) trivial (Int.le_refl _) (by simp) (.inr ⟨rfl, i, rfl, rfl⟩)
  · have same : History.waitAfter [.runs i] = id := by
      funext w
      exact (Happening.waitAfter_within fun _ => rfl).trans Blocker.hear_nil
    rw [same, Option.map_id_fun, id]
  · cases st.pendingOf e <;> rfl

end Accounts

/-- The history of a step is told when it is over. -/
def Tracks (s : Simulator) (running : Option Nat) (k : History) (st st' : State) : Prop :=
  (∀ x ∈ k, x.IsPositive) → st'.global.stopped = false → st.global.stopped = false ∧
    ∀ h, s.Accounts running h st → s.Accounts running (k ++ h) st'

namespace Tracks

theorem nil (stopped : st'.global.stopped = st.global.stopped)
    (pending : st'.global.pending = st.global.pending) (procs : st'.procs = st.procs) :
    s.Tracks running [] st st' := by
  refine fun _ going => ⟨stopped.symm.trans going, fun h told => told.nil ?_⟩
  exact .nil stopped pending fun i _ => by rw [State.waitOf?, procs]; rfl

theorem trans (first : s.Tracks running k st st') (next : s.Tracks running k' st' st'') :
    s.Tracks running (k' ++ k) st st'' := by
  intro positive going
  obtain ⟨goes, later⟩ := next (fun x hx => positive x (List.mem_append_left _ hx)) going
  obtain ⟨begins, told⟩ := first (fun x hx => positive x (List.mem_append_right _ hx)) goes
  refine ⟨begins, fun h earlier => ?_⟩
  rw [List.append_assoc]
  exact later _ (told h earlier)

end Tracks

theorem notices_cases (t : Transition) :
    s.notices t = [] ∨ ∃ e d, s.notices t = [notice e d] := by
  have own (top : Frame) (e : Expr) (delays : List Expr) :
      noticesOf top e delays = [] ∨ ∃ e' d, noticesOf top e delays = [notice e' d] := by
    unfold noticesOf
    split
    · exact .inl rfl
    · split
      · exact .inr ⟨_, _, rfl⟩
      · exact .inl rfl
  unfold notices
  split
  · exact .inl rfl
  · split
    · exact own ..
    · exact .inl rfl

/-- What is notified within an evaluation phase. -/
theorem Accounts.notice {e : Event} {d : Option Delay} (told : s.Accounts running h st)
    (becomes : s.Undergoes running [notice e d] st st') (positive : (Simulator.notice e d).IsPositive) :
    s.Accounts running (Simulator.notice e d :: h) st' := by
  cases d with
  | none =>
      exact told.cons becomes (fun _ _ _ _ _ => trivial) (fun _ => ⟨trivial, trivial⟩) positive
        (Int.le_refl _) nofun (.inl rfl)
  | some d =>
      exact told.cons becomes (fun _ _ _ _ _ => trivial) (fun _ => ⟨trivial, trivial⟩) positive
        (Int.le_refl _) nofun (.inl rfl)

section Steps

variable (apart : s.Apart) (tracked : ∀ e, s.setup.tracksEvent e = true)

include apart tracked

/-- What running code tells. -/
theorem Tells.tracks {b : Bool} (h : s.Tells start b k r) :
    s.Tracks (start.proc.map (·.index)) k start.state r.state := by
  induction h with
  | start => exact fun _ going => ⟨going, fun _ told => told⟩
  | @step k t r st hk hst hr ih =>
      intro positive going
      have continues := smallStep_continues apart tracked hst hr going
      have running : t.proc = start.proc := hk.proc
      have becomes := continues.undergoes
      rw [running] at becomes
      obtain ⟨begins, told⟩ := ih (fun x hx => positive x (List.mem_append_right _ hx))
        (becomes.stopped.symm.trans going)
      refine ⟨begins, fun h earlier => ?_⟩
      have before := told h earlier
      rcases s.notices_cases t with none | ⟨e, d, one⟩
      · rw [none] at becomes ⊢
        exact before.nil becomes
      · rw [one] at becomes positive ⊢
        exact before.notice becomes (positive _ List.mem_cons_self)
  | merge _ ih => exact ih

/-- What update routines tell. No process runs them. -/
theorem TellsUpdates.tracks {is : List Instance} (h : s.TellsUpdates is t k u) (unowned : t.proc = none) :
    s.Tracks none k t.state u.state := by
  induction h with
  | nil => exact .nil rfl rfl rfl
  | @cons i is c f t start e u k k' hc hf hbegin hk _ ih =>
      obtain ⟨info, -, rfl⟩ := Success.map_iff.1 hbegin
      have proc : e.proc = none := hk.proc.trans unowned
      have code := hk.tracks apart tracked
      have running : (t.beforeUpdate i f).proc.map (·.index) = none := by
        rw [show (t.beforeUpdate i f).proc = none from unowned]
        rfl
      rw [running] at code
      have before : s.Tracks none [] t.state (t.beforeUpdate i f).state := .nil rfl rfl rfl
      have after : s.Tracks none [] e.state e.afterUpdate.state := .nil rfl rfl rfl
      have through := ((before.trans code).trans after).trans (ih proc)
      rwa [List.append_nil] at through

end Steps

section Endings

theorem ending_endsPhase (st : State) : (s.ending st).endsPhase = true := by
  unfold ending
  dsimp only
  split
  · split <;> rfl
  · rfl

/-- What the end of an evaluation phase does. -/
theorem Accounts.ends (apart : s.Apart) (told : s.Accounts none h t.state)
    (going : t.state.global.stopped = false) (hr : (s.advanceTime t).result = .ok r) :
    s.Accounts none (s.ending t.state :: h) r.state := by
  obtain ⟨-, becomes⟩ := advanceTime_undergoes apart told.single going hr
  obtain ⟨permits, accords⟩ := ending_permits told.ahead
  have ends := s.ending_endsPhase t.state
  refine told.cons becomes (fun p hp _ => permits p hp) accords ?_ ?_ (fun i b same => ?_) (.inl rfl)
  · cases hx : s.ending t.state <;> simp_all [Happening.endsPhase, Happening.IsPositive]
  · have permitted := (accords ⟨none, ""⟩).1
    cases hx : s.ending t.state with
    | time passed due =>
        rw [hx] at permitted
        exact permitted.1.le
    | _ => exact Int.le_refl _
  · rw [same] at ends
    cases ends

theorem advanceTime_going (hr : (s.advanceTime t).result = .ok r) (going : r.state.global.stopped = false) :
    t.state.global.stopped = false := by
  cases stopped : t.state.global.stopped with
  | false => rfl
  | true =>
      unfold advanceTime at hr
      simp only [stopped, if_true] at hr
      obtain rfl := Run.pure_result_iff.1 hr
      exact stopped.symm.trans going

end Endings

section Beginnings

/-- Initial values are all that is set at first. -/
theorem initGlobals_values (g : GlobalState) (owner : Owner) (ds : List Global) :
    ∃ values, s.initGlobals g owner ds = { g with values := values } := by
  unfold initGlobals
  induction ds generalizing g with
  | nil => exact ⟨g.values, rfl⟩
  | cons d ds ih =>
      have first : ∃ values, s.initGlobal g owner d = { g with values := values } := by
        unfold initGlobal
        split
        · exact ⟨g.values, rfl⟩
        · dsimp only
          split
          · exact ⟨_, rfl⟩
          · exact ⟨g.values, rfl⟩
      obtain ⟨values, first⟩ := first
      rw [List.foldl_cons, first]
      exact ih { g with values := values }

theorem initInstances_values {g g' : GlobalState} {ds : List InstanceDef}
    (h : s.initInstances g ds = .ok g') : ∃ values, g' = { g with values := values } := by
  induction ds generalizing g with
  | nil =>
      obtain rfl := Except.ok.inj h
      exact ⟨g.values, rfl⟩
  | cons d ds ih =>
      unfold initInstances at h
      split at h
      · cases h
      · rename_i c _
        obtain ⟨values, first⟩ := s.initGlobals_values g (.inst d.inst) c.fields
        rw [first] at h
        obtain ⟨_, rfl⟩ := ih h
        exact ⟨_, rfl⟩

/-- At first nothing is pending or requested, and every process waits as it was declared to. -/
theorem initial_cases (h : s.initial = .ok st) : st.procs = s.procs.map initProcess ∧ st.update = none ∧
    ∃ values, st.global = { GlobalState.start with values := values } := by
  unfold initial at h
  obtain ⟨g, hg, h⟩ := Success.bind_method_iff.1 h
  split at h
  · obtain rfl := Except.ok.inj h
    obtain ⟨values, own⟩ := s.initGlobals_values .start .system s.program.system.globals
    rw [own] at hg
    obtain ⟨_, rfl⟩ := initInstances_values hg
    exact ⟨rfl, rfl, _, rfl⟩
  · cases h

/-- Initial values are constants. -/
theorem initial_literals (h : s.initial = .ok st) {v : Variable} {x : Value}
    (hx : st.global.values.get? v = some x) : ∃ l, x = .lit l := by
  have global : ∀ {g : GlobalState} {owner : Owner} {ds : List Global},
      (∀ v x, g.values.get? v = some x → ∃ l, x = .lit l) →
      ∀ v x, (s.initGlobals g owner ds).values.get? v = some x → ∃ l, x = .lit l := by
    intro g owner ds literals
    unfold initGlobals
    induction ds generalizing g with
    | nil => exact literals
    | cons d ds ih =>
        refine ih fun v x hx => ?_
        dsimp only [initGlobal] at hx
        split at hx
        · exact literals v x hx
        · split at hx
          · rw [GlobalState.setValue, Table.get?_insert] at hx
            split at hx
            · exact ⟨_, (Option.some.inj hx).symm⟩
            · exact literals v x hx
          · exact literals v x hx
  have instances : ∀ {ds : List InstanceDef} {g g' : GlobalState},
      (∀ v x, g.values.get? v = some x → ∃ l, x = .lit l) → s.initInstances g ds = .ok g' →
      ∀ v x, g'.values.get? v = some x → ∃ l, x = .lit l := by
    intro ds
    induction ds with
    | nil =>
        intro g g' literals h
        exact Except.ok.inj h ▸ literals
    | cons d ds ih =>
        intro g g' literals h
        unfold initInstances at h
        split at h
        · cases h
        · exact ih (global literals) h
  obtain ⟨g, hg, h⟩ := Success.bind_method_iff.1 h
  split at h
  · obtain rfl := Except.ok.inj h
    exact instances (global (by simp [GlobalState.start])) hg v x hx
  · cases h

theorem waitOf?_initial (placed : s.Placed) (h : s.initial = .ok st) {p : Process} (hp : p ∈ s.procs) :
    st.waitOf? p.index = some (initProcess p).blocker := by
  obtain ⟨i, hi⟩ := List.getElem?_of_mem hp
  rw [placed i p hi, State.waitOf?, (initial_cases h).1, List.getElem?_map, hi]
  rfl

/-- A process that waits at first does so without a timeout. -/
theorem timeout?_initProcess (p : Process) : Blocker.timeout? (initProcess p).blocker = none := by
  simp only [initProcess, ProcessState.start]
  split <;> rfl

theorem accounts_opening (placed : s.Placed) (start : s.initial = .ok st) :
    s.Accounts none s.opening st := by
  have waits : ∀ p ∈ s.procs, st.waitOf? p.index = some (initProcess p).blocker :=
    fun p hp => waitOf?_initial placed start hp
  obtain ⟨-, -, values, global⟩ := initial_cases start
  have pending : st.global.pending = .empty := by rw [global]; rfl
  have main : ∀ l : List Process, (∀ p ∈ l, p ∈ s.procs) → s.Accounts none
      (l.filterMap fun p => (initProcess p).blocker.map (.blocks p.index)) st := by
    intro l known
    induction l with
    | nil =>
        refine ⟨?_, fun p hp _ w d hw hd => ?_, by simp, fun e => ?_, by simp, by simp⟩
        · rw [GlobalState.Single, pending]
          exact List.nodup_nil
        · rw [waits p hp] at hw
          obtain rfl := Option.some.inj hw
          rw [timeout?_initProcess] at hd
          cases hd
        · rw [State.pendingOf, pending]
          exact History.pends_nil
    | cons p l ih =>
        obtain ⟨hp, rest⟩ := List.forall_mem_cons.1 known
        have told := ih rest
        cases hb : (initProcess p).blocker with
        | none => rwa [List.filterMap_cons_none (by simp [hb])]
        | some b =>
            rw [List.filterMap_cons_some (b := .blocks p.index b) (by simp [hb])]
            refine told.blocks (.inl rfl) ⟨p, hp, rfl⟩ (by rw [waits p hp, hb]) fun d hd => ?_
            rw [← hb, timeout?_initProcess] at hd
            cases hd
  exact main s.procs fun _ => id

end Beginnings

/-- The history of a state tells what its processes wait for and what is pending in it. -/
theorem Chronicle.accounts (placed : s.Placed) (tracked : ∀ e, s.setup.tracksEvent e = true)
    (chronicle : s.Chronicle h st) (positive : ∀ x ∈ h, x.IsPositive)
    (going : st.global.stopped = false) : s.Accounts none h st := by
  have apart := placed.apart
  induction chronicle with
  | start hst => exact accounts_opening placed hst
  | @ran h k st ps p ts start e r b _ hps hp _ _ hbegin hk same waits ih =>
      obtain ⟨proc, begins⟩ := begin?_start hbegin
      have tracks := hk.tracks apart tracked
      rw [proc, begins] at tracks
      rw [same] at going ⊢
      simp only [List.cons_append, List.forall_mem_cons, List.forall_mem_append] at positive
      obtain ⟨goes, told⟩ := tracks positive.2.1 going
      have before := (ih positive.2.2.2 goes).runs p.index
      exact (told _ before).blocks (.inr rfl) ⟨p, (ready_mem hps hp).1, rfl⟩ waits positive.1
  | @ended h k st ts u v r _ _ _ hk hadvance same ih =>
      have cleared : s.Tracks none [] st (s.beginEnd st).state := .nil rfl rfl rfl
      have tracks := cleared.trans (hk.tracks apart tracked rfl)
      rw [List.append_nil] at tracks
      rw [same] at going ⊢
      simp only [List.cons_append, List.forall_mem_cons, List.forall_mem_append] at positive
      have goes := advanceTime_going hadvance going
      obtain ⟨begins, told⟩ := tracks positive.2.1 goes
      exact (told _ (ih positive.2.2 begins)).ends apart goes hadvance

end Simulator

end DeltaSlice
