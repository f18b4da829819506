import DeltaSlice.Proofs.Step.Shifts
import DeltaSlice.Proofs.Structured.Code
import DeltaSlice.Proofs.Waits.Effects

/-!
Disciplines. A discipline says which values may stand anywhere, which ones where an assignment expects its
target, which local variables may have a value under a call stack, and for which delays something may wait; it is
closed under what programs can do with them. Here stands what it is for frames, processes and states to obey a
discipline, and which edits keep that.
-/

namespace DeltaSlice

/-- A literal other than a delay, or no value at all. -/
def Value.IsSimple (x : Value) : Prop := x = .unknown ∨ ∃ l, x = .lit l ∧ ∀ d, l ≠ .delay d

namespace Value.IsSimple

variable {x y : Value}

theorem unknown : Value.unknown.IsSimple := .inl rfl

theorem bool (b : Bool) : (Value.bool b).IsSimple := .inr ⟨_, rfl, by simp⟩

theorem int (n : Int64) : (Value.int n).IsSimple := .inr ⟨_, rfl, by simp⟩

theorem ite {c : Prop} [Decidable c] (hx : x.IsSimple) (hy : y.IsSimple) : (if c then x else y).IsSimple := by
  split
  · exact hx
  · exact hy

theorem applyInt (op : BinaryOp) (a b : Int64) : (Value.applyInt op a b).IsSimple := by
  unfold Value.applyInt
  split
  case h_4 | h_5 => exact ite unknown (int _)
  all_goals first | exact int _ | exact bool _ | exact unknown

theorem apply (op : BinaryOp) (x y : Value) : (Value.apply op x y).IsSimple := by
  unfold Value.apply
  split
  · exact ite (bool _) (ite (bool _) unknown)
  · exact ite (bool _) (ite (bool _) unknown)
  · exact ite (bool _) unknown
  · exact ite (bool _) unknown
  · split
    · exact applyInt _ _ _
    · exact ite (.inr ⟨_, rfl, by simp⟩) unknown
    · exact unknown

theorem applyUnary (op : UnaryOp) (x : Value) : (Value.applyUnary op x).IsSimple := by
  unfold Value.applyUnary
  split
  · unfold Value.not
    split
    · exact bool _
    · exact unknown
  · split
    · exact int _
    · exact unknown
  · exact unknown

end Value.IsSimple

namespace Simulator

/-- The routine of a process, or one that updates an instance. -/
inductive Starts (s : Simulator) : Routine → Prop
  | process {p : Process} : p ∈ s.procs → s.Starts p.routine
  | update {i : Instance} {c : ClassDef} {f : Routine} : s.program.system.classOf? i = some c →
      c.routine? "update" = some f → s.Starts f

/-- The call stack may come up; the innermost routine comes first. -/
def Arises (s : Simulator) (stack : List Routine) : Prop :=
  ∃ main, s.Starts main ∧ Structured.Called s.program.system main stack

end Simulator

/-- What may stand where while programs run. -/
structure Discipline (s : Simulator) where
  /-- Values that may stand anywhere. -/
  plain : Value → Prop
  /-- Values that may stand where a target is expected, in the frame with a call stack. -/
  place : List Routine → Value → Prop
  /-- Local variables that may have a value under a call stack. -/
  held : List Routine → Variable → Prop
  /-- Delays that a process or a notification may wait for. -/
  delay : Delay → Prop
  simple {x : Value} : x.IsSimple → plain x
  constant {l : Location} {id : Nat} {x : Literal} : s.program.system.at? l = some (.const id x) → plain (.lit x)
  events {choice : Bool} {x y : Value} {l : EventList} (n : Nat) : plain x → plain y →
    Simulator.eventList? choice x y = some l → plain (.known (.events n l))
  plain_place {stack : List Routine} {x : Value} : plain x → place stack x
  global (stack : List Routine) (owner : Owner) (d : Decl) : place stack (.known (.target (.ofOwner owner d)))
  own {l : Location} {id : Nat} {d : Decl} {stack : List Routine} : s.Arises (l.routine :: stack) →
    s.program.system.at? l = some (.var id d) → s.program.system.isAssigned l = true → d.isGlobal = false →
    place (l.routine :: stack) (.known (.target (.ofFrame (l.routine :: stack) (.decl d))))
  push (r : Routine) {stack : List Routine} {v : Variable} : held stack v → held (r :: stack) v
  pop {r : Routine} {stack : List Routine} {v : Variable} : held (r :: stack) v →
    (∀ d ∈ r.params, v ≠ .ofFrame (r :: stack) (.decl d)) → held stack v
  last {r : Routine} {v : Variable} : held [r] v → held [] v
  target {r : Routine} {stack : List Routine} {v : Variable} : place (r :: stack) (.known (.target v)) →
    v.isLocal = true → s.setup.tracksVariable v = true → held (r :: stack) v
  param {r : Routine} {stack : List Routine} {d : Decl} : s.Arises (r :: stack) → stack ≠ [] → d ∈ r.params →
    s.setup.tracksVariable (.ofFrame (r :: stack) (.decl d)) = true →
    held (r :: stack) (.ofFrame (r :: stack) (.decl d))
  delta : delay .delta
  literal_delay {d : Delay} : plain (.lit (.delay d)) → delay d
  timeout {n : Nat} {l : EventList} {d : Delay} : plain (.known (.events n l)) → l.timeout = some d → delay d

namespace Discipline

variable {s : Simulator} (D : Discipline s)

/-- A value may stand as the result of the expression at a location of a frame; that of a constant is its
literal. -/
structure At (l : Location) (stack : List Routine) (x : Value) : Prop where
  place : D.place stack x
  plain : s.program.system.isAssigned l = false → D.plain x
  constant : ∀ id c, s.program.system.at? l = some (.const id c) → x = .lit c

variable {D} {l : Location} {stack : List Routine} {x : Value}

theorem At.of_plain (h : D.plain x) (other : ∀ id c, s.program.system.at? l ≠ some (.const id c)) :
    D.At l stack x := ⟨D.plain_place h, fun _ => h, fun id c hc => absurd hc (other id c)⟩

theorem unknown : D.plain .unknown := D.simple .unknown

theorem inst (i : Instance) : D.plain (.lit (.inst i)) := D.simple (.inr ⟨_, rfl, by simp⟩)

end Discipline

/-- The receiver is plain, and every result may stand where it stands. -/
structure Frame.Obeys {s : Simulator} (D : Discipline s) (stack : List Routine) (f : Frame) : Prop where
  receiver : D.plain f.receiver
  results : ∀ (k : Nat) c x, f.slot? k c = some x → D.At ⟨f.location.routine, c :: f.path.drop k⟩ stack x

namespace Frame.Obeys

variable {s : Simulator} {D : Discipline s} {stack : List Routine} {f : Frame} {x : Value} {i : Int} {up : Path}

theorem start (r : Routine) (hx : D.plain x) : (Frame.start r x).Obeys D stack where
  receiver := hx
  results k c v hv := by
    have none : (Frame.start r x).slot? k c = none := by cases k <;> simp [slot?, Frame.start, elementAt?]
    rw [none] at hv
    cases hv

theorem place (h : f.Obeys D stack) (k : Nat) (c : Int) : D.place stack (f.value k c) := by
  unfold Frame.value
  cases hx : f.slot? k c with
  | none => exact D.plain_place D.unknown
  | some x => exact (h.results k c x hx).place

theorem plain (h : f.Obeys D stack) {k : Nat} {c : Int}
    (free : s.program.system.isAssigned ⟨f.location.routine, c :: f.path.drop k⟩ = false) :
    D.plain (f.value k c) := by
  unfold Frame.value
  cases hx : f.slot? k c with
  | none => exact D.unknown
  | some x => exact (h.results k c x hx).plain free

/-- The result of a constant, if it is known. -/
theorem constant (h : f.Obeys D stack) {k id : Nat} {c : Int} {l : Literal}
    (hc : s.program.system.at? ⟨f.location.routine, c :: f.path.drop k⟩ = some (.const id l)) :
    f.value k c = .unknown ∨ f.value k c = .lit l := by
  unfold Frame.value
  cases hx : f.slot? k c with
  | none => exact .inl rfl
  | some x => exact .inr ((h.results k c x hx).constant id l hc)

theorem enter (h : f.Obeys D stack) (i : Int) : (f.enter i).Obeys D stack where
  receiver := h.receiver
  results k c x hx := by
    cases k with
    | zero =>
        have none : (f.enter i).slot? 0 c = none := slot?_enter_zero
        rw [Int.ofNat_zero, none] at hx
        cases hx
    | succ k => exact h.results k c x (slot?_enter_succ k ▸ hx)

theorem pop (h : f.Obeys D stack) (n : Nat) (j : Int) : { f.pop n with comingFrom := j }.Obeys D stack where
  receiver := h.receiver
  results k c x hx := by
    have hx : (f.pop n).slot? k c = some x := hx
    rw [slot?_pop_add] at hx
    have result := h.results (n + k) c x hx
    rw [← List.drop_drop] at result
    exact result

theorem put (h : f.Obeys D stack) (i : Int) {o : Option Value}
    (ho : ∀ x, o = some x → D.At (f.location.child i.toNat) stack x) : (f.put i o).Obeys D stack := by
  have location := put_location f i o
  have path : (f.put i o).path = f.path := congrArg Location.path location
  constructor
  · have receiver : (f.put i o).receiver = f.receiver := by
      unfold Frame.put
      split <;> rfl
    exact receiver ▸ h.receiver
  · intro k c x hx
    rw [location, path]
    cases k with
    | zero =>
        obtain ⟨inside, rfl, here⟩ | before := slot?_put_cases hx
        · exact Int.toNat_of_nonneg inside ▸ ho x here
        · exact h.results 0 c x before
    | succ k => exact h.results (k + 1) c x (slot?_put_succ i o k ▸ hx)

/-- Leaving an expression with a value that may stand as its result. -/
theorem finish (h : f.Obeys D stack) (here : f.path = i :: up) (inside : 0 ≤ i) (hx : D.At f.location stack x) :
    (s.program.system.finish x f).Obeys D stack := by
  have location : f.location = ⟨f.location.routine, i :: up⟩ := location_of_path here
  have child : Location.child (f.pop 1).location i = f.location := by
    conv_rhs => rw [location]
    simp [Frame.pop, here, Location.child]
  unfold System.finish leave
  rw [here]
  dsimp only
  split
  · refine (h.pop 1 i).put i fun y hy => ?_
    obtain rfl := Option.some.inj hy
    rw [Int.toNat_of_nonneg inside]
    exact child.symm ▸ hx
  · exact h.pop 1 i

end Frame.Obeys

/-- The frame waits for the result of a call of the routine. -/
def Frame.CallsFor (sys : System) (f : Frame) (r : Routine) : Prop :=
  ∃ id args, sys.at? f.location = some (.call id r args) ∧ f.comingFrom = args.length - 1

/-- All frames obey, and each but the outermost runs the routine that is called below it. -/
inductive Obey {s : Simulator} (D : Discipline s) : List Frame → Prop
  | nil : Obey D []
  | cons {f : Frame} {fs : List Frame} : f.Obeys D ((f :: fs).map (·.location.routine)) →
      s.Arises ((f :: fs).map (·.location.routine)) →
      (∀ g, fs.head? = some g → g.CallsFor s.program.system f.location.routine) → Obey D fs → Obey D (f :: fs)

namespace Obey

variable {s : Simulator} {D : Discipline s} {f g : Frame} {fs : List Frame}

theorem top (h : Obey D (f :: fs)) : f.Obeys D ((f :: fs).map (·.location.routine)) := by
  cases h with
  | cons top _ _ _ => exact top

theorem pop (h : Obey D (f :: fs)) : Obey D fs := by
  cases h with
  | cons _ _ _ below => exact below

theorem frame (h : Obey D fs) (hf : f ∈ fs) : ∃ stack, f.Obeys D stack := by
  induction h with
  | nil => cases hf
  | cons first _ _ _ ih =>
      rcases List.mem_cons.1 hf with rfl | hf
      · exact ⟨_, first⟩
      · exact ih hf

theorem arises (h : Obey D (f :: fs)) : s.Arises ((f :: fs).map (·.location.routine)) := by
  cases h with
  | cons _ arises _ _ => exact arises

theorem called (h : Obey D (f :: g :: fs)) : g.CallsFor s.program.system f.location.routine := by
  cases h with
  | cons _ _ called _ => exact called g rfl

theorem single (h : f.Obeys D [f.location.routine]) (starts : s.Starts f.location.routine) : Obey D [f] :=
  .cons h ⟨_, starts, .start⟩ (by simp) .nil

/-- A frame on top of others, which were left for it. -/
theorem push (h : Obey D (g :: fs)) (hf : f.Obeys D ((f :: g :: fs).map (·.location.routine)))
    (called : g.CallsFor s.program.system f.location.routine) : Obey D (f :: g :: fs) := by
  obtain ⟨main, starts, caller⟩ := h.arises
  obtain ⟨id, args, site, last⟩ := called
  refine .cons hf ⟨main, starts, .call caller site⟩ (fun g' hg' => ?_) h
  exact Option.some.inj hg' ▸ ⟨id, args, site, last⟩

/-- A frame of the same routine takes the place of the first one. -/
theorem replace (h : Obey D (f :: fs)) (same : g.location.routine = f.location.routine)
    (hg : g.Obeys D ((f :: fs).map (·.location.routine))) : Obey D (g :: fs) := by
  cases h with
  | cons _ arises called below =>
      refine .cons ?_ ?_ (same ▸ called) below
      · rw [List.map_cons, same]
        exact hg
      · rw [List.map_cons, same]
        exact arises

end Obey

/-- Frames and variables of a process obey, and so does what it waits for. -/
structure ProcessState.Obeys {s : Simulator} (D : Discipline s) (ps : ProcessState) : Prop where
  frames : Obey D ps.stack
  locals : ∀ v x, ps.locals.get? v = some x → D.plain x ∧ D.held ps.routines v
  wait : ∀ d, Blocker.timeout? ps.blocker = some d → D.delay d

namespace ProcessState.Obeys

variable {s : Simulator} {D : Discipline s} {ps : ProcessState} {f top : Frame} {below : List Frame} {x : Value}

theorem start {b : Option Blocker} (hf : f.Obeys D [f.location.routine]) (starts : s.Starts f.location.routine)
    (hb : ∀ d, Blocker.timeout? b = some d → D.delay d) : (ProcessState.start b [f]).Obeys D :=
  ⟨.single hf starts, fun _ _ h => (nomatch h), hb⟩

theorem block (h : ps.Obeys D) {b : Option Blocker} (hb : ∀ d, Blocker.timeout? b = some d → D.delay d) :
    (ps.block b).Obeys D := ⟨h.frames, h.locals, hb⟩

theorem mapTop (h : ps.Obeys D) {g : Frame → Frame} (stack : ps.stack = top :: below)
    (same : (g top).location.routine = top.location.routine) (hg : (g top).Obeys D ps.routines) :
    (ps.mapTop g).Obeys D := by
  have routines : ps.routines = (top :: below).map (·.location.routine) := by rw [routines, stack]
  unfold ProcessState.mapTop
  rw [stack]
  refine ⟨(stack ▸ h.frames).replace same (routines ▸ hg), ?_, h.wait⟩
  have kept : ProcessState.routines { ps with stack := g top :: below } = ps.routines := by
    rw [routines]
    exact congrArg (· :: below.map (·.location.routine)) same
  exact kept ▸ h.locals

theorem setLocal (h : ps.Obeys D) {v : Variable} (hv : D.held ps.routines v) (hx : D.plain x) :
    (ps.setLocal v x).Obeys D := by
  refine ⟨h.frames, fun w y hy => ?_, h.wait⟩
  rw [ProcessState.setLocal, Table.get?_insert] at hy
  split at hy
  · rename_i same
    subst same
    exact ⟨Option.some.inj hy ▸ hx, hv⟩
  · exact h.locals w y hy

/-- A call, or a start over. -/
theorem push (h : ps.Obeys D) (frames : Obey D (f :: ps.stack)) : (ps.push f).Obeys D :=
  ⟨frames, fun v x hx => (h.locals v x hx).imp_right (D.push _), h.wait⟩

/-- The last frame is left. -/
theorem leave (h : ps.Obeys D) (stack : ps.stack = [top]) : ps.pop.Obeys D := by
  have routines : ps.routines = [top.location.routine] := by rw [routines, stack]; rfl
  have empty : ps.pop.stack = [] := by rw [pop, stack]; rfl
  refine ⟨empty ▸ .nil, fun v x hx => ?_, h.wait⟩
  have : ps.pop.routines = [] := by rw [ProcessState.routines, empty]; rfl
  rw [this]
  exact (h.locals v x hx).imp_right fun held => D.last (routines ▸ held)

end ProcessState.Obeys

/-- All processes, the update routine, and the values of variables obey, and so do the pending notifications. -/
structure State.Obeys {s : Simulator} (D : Discipline s) (st : State) : Prop where
  procs : ∀ ps ∈ st.procs, ps.Obeys D
  update : ∀ ps, st.update = some ps → ps.Obeys D
  values : ∀ v x, st.global.values.get? v = some x → D.plain x
  pending : ∀ e d, st.pendingOf e = some d → D.delay d

namespace State.Obeys

variable {s : Simulator} {D : Discipline s} {st : State} {ps : ProcessState} {x : Value}

theorem setProc (h : st.Obeys D) (i : Nat) (hps : ps.Obeys D) : (st.setProc i ps).Obeys D := by
  refine ⟨fun q hq => ?_, h.update, h.values, h.pending⟩
  rcases List.mem_or_eq_of_mem_set hq with hq | rfl
  · exact h.procs q hq
  · exact hps

/-- A process that is there waits for something else. -/
theorem block (h : st.Obeys D) {i : Nat} (found : st.procs[i]? = some ps) {b : Option Blocker}
    (hb : ∀ d, Blocker.timeout? b = some d → D.delay d) : (st.setProc i (ps.block b)).Obeys D :=
  h.setProc i ((h.procs ps (List.mem_of_getElem? found)).block hb)

theorem setUpdate (h : st.Obeys D) {u : Option ProcessState} (hu : ∀ ps, u = some ps → ps.Obeys D) :
    { st with update := u }.Obeys D := ⟨h.procs, hu, h.values, h.pending⟩

theorem setGlobal (h : st.Obeys D) {g : GlobalState} (values : g.values = st.global.values)
    (pending : g.pending = st.global.pending) : { st with global := g }.Obeys D :=
  ⟨h.procs, h.update, values ▸ h.values, fun e d hd => h.pending e d (by rwa [pendingOf, ← pending])⟩

theorem setPending (h : st.Obeys D) {e : Event} {n : Option Delay} (hn : ∀ d, n = some d → D.delay d) :
    { st with global := st.global.setPending e n }.Obeys D := by
  have values : (st.global.setPending e n).values = st.global.values := by cases n <;> rfl
  refine ⟨h.procs, h.update, values ▸ h.values, fun e' d hd => ?_⟩
  rw [pendingOf, GlobalState.get?_setPending] at hd
  split at hd
  · exact hn d hd
  · exact h.pending e' d hd

theorem setValue (h : st.Obeys D) (v : Variable) (hx : D.plain x) :
    { st with global := st.global.setValue v x }.Obeys D := by
  refine ⟨h.procs, h.update, fun w y hy => ?_, h.pending⟩
  rw [GlobalState.setValue, Table.get?_insert] at hy
  split at hy
  · exact Option.some.inj hy ▸ hx
  · exact h.values w y hy

end State.Obeys

namespace Transition

variable {s : Simulator} {D : Discipline s} {t : Transition} {ps q : ProcessState} {top : Frame}
  {below : List Frame} {x : Value}

theorem running_obeys (h : t.state.Obeys D) (hps : t.running? = some ps) : ps.Obeys D := by
  unfold running? at hps
  split at hps
  · exact h.procs ps (List.mem_of_getElem? hps)
  · exact h.update ps hps

/-- The state of the running code changes. -/
theorem mapRunning_obeys (h : t.state.Obeys D) {f : ProcessState → ProcessState}
    (hf : ∀ ps, t.running? = some ps → ps.Obeys D → (f ps).Obeys D) : (t.mapRunning f).state.Obeys D := by
  unfold mapRunning
  split
  · rename_i ps hps
    have changed := hf ps hps (running_obeys h hps)
    unfold setRunning
    split
    · exact h.setProc _ changed
    · exact h.setUpdate fun q hq => Option.some.inj hq ▸ changed
  · exact h

/-- The innermost frame changes. -/
theorem mapTop_obeys (h : t.state.Obeys D) (frames : t.frames = top :: below) {g : Frame → Frame}
    (same : (g top).location.routine = top.location.routine)
    (hg : top.Obeys D ((top :: below).map (·.location.routine)) →
      (g top).Obeys D ((top :: below).map (·.location.routine))) : (t.mapTop g).state.Obeys D := by
  refine mapRunning_obeys h fun ps hps obeys => ?_
  obtain ⟨q, hq, stack⟩ := frames_eq_cons.1 frames
  obtain rfl := Option.some.inj (hps.symm.trans hq)
  refine obeys.mapTop stack same ?_
  rw [ProcessState.routines, stack]
  exact hg (stack ▸ obeys.frames).top

theorem top_obeys (h : t.state.Obeys D) (frames : t.frames = top :: below) :
    Obey D (top :: below) := by
  obtain ⟨ps, hps, stack⟩ := frames_eq_cons.1 frames
  exact stack ▸ (running_obeys h hps).frames

theorem enter_obeys (h : t.state.Obeys D) (frames : t.frames = top :: below) (i : Int) :
    (t.enter i).state.Obeys D := mapTop_obeys h frames rfl fun obeys => obeys.enter i

theorem finish_obeys (h : t.state.Obeys D) (frames : t.frames = top :: below) {e : Expr}
    (he : s.program.system.at? top.location = some e)
    (hx : D.At top.location ((top :: below).map (·.location.routine)) x) :
    (t.finish s.program.system x).state.Obeys D := by
  obtain ⟨i, up, path⟩ := Frame.index_of_at? he
  have inside : 0 ≤ i := by
    rw [Frame.location_of_path path] at he
    obtain ⟨above, -, he⟩ := Option.bind_eq_some_iff.1 he
    exact (elementAt?_lt he).1
  rw [finish_eq]
  refine mapTop_obeys h frames ?_ fun obeys => obeys.finish path inside hx
  rw [System.finish, Frame.leave_location path]
  rfl

end Transition

end DeltaSlice
