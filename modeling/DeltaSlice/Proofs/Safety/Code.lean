import DeltaSlice.Proofs.Step.Footing
import DeltaSlice.Proofs.Structured.Code
import DeltaSlice.Proofs.Waits.Effects

/-!
What holds of states in which the code of a well-formed system runs. Frames are at code that exists, with a
list of results for every level; instances have classes, and where the target of an assignment is expected
there is one. Every step relies on this and keeps it.
-/

namespace DeltaSlice

/-- If the constant is an instance, it has a class. -/
def Literal.isClassed (sys : System) : Literal → Bool
  | .inst i => (sys.classOf? i).isSome
  | _ => true

/-- Constants have a text, instances among them a class, and what is assigned to is a place. -/
def Expr.isProper (sys : System) : Expr → Bool
  | .const _ l => l.hasText && l.isClassed sys
  | .binary _ .assign x _ => x.isPlace
  | _ => true

/-- All code is proper, variables start with constants that have a text, and all instances have a class. -/
def System.isProper (sys : System) : Bool :=
  sys.bodies.all (Expr.allEverywhere (Expr.isProper sys)) &&
    (sys.globals ++ sys.classes.flatMap (·.fields)).all (fun d =>
      d.init.all fun l => l.hasText && l.isClassed sys) &&
      (sys.instances.map (·.inst) ++ sys.processes.filterMap (·.inst)).all fun i => (sys.classOf? i).isSome

namespace Value

variable {sys : System} {x y : Value} {op : BinaryOp}

/-- If the value is an instance, it has a class. -/
def Classed (sys : System) (x : Value) : Prop :=
  ∀ i, x.asInstance? = some i → (sys.classOf? i).isSome = true

/-- Unknown, or the target of an assignment. -/
def IsPlace (x : Value) : Prop := ∀ p, x = .known p → ∃ v, p = .target v

theorem Classed.of_none (h : x.asInstance? = none) : x.Classed sys := by
  intro i hi
  rw [h] at hi
  cases hi

theorem classed_lit {l : Literal} (h : l.isClassed sys = true) : (lit l).Classed sys := by
  intro i hi
  cases l with
  | inst j =>
      obtain rfl : j = i := Option.some.inj hi
      exact h
  | _ => cases hi

theorem isPlace_unknown : IsPlace .unknown := fun _ h => nomatch h

theorem isPlace_target (v : Variable) : IsPlace (.known (.target v)) :=
  fun _ h => ⟨v, (known.inj h).symm⟩

theorem asInstance?_and : (x.and y).asInstance? = none := by
  unfold Value.and
  split
  · rfl
  · split <;> rfl

theorem asInstance?_or : (x.or y).asInstance? = none := by
  unfold Value.or
  split
  · rfl
  · split <;> rfl

theorem asInstance?_not : x.not.asInstance? = none := by
  unfold Value.not
  split <;> rfl

theorem asInstance?_applyInt {a b : Int64} : (applyInt op a b).asInstance? = none := by
  unfold applyInt
  split
  case h_4 | h_5 => split <;> rfl
  all_goals rfl

/-- Operators do not give instances. -/
theorem asInstance?_apply : (apply op x y).asInstance? = none := by
  unfold apply
  split
  · exact asInstance?_and
  · exact asInstance?_or
  · split <;> rfl
  · split <;> rfl
  · split
    · exact asInstance?_applyInt
    · split <;> rfl
    · rfl

theorem asInstance?_applyUnary {op : UnaryOp} : (applyUnary op x).asInstance? = none := by
  unfold applyUnary
  split
  · exact asInstance?_not
  · split <;> rfl
  · rfl

end Value

namespace System

variable {sys : System} {r : Routine} {l : Location} {up : Path} {i : Int} {e : Expr} {es : List Expr}

theorem isProper_at? (proper : sys.isProper = true) (he : sys.at? l = some e) : e.isProper sys = true := by
  simp only [isProper, Bool.and_eq_true] at proper
  obtain ⟨m, body, hr, hbody, -⟩ := at?_eq_some he
  have all := List.all_eq_true.1 proper.1.1 body (List.mem_of_getElem? hbody)
  refine test_at? (r := l.routine) ?_ he
  simpa [hr, System.body, hbody] using all

theorem written_of_proper (proper : sys.isProper = true) {d : Global}
    (hd : d ∈ sys.globals ++ sys.classes.flatMap (·.fields)) :
    d.init.all (fun l => l.hasText && l.isClassed sys) = true := by
  simp only [isProper, Bool.and_eq_true] at proper
  exact List.all_eq_true.1 proper.1.2 d hd

theorem classed_of_proper (proper : sys.isProper = true) {i : Instance}
    (hi : i ∈ sys.instances.map (·.inst) ++ sys.processes.filterMap (·.inst)) : (sys.classOf? i).isSome = true := by
  simp only [isProper, Bool.and_eq_true] at proper
  exact List.all_eq_true.1 proper.2 i hi

theorem mem_classes_of_classOf? {i : Instance} {c : ClassDef} (h : sys.classOf? i = some c) : c ∈ sys.classes := by
  unfold classOf? at h
  obtain ⟨d, -, h⟩ := Option.bind_eq_some_iff.1 h
  obtain ⟨k, -, h⟩ := Option.bind_eq_some_iff.1 h
  exact List.mem_of_getElem? h

/-- The list in which the children of a location stand. -/
def scope? (sys : System) (l : Location) : Option (List Expr) := Path.scope? (sys.body l.routine) l.path

theorem scope?_nil : sys.scope? ⟨r, []⟩ = some (sys.body r) := rfl

theorem scope?_cons (hes : sys.scope? ⟨r, up⟩ = some es) (he : elementAt? es i = some e) :
    sys.at? ⟨r, i :: up⟩ = some e ∧ sys.scope? ⟨r, i :: up⟩ = some e.children := by
  have hes : Path.scope? (sys.body r) up = some es := hes
  exact ⟨by simp [at?, Path.resolve?, hes, he], by simp [scope?, Path.scope?, hes, he]⟩

theorem scope?_cases (hes : sys.scope? ⟨r, i :: up⟩ = some es) :
    ∃ above e, sys.scope? ⟨r, up⟩ = some above ∧ elementAt? above i = some e ∧
      sys.at? ⟨r, i :: up⟩ = some e ∧ es = e.children := by
  obtain ⟨e, he, rfl⟩ := Option.map_eq_some_iff.1 hes
  obtain ⟨above, habove, he'⟩ := Option.bind_eq_some_iff.1 he
  exact ⟨above, e, habove, he', he, rfl⟩

theorem nonneg_of_scope? {path : Path} (hes : sys.scope? ⟨r, path⟩ = some es) : ∀ i ∈ path, 0 ≤ i := by
  induction path generalizing es with
  | nil => simp
  | cons i up ih =>
      obtain ⟨above, e, habove, he, -, -⟩ := scope?_cases hes
      exact List.forall_mem_cons.2 ⟨(elementAt?_lt he).1, ih habove⟩

theorem scope?_of_at? (he : sys.at? l = some e) : sys.scope? l = some e.children := by
  obtain ⟨r, path⟩ := l
  cases path with
  | nil => cases he
  | cons i up =>
      obtain ⟨above, habove, he⟩ := Option.bind_eq_some_iff.1 he
      have habove : sys.scope? ⟨r, up⟩ = some above := habove
      exact (scope?_cons habove he).2

/-- What is assigned to is a variable, or a field of what stands before it. -/
theorem assigned_place (proper : sys.isProper = true) (he : sys.at? l = some e)
    (assigned : sys.isAssigned l = true) : (∃ id d, e = .var id d) ∨
      ∃ id x m d, e = .access id x (.var m d) ∧ sys.isAssigned (l.child 1) = true := by
  obtain ⟨r, path⟩ := l
  cases path with
  | nil => cases he
  | cons i up =>
      rcases isAssigned_cases assigned with ⟨rfl, id, x, y, hq⟩ | ⟨rfl, up, id, x, m, id', a, b, rfl, hq, hb⟩
      · have place : x.isPlace = true := sys.isProper_at? proper hq
        obtain rfl : x = e := Option.some.inj ((at?_cons hq).symm.trans he)
        cases x with
        | var id d => exact .inl ⟨id, d, rfl⟩
        | access id x m =>
            cases m with
            | var m d => exact .inr ⟨id, x, m, d, rfl, isAssigned_member he hq⟩
            | _ => cases place
        | _ => cases place
      · have place : a.isPlace = true := sys.isProper_at? proper hb
        obtain rfl : a = .access id x m := Option.some.inj ((at?_cons hb).symm.trans hq)
        obtain rfl : m = e := Option.some.inj ((at?_cons hq).symm.trans he)
        cases m with
        | var m d => exact .inl ⟨m, d, rfl⟩
        | _ => cases place

theorem not_isAssigned_child {id : Nat} {args : List Expr} (he : sys.at? l = some (.call id r args)) (c : Int) :
    sys.isAssigned (l.child c) = false := by
  have above : sys.above? (l.child c) = some (.call id r args) := he
  unfold isAssigned
  rw [above]
  split
  · rename_i h
    cases h
  · rename_i h
    cases h
  · rfl

end System

/-- The frame waits for the result of a call. -/
def Frame.Calls (sys : System) (f : Frame) : Prop :=
  ∃ id r args, sys.at? f.location = some (.call id r args) ∧ f.comingFrom = args.length - 1

/-- The frame is at code that exists, next to a child or behind the arguments of a call, and has a list of
results for every level. Where the target of an assignment is expected, there is no other value. -/
structure Frame.Sound (sys : System) (f : Frame) : Prop where
  levels : f.levels.length = f.path.length + 1
  scope : ∃ es, sys.scope? f.location = some es ∧ -1 ≤ f.comingFrom ∧ (f.comingFrom < es.length ∨
    f.comingFrom = es.length ∧ ∃ id r args, sys.at? f.location = some (.call id r args))
  receiver : f.receiver.Classed sys
  results : ∀ (k : Nat) c v, f.slot? k c = some v → v.Classed sys ∧
    (sys.isAssigned ⟨f.location.routine, c :: f.path.drop k⟩ = true → v.IsPlace)

namespace Frame

variable {sys : System} {f : Frame} {r : Routine} {i j c : Int} {n : Nat} {up : Path} {e : Expr}
  {es : List Expr} {x : Value}

theorem slot?_pop_add (f : Frame) (n k : Nat) (c : Int) : (f.pop n).slot? k c = f.slot? (n + k : Nat) c := by
  simp only [slot?, pop, elementAt?_natCast, List.getElem?_drop]

namespace Sound

theorem firm (h : f.Sound sys) : f.Firm where
  levels := h.levels
  indices i hi := by
    obtain ⟨es, hes, -, -⟩ := h.scope
    exact System.nonneg_of_scope? hes i hi
  comingFrom := by
    obtain ⟨es, -, low, -⟩ := h.scope
    exact low

theorem start (r : Routine) (hx : x.Classed sys) : (Frame.start r x).Sound sys where
  levels := rfl
  scope := ⟨_, System.scope?_nil, Int.le_refl _, .inl (by simp [Frame.start]; omega)⟩
  receiver := hx
  results k c v hv := by
    have none : (Frame.start r x).slot? k c = none := by
      cases k <;> simp [slot?, Frame.start, elementAt?]
    rw [none] at hv
    cases hv

theorem value (h : f.Sound sys) (k : Nat) (c : Int) : (f.value k c).Classed sys := by
  unfold Frame.value
  cases hv : f.slot? k c with
  | none => exact .of_none rfl
  | some v => exact (h.results k c v hv).1

theorem place (h : f.Sound sys) (assigned : sys.isAssigned (f.location.child c) = true) :
    (f.value 0 c).IsPlace := by
  unfold Frame.value
  cases hv : f.slot? 0 c with
  | none => exact Value.isPlace_unknown
  | some v => exact (h.results 0 c v hv).2 assigned

/-- The bounds of the child from which evaluation comes back, at an expression other than a call. -/
theorem bounds (h : f.Sound sys) (he : sys.at? f.location = some e) (other : e.isCall = false) :
    -1 ≤ f.comingFrom ∧ f.comingFrom < e.children.length := by
  obtain ⟨es, hes, low, high⟩ := h.scope
  obtain rfl : e.children = es := Option.some.inj ((System.scope?_of_at? he).symm.trans hes)
  refine ⟨low, high.resolve_right ?_⟩
  rintro ⟨-, id, r, args, hcall⟩
  obtain rfl := Option.some.inj (he.symm.trans hcall)
  cases other

theorem enter (h : f.Sound sys) (hes : sys.scope? f.location = some es) (low : 0 ≤ i) (high : i < es.length) :
    (f.enter i).Sound sys where
  levels := congrArg (· + 1) h.levels
  scope := by
    have lt : i.toNat < es.length := by omega
    have he : elementAt? es i = some es[i.toNat] := by
      rw [elementAt?, if_neg (by omega), List.getElem?_eq_getElem lt]
    exact ⟨_, (System.scope?_cons hes he).2, Int.le_refl _, .inl (by simp [Frame.enter]; omega)⟩
  receiver := h.receiver
  results k c v hv := by
    cases k with
    | zero =>
        have none : (f.enter i).slot? 0 c = none := slot?_enter_zero
        rw [Int.ofNat_zero, none] at hv
        cases hv
    | succ k => exact h.results k c v (slot?_enter_succ k ▸ hv)

/-- Back to an expression above. -/
theorem back (h : f.Sound sys) (n : Nat) (inside : n ≤ f.path.length)
    (hes : sys.scope? (f.pop n).location = some es) (low : -1 ≤ j) (high : j < es.length) :
    Frame.Sound sys { f.pop n with comingFrom := j } where
  levels := by
    have levels := h.levels
    simp only [Frame.pop, path, List.length_drop] at levels inside ⊢
    omega
  scope := ⟨es, hes, low, .inl high⟩
  receiver := h.receiver
  results k c v hv := by
    have hv : (f.pop n).slot? k c = some v := hv
    rw [slot?_pop_add] at hv
    have result := h.results (n + k) c v hv
    rw [← List.drop_drop] at result
    exact result

/-- A result may be put where it fits. -/
theorem put (h : f.Sound sys) (n : Nat) {x : Option Value}
    (hx : ∀ v, x = some v → v.Classed sys ∧ (sys.isAssigned (f.location.child n) = true → v.IsPlace)) :
    (f.put n x).Sound sys := by
  have location := put_location f n x
  have path : (f.put n x).path = f.path := congrArg Location.path location
  refine ⟨?_, ?_, ?_, fun k c v hv => ?_⟩
  · rw [path, ← h.levels]
    unfold Frame.put
    split
    · rename_i levels
      simp [levels]
    · rfl
  · have from? : (f.put n x).comingFrom = f.comingFrom := by
      unfold Frame.put
      split <;> rfl
    rw [location, from?]
    exact h.scope
  · have receiver : (f.put n x).receiver = f.receiver := by
      unfold Frame.put
      split <;> rfl
    rw [receiver]
    exact h.receiver
  · rw [location, path]
    cases k with
    | zero =>
        obtain ⟨-, rfl, here⟩ | before := slot?_put_cases hv
        · exact hx v here
        · exact h.results 0 c v before
    | succ k => exact h.results (k + 1) c v (slot?_put_succ n x k ▸ hv)

/-- Leaving an expression with a result that fits. -/
theorem finish (h : f.Sound sys) (inside : f.path ≠ []) (hx : x.Classed sys)
    (place : sys.isAssigned f.location = true → x.IsPlace) : (sys.finish x f).Sound sys := by
  obtain ⟨es, hes, -, -⟩ := h.scope
  unfold System.finish leave
  cases hpath : f.path with
  | nil => exact absurd hpath inside
  | cons i up =>
      have here : f.location = ⟨f.location.routine, i :: up⟩ := location_of_path hpath
      rw [here] at hes
      obtain ⟨above, e, habove, he, -, -⟩ := System.scope?_cases hes
      have outer : (f.pop 1).location = ⟨f.location.routine, up⟩ := by simp [Frame.pop, hpath]
      obtain ⟨low, high⟩ := elementAt?_lt he
      obtain ⟨n, rfl⟩ := Int.eq_ofNat_of_zero_le low
      have popped := h.back (j := n) 1 (by simp [hpath]) (outer ▸ habove) (by omega) high
      dsimp only
      split
      · refine popped.put n fun v hv => ?_
        obtain rfl := Option.some.inj hv
        refine ⟨hx, fun assigned => place ?_⟩
        rw [here]
        have same : Location.child (f.pop 1).location n = ⟨f.location.routine, n :: up⟩ := by rw [outer]; rfl
        exact same ▸ assigned
      · exact popped

end Sound

/-- The caller goes on behind the arguments, where it finds the result. -/
theorem Sound.return (h : f.Sound sys) (calls : f.Calls sys) (hx : x.Classed sys) :
    Frame.Sound sys ({ f with comingFrom := f.comingFrom + 1 }.put (f.comingFrom + 1) (some x)) := by
  obtain ⟨id, r, args, hcall, arity⟩ := calls
  have width : (Expr.call id r args).children.length = args.length := rfl
  have next : Frame.Sound sys { f with comingFrom := args.length } := by
    refine ⟨h.levels, ⟨_, System.scope?_of_at? hcall, ?_, .inr ⟨?_, id, r, args, hcall⟩⟩, h.receiver, h.results⟩
    · exact Int.le_trans (by omega) (Int.natCast_nonneg _)
    · rw [width]
  have index : f.comingFrom + 1 = args.length := by omega
  rw [index]
  refine next.put args.length fun v hv => ?_
  obtain rfl := Option.some.inj hv
  refine ⟨hx, fun assigned => ?_⟩
  rw [System.not_isAssigned_child hcall] at assigned
  cases assigned

end Frame

/-- All frames are sound, and all but the innermost wait for the result of a call. -/
structure ProcessState.Sound (sys : System) (ps : ProcessState) : Prop where
  frames : ∀ f ∈ ps.stack, f.Sound sys
  callers : ∀ f ∈ ps.stack.tail, f.Calls sys
  locals : ∀ v x, ps.locals.get? v = some x → x.Classed sys

/-- The process has come to its end or has a frame to go on with. -/
def ProcessState.Framed (ps : ProcessState) : Prop := ps.blocker = some .terminated ∨ ps.stack ≠ []

namespace ProcessState

variable {sys : System} {ps : ProcessState} {f : Frame} {x : Value}

theorem Framed.of_waiting (h : ps.Framed) {b : Blocker} (waits : ps.blocker = some b) (other : b ≠ .terminated) :
    ps.stack ≠ [] := by
  refine h.resolve_left fun ended => other ?_
  rw [waits] at ended
  exact Option.some.inj ended

theorem resumption?_isSome (framed : ps.stack ≠ []) : ∃ stack, ps.resumption? = some stack := by
  unfold resumption?
  split
  · contradiction
  · exact ⟨_, rfl⟩

namespace Sound

theorem start (b : Option Blocker) (hf : f.Sound sys) : (ProcessState.start b [f]).Sound sys where
  frames _ hg := List.mem_singleton.1 hg ▸ hf
  callers _ hg := nomatch hg
  locals _ _ h := nomatch h

theorem block (h : ps.Sound sys) (b : Option Blocker) : (ps.block b).Sound sys := ⟨h.frames, h.callers, h.locals⟩

theorem push (h : ps.Sound sys) (hf : f.Sound sys) (calls : ∀ top, ps.top? = some top → top.Calls sys) :
    (ps.push f).Sound sys where
  frames g hg := (List.mem_cons.1 hg).elim (fun same => same ▸ hf) (h.frames g)
  callers g hg := by
    have hg : g ∈ ps.stack := hg
    cases hstack : ps.stack with
    | nil =>
        rw [hstack] at hg
        cases hg
    | cons top below =>
        rw [hstack] at hg
        rcases List.mem_cons.1 hg with rfl | hg
        · exact calls g (by rw [top?, hstack]; rfl)
        · exact h.callers g (by rw [hstack]; exact hg)
  locals := h.locals

theorem pop (h : ps.Sound sys) : ps.pop.Sound sys where
  frames f hf := h.frames f (List.mem_of_mem_tail hf)
  callers f hf := h.callers f (List.mem_of_mem_tail hf)
  locals := h.locals

theorem mapTop (h : ps.Sound sys) {g : Frame → Frame}
    (hg : ∀ top, ps.top? = some top → top.Sound sys → (g top).Sound sys) : (ps.mapTop g).Sound sys := by
  unfold ProcessState.mapTop
  split
  · rename_i top below hstack
    refine ⟨fun f hf => ?_, fun f hf => h.callers f (by rw [hstack]; exact hf), h.locals⟩
    rcases List.mem_cons.1 hf with rfl | hf
    · exact hg top (by rw [top?, hstack]; rfl) (h.frames top (by rw [hstack]; exact List.mem_cons_self))
    · exact h.frames f (by rw [hstack]; exact List.mem_cons_of_mem _ hf)
  · exact h

theorem setLocal (h : ps.Sound sys) (v : Variable) (hx : x.Classed sys) : (ps.setLocal v x).Sound sys := by
  refine ⟨h.frames, h.callers, fun w y hy => ?_⟩
  have hy : (ps.locals.insert v x).get? w = some y := hy
  rw [Table.get?_insert] at hy
  split at hy
  · exact Option.some.inj hy ▸ hx
  · exact h.locals w y hy

theorem dropLocal (h : ps.Sound sys) (v : Variable) : (ps.dropLocal v).Sound sys := by
  refine ⟨h.frames, h.callers, fun w y hy => ?_⟩
  have hy : (ps.locals.erase v).get? w = some y := hy
  rw [Table.get?_erase] at hy
  split at hy
  · cases hy
  · exact h.locals w y hy

theorem dropParams (h : ps.Sound sys) (r : Routine) : (Simulator.dropParams ps r).Sound sys := by
  unfold Simulator.dropParams
  generalize r :: ps.routines = stack
  induction r.params generalizing ps with
  | nil => exact h
  | cons d ds ih => exact ih (h.dropLocal _)

end Sound

end ProcessState

/-- Every process of the simulator has its state, and all values and update requests are sound. -/
structure State.Sound (s : Simulator) (st : State) : Prop where
  length : st.procs.length = s.procs.length
  procs : ∀ ps ∈ st.procs, ps.Sound s.program.system
  update : ∀ ps, st.update = some ps → ps.Sound s.program.system
  values : ∀ v x, st.global.values.get? v = some x → x.Classed s.program.system
  updates : ∀ i ∈ st.global.updates, (s.program.system.classOf? i).isSome = true
  single : st.global.Single

end DeltaSlice
