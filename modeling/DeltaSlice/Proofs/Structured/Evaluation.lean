import DeltaSlice.Proofs.Structured.Drains
import DeltaSlice.Proofs.Structured.Statements

/-!
Routines: small steps lead from the start of a routine to its return, and calls to their results. So
whatever structured evaluation does with a piece of code, small steps do.
-/

namespace DeltaSlice

namespace Structured

open Setting

namespace Runs

variable {sys : System} {this : Instance} {m m' : Memory} {es : List Expr} {vs : List Value}
  {o : Outcome}

theorem of_noTerms (h : Runs sys this (.terms [] vs) m m') : vs = [] ∧ m = m' := by
  cases h
  exact ⟨rfl, rfl⟩

theorem of_noStmts (h : Runs sys this (.stmts [] o) m m') : o = .normal ∧ m = m' := by
  cases h
  exact ⟨rfl, rfl⟩

theorem length_terms (h : Runs sys this (.terms es vs) m m') : vs.length = es.length := by
  induction es generalizing vs m with
  | nil => simp [h.of_noTerms.1]
  | cons e es ih =>
      cases h with
      | moreTerms first others => simp [ih others]

end Runs

variable {S : Setting} {m m' m'' : Memory} {v : Value} {o : Outcome} {id : Nat}

/-- A routine runs from its start to its return. -/
theorem Simulated.routine {r : Routine} {F : List Frame} {L : Store}
    (body : Simulated S m m' (.stmts (S.sys.body r) o)) (empty : S.sys.body r = [] → o = .normal ∧ m = m')
    (result : o.value? = some v) (agrees : Agrees m (callStack r F) L) :
    ∃ L' f, S.Reaches (S.point r [] (-1) [[]] F L m.globals) (.run f F L' m'.globals) ∧
      After m' (callStack r F) L L' ∧ S.Returns f v := by
  by_cases hbody : S.sys.body r = []
  · obtain ⟨rfl, rfl⟩ := empty hbody
    obtain rfl := Option.some.inj result
    exact ⟨L, _, .refl _, .refl agrees, returns_body (by simp [hbody])⟩
  · have first := body_first hbody [] [] F L m.globals
    obtain ⟨L', f, reaches, after, arrives⟩ := body (l := []) (B := []) (body_segment r) hbody agrees
    refine ⟨L', f, first.then reaches, after, ?_⟩
    cases o with
    | normal =>
        obtain rfl := Option.some.inj result
        obtain ⟨l, rfl⟩ := arrives
        exact returns_body (by omega)
    | ret w =>
        obtain rfl := Option.some.inj result
        exact arrives
    | exit | next => cases result

theorem Simulated.call {q : Member} {args : List Expr} {vs : List Value}
    (arguments : Simulated S m m' (.terms args vs)) (noArgs : args = [] → vs = [] ∧ m = m')
    (length : vs.length = args.length)
    (body : Simulated S (m'.call (.member q) vs) m'' (.stmts (S.sys.body (.member q)) o))
    (empty : S.sys.body (.member q) = [] → o = .normal ∧ m'.call (.member q) vs = m'')
    (result : o.value? = some v) :
    Simulated S m (m'.back m'') (.term (.call id (.member q) args) v) := by
  intro r i path l B F L he free agrees
  -- The arguments are evaluated one after the other.
  have evaluated : ∃ L₁ l₁, S.Reaches (S.point r (i :: path) (-1) ([] :: l :: B) F L m.globals)
      (S.point r (i :: path) ((args.length : Int) - 1) (l₁ :: l :: B) F L₁ m'.globals) ∧
      After m' (callStack r F) L L₁ ∧ ∀ k w, vs[k]? = some w → Level.get l₁ k = w := by
    by_cases hargs : args = []
    · obtain ⟨rfl, rfl⟩ := noArgs hargs
      refine ⟨L, [], ?_, .refl agrees, by simp⟩
      simpa [hargs] using Reaches.refl (S := S) _
    · have first := argument_first he hargs [] (l :: B) F L m.globals
      have hlen := List.length_pos_iff.2 hargs
      have seg : S.Segment r (i :: path) 0 true args := by
        refine .of_children he (fun j x hx => ?_)
          (fun j _ => System.free_child he (by simp) (by simp)) (fun _ _ => rfl)
          fun j hj => argument_next he (by omega)
        rw [elementAt?_natCast, Expr.children, Nat.zero_add, hx]
      obtain ⟨L₁, l₁, reaches, after, get⟩ := arguments (l := []) (B := l :: B) seg hargs agrees
      rw [show ((0 + args.length - 1 : Nat) : Int) = (args.length : Int) - 1 by omega] at reaches
      refine ⟨L₁, l₁, first.then reaches, after, fun k w hw => ?_⟩
      simpa using (get rfl).2 k w hw
  obtain ⟨L₁, l₁, reaches, after, values⟩ := evaluated
  -- The routine runs above the frame of its caller, whose variables it leaves alone.
  have starts := call_starts (F := F) (B := l :: B) (L := L₁) (G := m'.globals) he
    free.unqualified length values
  obtain ⟨L₂, f, runs, after₂, returns⟩ := body.routine
    (F := S.frame r (i :: path) ((args.length : Int) - 1) (l₁ :: l :: B) :: F) empty result
    (agrees_bind (m := m'.call (.member q) vs) (t := .empty) (by simp))
  have back := returns.goes (l := l₁) (B := l :: B) (F := F) (L := L₂) (G := m''.globals) he
  have last := call_last (U := l₁.set args.length (some v)) (l := l) (B := B) (F := F)
    (L := dropLocals (.member q :: callStack r F) L₂ q.params) (G := m''.globals) he
  rw [Level.get_set] at last
  have kept : Kept ((callStack r F).length + 1) L₁
      (dropLocals (.member q :: callStack r F) L₂ q.params) :=
    ((Kept.bindLocals (.member q :: callStack r F) q.params vs).trans after₂.kept).trans
      (Kept.dropLocals (.member q :: callStack r F) q.params)
  refine ⟨_, reaches.trans (starts.then (runs.trans (back.then last.reaches))), ?_, ?_⟩
  · exact kept.agrees (by omega) after.agrees
  · exact after.kept.trans (kept.mono (by omega))

/-- Whatever structured evaluation does, small steps do. -/
theorem Runs.simulated {task : Task} (h : Runs S.sys S.proc.inst task m m') (hm : m.Scalar) :
    Simulated S m m' task := by
  induction h with
  | int | bool => exact simulated_const rfl
  | var value => exact simulated_var value
  | unary operand ih => exact Simulated.unary (ih hm)
  | bracket inner ih => exact Simulated.bracket (ih hm)
  | binary operator left right ihl ihr =>
      obtain ⟨hm', hv⟩ := left.scalar hm
      exact Simulated.binary operator (ihl hm) (ihr hm') hv
  | assign value ih => exact Simulated.assign (ih hm)
  | call arguments body result iha ihb =>
      obtain ⟨hm', hvs⟩ := arguments.scalar hm
      exact Simulated.call (iha hm) (fun hargs => (hargs ▸ arguments).of_noTerms) arguments.length_terms
        (ihb (hm'.call _ hvs)) (fun hbody => (hbody ▸ body).of_noStmts) result
  | noTerms => exact simulated_noTerms
  | moreTerms first others ihf iho =>
      exact Simulated.moreTerms (ihf hm) (iho (first.scalar hm).1)
        fun hes => (hes ▸ others).of_noTerms
  | expression value ih => exact Simulated.expression (ih hm)
  | block list ih => exact Simulated.block (ih hm) fun hes => (hes ▸ list).of_noStmts
  | branch condition determined taken ihc iht =>
      exact Simulated.branch (ihc hm) determined (iht (condition.scalar hm).1)
        fun hes => (hes ▸ taken).of_noStmts
  | whileLoop loop ih => exact Simulated.whileLoop (ih hm)
  | doLoop first loop ihf ihl => exact Simulated.doLoop (ihf hm) (ihl (first.scalar hm).1)
  | doOnce first ih => exact Simulated.doOnce (ih hm)
  | forLoop start loop ihs ihl => exact Simulated.forLoop (ihs hm) (ihl (start.scalar hm).1)
  | exit => exact simulated_exit
  | next => exact simulated_next
  | ret => exact simulated_ret
  | retValue value ih => exact Simulated.retValue (ih hm)
  | noStmts => exact simulated_noStmts
  | moreStmts first others ihf iho =>
      exact Simulated.moreStmts (ihf hm) (iho (first.scalar hm).1)
        fun hes => (hes ▸ others).of_noStmts
  | leave first left ih => exact Simulated.leave (ih hm) left
  | passed inner more F ihi ihr =>
      exact Simulated.passed (ihi hm) more (ihr (inner.scalar hm).1)
        (fun hes => (hes ▸ inner).of_noStmts.2) fun hes => (hes ▸ F).of_noTerms.2
  | broken inner left ih => exact Simulated.broken (ih hm) left fun hes => (hes ▸ inner).of_noStmts.1
  | done condition fails ih => exact Simulated.done (ih hm) fails
  | again condition holds round loop ihc ihr ihl =>
      have hm₁ := (condition.scalar hm).1
      exact Simulated.again (ihc hm) holds (ihr hm₁) (ihl (round.scalar hm₁).1)
  | last condition holds round ihc ihr =>
      exact Simulated.last (ihc hm) holds (ihr (condition.scalar hm).1)

end Structured

end DeltaSlice

/-!
Small steps evaluate structured code. Where structured evaluation of the routine of a process comes to an
end, a run of the process gives one transition, and the state it leads to holds the values that structured
evaluation gave to the variables. Keys have to tell states apart, as they do in a legible vocabulary: where
two variables are written alike, a loop may lose its only branch.
-/

namespace DeltaSlice

namespace Structured

open Setting Simulator

/-- The state of a process whose code has come to its end. -/
def finished (base : State) (p : Process) (values locals : Store) : State :=
  { base with
    global := { base.global with values }
    procs := base.procs.set p.index ⟨some .terminated, [], locals⟩ }

section Bounds

variable {S : Setting} {c c' d : Config} {ends : Bool} {n : Nat}

/-- The same setting with another bound on the small steps of a run. -/
def Setting.bounded (S : Setting) (fuel : Nat) : Setting :=
  { S with sim := S.sim.bounded fuel }

theorem Setting.Goes.bounded (goes : S.Goes ends c c') (fuel : Nat) :
    (S.bounded fuel).Goes ends c c' := by
  intro firm t shows
  have same : (S.bounded fuel).sim.smallStep t = S.sim.smallStep t := smallStep_bounded t
  rw [same]
  obtain ⟨st, r, hst, hres, hends, hr⟩ := goes firm t ⟨shows.proc, shows.state, shows.unfrozen⟩
  exact ⟨st, r, hst, hres, hends, hr.proc, hr.state, hr.unfrozen⟩

theorem Setting.Course.bounded (h : S.Course n c d) (fuel : Nat) : (S.bounded fuel).Course n c d := by
  induction h with
  | last firm ends => exact .last firm (ends.bounded fuel)
  | next firm step _ ih => exact .next firm (step.bounded fuel) ih

end Bounds

/-- A run of a process that is so many steps before the end of its code. -/
theorem Setting.Course.makeStep {S : Setting} {w : Vocabulary} {n : Nat} {c d : Config}
    (code : Code S.sys S.proc.routine) (speaks : Speaks w S.sys S.proc) (legible : w.Legible)
    (within : S.base.Within w) (active : S.sim.aborted = false) (course : S.Course n c d)
    (tame : S.Tame w c) (start : S.state c = S.base) (enough : n + 2 ≤ S.sim.fuel) (o : Observer) :
    Sure o ((S.sim.observedBy o).makeStep S.proc S.base).result
      fun ts => ∃ t, ts = [t] ∧ t.state = S.state d := by
  have running : (S.sim.observedBy o).aborted = false := active
  have sure : ∀ {α : Type} {x : Except Halt α}, (o = .none → ∃ a, x = .ok a) → Sure o x fun _ => True :=
    fun h => ⟨fun _ _ => trivial, h⟩
  unfold Simulator.makeStep
  rw [running, if_neg Bool.false_ne_true, Run.result_bind]
  refine (sure fun quiet => ⟨_, by rw [show (S.sim.observedBy o).setup.observer = _ from quiet]; rfl⟩).bind
    fun info _ => ?_
  rw [Run.result_bind]
  refine Sure.bind (P := fun ts => ∃ t, ts = [t] ∧ S.Shows t d) ?_ ?_
  · have under : S.Underway w n c d ⟨⟨[(S.base.key,
        { Transition.start S.base S.sim.setup.observer.neutral (some S.proc) (some S.proc.inst) with info })]⟩,
        .empty, .empty⟩ := by
      refine ⟨tame, course, ⟨_, _, rfl, rfl, start.symm, rfl⟩, rfl, by simp [Table.empty]⟩
    have ran := under.drain active o code speaks legible within enough []
    unfold Simulator.run
    rw [Run.result_bind]
    change Sure o (((S.sim.observedBy o).drain S.sim.fuel [] _) >>= fun w =>
      (pure w.ended.transitions : Step _)).result _
    rw [Run.result_bind]
    refine ran.bind fun l' ended => ?_
    exact .ok ended.ended
  · rintro _ ⟨t, rfl, shows⟩
    unfold Simulator.finalize
    rw [Run.result_bind]
    refine (sure fun quiet => ⟨_, by rw [show (S.sim.observedBy o).setup.observer = _ from quiet]; rfl⟩).bind
      fun info _ => .ok ⟨_, rfl, shows.state⟩

/-- A process at the start of its routine, in a state of numbers and truth values. -/
theorem Setting.tame_start (S : Setting) {w : Vocabulary} (within : S.base.Within w)
    (scalar : ∀ e ∈ S.base.global.values.entries, e.2.isScalar = true) :
    S.Tame w (S.point S.proc.routine [] (-1) [[]] [] .empty S.base.global.values) where
  ready := rfl
  called := .start
  frames := List.forall_mem_singleton.2 (.start _)
  locals := .empty
  values := ⟨within.values.keys, within.values.vars, fun e he => .of_scalar (scalar e he)⟩

/-- Small steps evaluate structured code. Where structured evaluation of the routine of a process without
sensitivity comes to an end, so does a run of the process, if it may take enough small steps. It gives
exactly one transition: the global variables have the values that structured evaluation gave them, and the
process has terminated, with nothing on its stack. In this all variables are tracked, and all that states
speak of belongs to a legible vocabulary. -/
theorem makeStep_of_runs {s : Simulator} {p : Process} {base : State} {w : Vocabulary}
    (tracked : ∀ v, s.setup.tracksVariable v = true) (active : s.aborted = false)
    (code : Code s.program.system p.routine) (plain : p.sensitivity = [])
    (ready : base.procs[p.index]? = some (initProcess p))
    (scalar : ∀ e ∈ base.global.values.entries, e.2.isScalar = true)
    (legible : w.Legible) (speaks : Speaks w s.program.system p) (within : base.Within w)
    {o : Outcome} {v : Value} {m : Memory}
    (runs : Runs s.program.system p.inst (.stmts (s.program.system.body p.routine) o)
      ⟨base.global.values, .empty⟩ m)
    (ended : o.value? = some v) :
    ∃ N, ∀ fuel, N ≤ fuel → Sure s.setup.observer ((s.bounded fuel).makeStep p base).result
      fun ts => ∃ t locals, ts = [t] ∧ t.state = finished base p m.globals locals := by
  obtain ⟨place, here⟩ := List.getElem?_eq_some_iff.1 ready
  let S : Setting := ⟨s.observedBy .none, base, p, rfl, tracked, place⟩
  have numbers : Memory.Scalar ⟨base.global.values, .empty⟩ :=
    ⟨fun v x hx => scalar _ (Table.mem_of_get? hx), by simp⟩
  have body : Simulated S ⟨base.global.values, .empty⟩ m (.stmts (S.sys.body p.routine) o) :=
    Runs.simulated runs numbers
  have nothing : S.sys.body p.routine = [] →
      o = .normal ∧ (⟨base.global.values, .empty⟩ : Memory) = m := by
    intro hbody
    have runs : Runs S.sys p.inst (.stmts (S.sys.body p.routine) o) ⟨base.global.values, .empty⟩ m :=
      runs
    exact (hbody ▸ runs).of_noStmts
  obtain ⟨locals, f, reaches, -, returns⟩ : ∃ L' f, S.Reaches
      (S.point p.routine [] (-1) [[]] [] .empty base.global.values) (.run f [] L' m.globals) ∧
      After m (callStack p.routine []) .empty L' ∧ S.Returns f v :=
    body.routine nothing ended fun d v hv => by simp at hv
  have firm : (S.point p.routine [] (-1) [[]] [] .empty base.global.values).Firm :=
    List.forall_mem_singleton.2 (.start _ _)
  obtain ⟨n, course⟩ := Course.of_reaches firm reaches (returns.ends plain)
  refine ⟨n + 2, fun fuel enough => ?_⟩
  have start : (S.bounded fuel).state
      (S.point p.routine [] (-1) [[]] [] .empty base.global.values) = base := by
    have unblocked : initProcess p = (S.point p.routine [] (-1) [[]] [] .empty base.global.values).proc := by
      simp only [initProcess, plain, List.isEmpty_nil, Bool.not_true, Bool.and_false]
      rfl
    change { base with procs := base.procs.set p.index _ } = base
    rw [← unblocked, ← here, List.set_getElem_self]
  have made := Course.makeStep (S := S.bounded fuel) code speaks legible within active
    (course.bounded fuel) ((S.bounded fuel).tame_start within scalar) start enough s.setup.observer
  refine made.mono fun ts result => ?_
  obtain ⟨t, hts, state⟩ := result
  exact ⟨t, locals, hts, state⟩

end Structured

namespace Examples
open Structured Simulator

/-- The routine `f` of `Top` with a parameter `n`. -/
def successor : Member := ⟨1, "Top", "f", [⟨0, "n", .param⟩], true⟩

/-- `x = 0; while (x < 1) { x = f(x); }` where `f(n)` gives `n + 1`. -/
def counting : System :=
  let x := field 0 "x"
  { classes := [⟨"Top", [⟨x, none⟩], [], [runner.routine, .member successor]⟩]
    instances := [⟨top, some 0⟩]
    globals := []
    processes := [⟨"run", some top, some runner.routine, .thread, [], false⟩]
    bodies := [
      [.binary 0 .assign (.var 1 x) (.const 2 (.int 0)),
        .whileLoop 3 "" (.binary 4 .lt (.var 5 x) (.const 6 (.int 1)))
          [.binary 7 .assign (.var 8 x) (.call 9 (.member successor) [.var 10 x])]],
      [.ret 11 (some (.binary 12 .add (.var 13 ⟨0, "n", .param⟩) (.const 14 (.int 1))))]] }

/-- The memory in which `x` is `n`. -/
def counted (n : Int64) : Memory := ⟨⟨[(ownField 0 "x", .int n)]⟩, .empty⟩

theorem counting_runs :
    Runs counting top (.stmts (counting.body runner.routine) .normal) ⟨.empty, .empty⟩ (counted 1) := by
  have start : Runs counting top (.term (.binary 0 .assign (.var 1 (field 0 "x")) (.const 2 (.int 0)))
      (.int 0)) ⟨.empty, .empty⟩ (counted 0) := .assign .int
  have test : ∀ n, Runs counting top (.term (.binary 4 .lt (.var 5 (field 0 "x")) (.const 6 (.int 1)))
      (.apply .lt (.int n) (.int 1))) (counted n) (counted n) := fun n =>
    .binary (by decide) (.var rfl) .int
  have sum : Runs counting top (.term (.binary 12 .add (.var 13 ⟨0, "n", .param⟩) (.const 14 (.int 1)))
      (.apply .add (.int 0) (.int 1))) ((counted 0).call (.member successor) [.int 0])
      ((counted 0).call (.member successor) [.int 0]) := .binary (by decide) (.var rfl) .int
  have call : Runs counting top (.term (.call 9 (.member successor) [.var 10 (field 0 "x")])
      (.apply .add (.int 0) (.int 1))) (counted 0)
      ((counted 0).back ((counted 0).call (.member successor) [.int 0])) :=
    .call (.moreTerms (.var rfl) .noTerms) (.leave (.retValue sum) (by simp)) rfl
  have round : Runs counting top (.term (.binary 7 .assign (.var 8 (field 0 "x"))
      (.call 9 (.member successor) [.var 10 (field 0 "x")])) (.apply .add (.int 0) (.int 1)))
      (counted 0) (counted 1) := .assign call
  exact .moreStmts (.expression start) (.moreStmts (.whileLoop (.again (test 0) rfl
    (.passed (.moreStmts (.expression round) .noStmts) rfl .noTerms) (.done (test 1) rfl))) .noStmts)

/-- An expression that is no call of another routine than `r`. -/
def callsOnly (r : Routine) : Expr → Bool
  | .call _ q _ => q = r
  | _ => true

def callsNothing : Expr → Bool
  | .call .. => false
  | _ => true

/-- An expression that is no name of another variable than `d`. -/
def namesOnly (d : Decl) : Expr → Bool
  | .var _ e => e = d
  | _ => true

/-- The call stacks of `counting`: the routine alone, or below `f`. -/
theorem counting_called {stack : List Routine} (h : Called counting runner.routine stack) :
    stack = [runner.routine] ∨ stack = [.member successor, runner.routine] := by
  induction h with
  | start => exact .inl rfl
  | call caller site ih =>
      rcases ih with heq | heq
      · obtain ⟨rfl, rfl⟩ := List.cons.inj heq
        have := System.test_at? (p := callsOnly (.member successor)) (by decide) site
        obtain rfl := of_decide_eq_true this
        exact .inr rfl
      · obtain ⟨rfl, rfl⟩ := List.cons.inj heq
        have := System.test_at? (p := callsNothing) (by decide) site
        cases this

def countingWords : Vocabulary where
  instances := {top}
  events := ∅
  routines := {runner.routine, .member successor}
  vars := {ownField 0 "x", .ofFrame [.member successor, runner.routine] (.decl ⟨0, "n", .param⟩)}

theorem countingWords_legible : countingWords.Legible where
  instances := ⟨by simp [countingWords], by simp [countingWords, top], by simp [countingWords, top]⟩
  events := ⟨by simp [countingWords], by simp [countingWords], by simp [countingWords]⟩
  routines := ⟨by
      rintro a (rfl | rfl) b (rfl | rfl) <;> simp [runner, successor, Routine.text],
    by simp [countingWords, runner, successor, Routine.text],
    by simp [countingWords, runner, successor, Routine.text]⟩
  vars := ⟨by
      rintro a (rfl | rfl) b (rfl | rfl) <;>
        simp [ownField, field, top, Variable.text, Variable.ofFrame, LocalName.text, runner, successor, Routine.text],
    by simp [countingWords, ownField, field, top, Variable.text, Variable.ofFrame, LocalName.text, runner, successor,
      Routine.text],
    by simp [countingWords, ownField, field, top, Variable.text, Variable.ofFrame, LocalName.text, runner, successor,
      Routine.text]⟩


theorem counting_code : Code counting runner.routine := by
  intro r rest path e called he
  refine System.test_at? ?_ he
  rcases counting_called called with heq | heq <;> obtain ⟨rfl, -⟩ := List.cons.inj heq <;> decide

theorem counting_speaks : Speaks countingWords counting runner where
  this := rfl
  routines := by
    intro r rest called
    rcases counting_called called with heq | heq <;> obtain ⟨rfl, -⟩ := List.cons.inj heq
    · exact .inl rfl
    · exact .inr rfl
  names := by
    intro r rest path id d called he
    rcases counting_called called with heq | heq <;> obtain ⟨rfl, rfl⟩ := List.cons.inj heq
    · have := System.test_at? (p := namesOnly (field 0 "x")) (by decide) he
      obtain rfl := of_decide_eq_true this
      exact ⟨.inl rfl, by decide⟩
    · have := System.test_at? (p := namesOnly ⟨0, "n", .param⟩) (by decide) he
      obtain rfl := of_decide_eq_true this
      exact ⟨.inr rfl, by decide⟩
  params := by
    intro r rest d called hd
    rcases counting_called called with heq | heq <;> obtain ⟨rfl, rfl⟩ := List.cons.inj heq
    · cases hd
    · obtain rfl := List.mem_singleton.1 hd
      exact .inr rfl

theorem atStart_within : atStart.Within countingWords where
  values := ⟨.nil, by simp [atStart, GlobalState.start, Table.empty], by simp [atStart, GlobalState.start, Table.empty]⟩
  keys := .nil
  pending := by simp [atStart, GlobalState.start, Table.empty]
  updates := by simp [atStart, GlobalState.start]
  procs := by
    intro ps hps
    obtain rfl := List.mem_singleton.1 hps
    refine ⟨by simp [Simulator.initProcess, runner, ProcessState.start], ?_, TameStore.empty.within⟩
    intro f hf
    obtain rfl := List.mem_singleton.1 hf
    exact ⟨.inl rfl, rfl, by simp [Frame.start]⟩
  update := by simp [atStart]

end Examples

namespace Structured

open Examples in
/-- A loop that calls a routine. -/
theorem makeStep_of_runs_counting : ∃ N, ∀ fuel, N ≤ fuel → ∃ t,
    (((tracked counting).bounded fuel).makeStep runner atStart).result = .ok [t] ∧
      t.state.global.values = (counted 1).globals := by
  obtain ⟨N, runs⟩ := makeStep_of_runs (s := tracked counting) (fun _ => rfl) rfl counting_code rfl rfl
    (by decide) countingWords_legible counting_speaks atStart_within counting_runs rfl
  refine ⟨N, fun fuel enough => ?_⟩
  obtain ⟨shape, succeeds⟩ := runs fuel enough
  obtain ⟨ts, hts⟩ := succeeds rfl
  obtain ⟨t, locals, rfl, state⟩ := shape ts hts
  exact ⟨t, hts, by rw [state]; rfl⟩

end Structured

namespace Examples

open Structured Simulator

/-- `a = 0; a' = 1; while (a < a') { a = a + 1; a' = 3 - a; }` where both variables are fields of that
name. -/
def homonyms : System :=
  let a := field 0 "a"
  let a' := field 1 "a"
  { classes := [⟨"Top", [⟨a, none⟩], [], [runner.routine]⟩, ⟨"Base", [⟨a', none⟩], [], []⟩]
    instances := [⟨top, some 0⟩]
    globals := []
    processes := [⟨"run", some top, some runner.routine, .thread, [], false⟩]
    bodies := [[.binary 0 .assign (.var 1 a) (.const 2 (.int 0)),
      .binary 3 .assign (.var 4 a') (.const 5 (.int 1)),
      .whileLoop 6 "" (.binary 7 .lt (.var 8 a) (.var 9 a'))
        [.binary 10 .assign (.var 11 a) (.binary 12 .add (.var 13 a) (.const 14 (.int 1))),
          .binary 15 .assign (.var 16 a') (.binary 17 .sub (.const 18 (.int 3)) (.var 19 a))]]] }

/-- The memory in which the two variables have these values. -/
def holdingBoth (n k : Int64) : Memory :=
  ⟨⟨[(ownField 0 "a", .int n), (ownField 1 "a", .int k)]⟩, .empty⟩

theorem homonyms_runs : Runs homonyms top (.stmts (homonyms.body runner.routine) .normal)
    ⟨.empty, .empty⟩ (holdingBoth 2 1) := by
  have first : Runs homonyms top (.term (.binary 0 .assign (.var 1 (field 0 "a")) (.const 2 (.int 0)))
      (.int 0)) ⟨.empty, .empty⟩ ⟨⟨[(ownField 0 "a", .int 0)]⟩, .empty⟩ := .assign .int
  have second : Runs homonyms top (.term (.binary 3 .assign (.var 4 (field 1 "a")) (.const 5 (.int 1)))
      (.int 1)) ⟨⟨[(ownField 0 "a", .int 0)]⟩, .empty⟩ (holdingBoth 0 1) := .assign .int
  have test : ∀ n k, Runs homonyms top (.term (.binary 7 .lt (.var 8 (field 0 "a"))
      (.var 9 (field 1 "a"))) (.apply .lt (.int n) (.int k))) (holdingBoth n k) (holdingBoth n k) :=
    fun n k => .binary (by decide) (.var rfl) (.var rfl)
  have more : ∀ n k, Runs homonyms top (.term (.binary 10 .assign (.var 11 (field 0 "a"))
      (.binary 12 .add (.var 13 (field 0 "a")) (.const 14 (.int 1)))) (.apply .add (.int n) (.int 1)))
      (holdingBoth n k) (holdingBoth (n + 1) k) :=
    fun n k => .assign (.binary (by decide) (.var rfl) .int)
  have less : ∀ n k, Runs homonyms top (.term (.binary 15 .assign (.var 16 (field 1 "a"))
      (.binary 17 .sub (.const 18 (.int 3)) (.var 19 (field 0 "a")))) (.apply .sub (.int 3) (.int n)))
      (holdingBoth n k) (holdingBoth n (3 - n)) :=
    fun n k => .assign (.binary (by decide) .int (.var rfl))
  have round : ∀ n k, Runs homonyms top (.pass "" [.binary 10 .assign (.var 11 (field 0 "a"))
      (.binary 12 .add (.var 13 (field 0 "a")) (.const 14 (.int 1))),
      .binary 15 .assign (.var 16 (field 1 "a"))
        (.binary 17 .sub (.const 18 (.int 3)) (.var 19 (field 0 "a")))] [] none)
      (holdingBoth n k) (holdingBoth (n + 1) (3 - (n + 1))) :=
    fun n k => .passed (.moreStmts (.expression (more n k)) (.moreStmts (.expression (less _ _))
      .noStmts)) rfl .noTerms
  exact .moreStmts (.expression first) (.moreStmts (.expression second) (.moreStmts (.whileLoop
    (.again (test 0 1) rfl (round 0 1) (.again (test 1 2) rfl (round 1 2) (.done (test 2 1) rfl))))
    .noStmts))

theorem homonyms_code : Code homonyms runner.routine := by
  have called : ∀ {stack}, Called homonyms runner.routine stack → stack = [runner.routine] := by
    intro stack h
    induction h with
    | start => rfl
    | call caller site ih =>
        obtain ⟨rfl, rfl⟩ := List.cons.inj ih
        cases System.test_at? (p := callsNothing) (by decide) site
  intro r rest path e h he
  obtain ⟨rfl, -⟩ := List.cons.inj (called h)
  exact System.test_at? (by decide) he

end Examples

open Examples Structured in
/-- Structured evaluation comes to an end, but the loop comes back with the values of the two variables
exchanged, which makes no difference to the key of the state: the only branch is dropped. -/
theorem branch_lost_homonyms : (∀ v, (tracked homonyms).setup.tracksVariable v = true) ∧
    Code homonyms runner.routine ∧ runner.sensitivity = [] ∧
    atStart.procs[runner.index]? = some (Simulator.initProcess runner) ∧
    atStart.global.values = .empty ∧
    Runs homonyms top (.stmts (homonyms.body runner.routine) .normal) ⟨.empty, .empty⟩
      (holdingBoth 2 1) ∧
    ((tracked homonyms).makeStep runner atStart).result = .ok [] := by
  obtain ⟨ts, hts, hnil⟩ := Success.exists_of_yields (c := List.isEmpty)
    (x := ((tracked homonyms).makeStep runner atStart).result) (by decide +kernel)
  obtain rfl := List.isEmpty_iff.1 hnil
  exact ⟨fun _ => rfl, homonyms_code, rfl, rfl, rfl, homonyms_runs, hts⟩

end DeltaSlice
