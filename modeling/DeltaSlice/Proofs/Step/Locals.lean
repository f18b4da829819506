import DeltaSlice.Proofs.Step.Obedience
import DeltaSlice.Proofs.Waits.Stops
import DeltaSlice.Proofs.Waits.Wakeups

/-!
Local variables and the frames they belong to. A return drops the parameters of the frame that it ends, and nothing
else. So a local variable with a value is one of a frame on the call stack, or one that a frame left behind: because
it was the outermost frame, or because the variable is no parameter.
-/

namespace DeltaSlice

/-- The code of a routine assigns to a local variable. -/
def System.Assigns (sys : System) (r : Routine) (d : Decl) : Prop :=
  ∃ path id, sys.at? ⟨r, path⟩ = some (.var id d) ∧ sys.isAssigned ⟨r, path⟩ = true ∧ d.isGlobal = false

namespace Variable

/-- The variable is one of a frame on the call stack: it has the depth of the frame, and its scope is the text of the
routines up to there. -/
def InScope (stack : List Routine) : Variable → Prop
  | frame scope depth _ => 0 < depth ∧ depth ≤ stack.length ∧
      scope = "/".intercalate ((stack.reverse.take depth).map Routine.text)
  | _ => False

variable {stack scope : List Routine}

theorem inScope_ofFrame (some : scope ≠ []) (h : scope <:+ stack) (name : LocalName) :
    (ofFrame scope name).InScope stack := by
  obtain ⟨inner, rfl⟩ := h
  refine ⟨List.length_pos_iff.2 some, by simp, ?_⟩
  rw [List.reverse_append, List.take_left' (by simp)]

theorem not_inScope_deeper (name : LocalName) (r : Routine) : ¬ (ofFrame (r :: stack) name).InScope stack :=
  fun h => Nat.not_succ_le_self _ h.2.1

end Variable

namespace Simulator

/-- Under a call stack, a local variable may have a value. It got it by an assignment, or as a parameter of a call;
its frame is on the stack, or it was left behind by a frame that has ended. -/
inductive Keeps (s : Simulator) (stack : List Routine) : Variable → Prop
  | intro {r : Routine} {rest : List Routine} {d : Decl} : s.Arises (r :: rest) →
      s.setup.tracksVariable (.ofFrame (r :: rest) (.decl d)) = true →
      s.program.system.Assigns r d ∨ rest ≠ [] ∧ d ∈ r.params →
      r :: rest <:+ stack ∨ rest = [] ∨ d ∉ r.params → s.Keeps stack (.ofFrame (r :: rest) (.decl d))

/-- Tracked local variables that are assigned to are parameters of routines that are called. -/
def TracksParams (s : Simulator) : Prop :=
  ∀ r rest d, s.Arises (r :: rest) → s.program.system.Assigns r d →
    s.setup.tracksVariable (.ofFrame (r :: rest) (.decl d)) = true → rest ≠ [] ∧ d ∈ r.params

variable {s : Simulator} {first st : State} {stack : List Routine} {v : Variable}

/-- Then all of them are parameters of frames that are still there. -/
theorem Keeps.param (h : s.Keeps stack v) (only : s.TracksParams) : ∃ r rest d,
    v = .ofFrame (r :: rest) (.decl d) ∧ r :: rest <:+ stack ∧ rest ≠ [] ∧ d ∈ r.params := by
  obtain @⟨r, rest, d, arises, tracked, set, scope⟩ := h
  have param : rest ≠ [] ∧ d ∈ r.params := set.elim (fun assigns => only r rest d arises assigns tracked) id
  refine ⟨r, rest, d, rfl, ?_, param⟩
  rcases scope with live | outermost | other
  · exact live
  · exact absurd outermost param.1
  · exact absurd param.2 other

theorem Keeps.inScope (h : s.Keeps stack v) (only : s.TracksParams) : v.InScope stack := by
  obtain ⟨r, rest, d, rfl, live, -⟩ := h.param only
  exact Variable.inScope_ofFrame (by simp) live _

/-- The values that local variables get. -/
def scoping (s : Simulator) : Discipline s where
  plain x := ∀ v, x = .known (.target v) → v.isLocal = false
  place stack x := ∀ v, x = .known (.target v) → v.isLocal = true → ∃ r rest d, stack = r :: rest ∧
    v = .ofFrame stack (.decl d) ∧ s.Arises stack ∧ s.program.system.Assigns r d
  held := s.Keeps
  delay _ := True
  simple := by
    rintro x (rfl | ⟨l, rfl, -⟩) v hv <;> cases hv
  constant _ _ hv := nomatch hv
  events _ _ _ _ _ hv := nomatch hv
  plain_place h v hv isLocal := absurd isLocal (by simp [h v hv])
  global _ _ _ v hv isLocal := by
    cases hv
    cases isLocal
  own := by
    intro l id d stack arises he assigned own v hv _
    cases hv
    exact ⟨l.routine, stack, d, rfl, rfl, arises, l.path, id, he, assigned, own⟩
  push r _ _ h := by
    obtain ⟨arises, tracked, set, scope⟩ := h
    exact .intro arises tracked set (scope.imp_left fun live => live.trans (List.suffix_cons _ _))
  pop := by
    intro r stack v h others
    obtain @⟨r', rest, d, arises, tracked, set, scope⟩ := h
    refine .intro arises tracked set (scope.elim (fun live => ?_) .inr)
    rcases List.suffix_cons_iff.1 live with same | live
    · obtain ⟨rfl, rfl⟩ := List.cons.inj same
      exact .inr (.inr fun hd => others d hd rfl)
    · exact .inl live
  last := by
    intro r v h
    obtain ⟨arises, tracked, set, scope⟩ := h
    refine .intro arises tracked set (.inr (scope.elim (fun live => .inl ?_) id))
    exact List.length_eq_zero_iff.1 (Nat.le_zero.1 (Nat.le_of_succ_le_succ live.length_le))
  target := by
    intro r stack v h isLocal tracked
    obtain ⟨_, _, d, same, rfl, arises, assigns⟩ := h v rfl isLocal
    obtain ⟨rfl, rfl⟩ := List.cons.inj same
    exact .intro arises tracked (.inl assigns) (.inl (List.suffix_refl _))
  param arises called hd tracked := .intro arises tracked (.inr ⟨called, hd⟩) (.inl (List.suffix_refl _))
  delta := trivial
  literal_delay _ := trivial
  timeout _ _ := trivial

/-- Code that assigns to no local variables keeps none but parameters, whatever is tracked. -/
theorem tracksParams_of_code (all : s.program.system.bodies.all (Expr.allEverywhere fun
    | .binary _ .assign (.var _ d) _ | .binary _ .assign (.access _ _ (.var _ d)) _ => d.isGlobal
    | _ => true) = true) : s.TracksParams := by
  intro r rest d _ assigns _
  obtain ⟨path, id, he, assigned, own⟩ := assigns
  have never : d.isGlobal = true := by
    cases path with
    | nil => simp [System.isAssigned] at assigned
    | cons i up =>
        rcases System.isAssigned_cases assigned with
          ⟨rfl, id', x, y, hat⟩ | ⟨rfl, up', id', x, m, id'', a, b, rfl, hat, hat'⟩
        · have same : x = .var id d := Option.some.inj ((System.at?_cons hat).symm.trans he)
          subst same
          exact System.test_bodies all hat
        · have same : m = .var id d := Option.some.inj ((System.at?_cons hat).symm.trans he)
          have same' : a = .access id' x m := Option.some.inj ((System.at?_cons hat').symm.trans hat)
          subst same' same
          exact System.test_bodies all hat'
  rw [never] at own
  cases own

/-- Local variables and the frames they belong to. What has a value in a state that can be reached is the variable
of a frame on the call stack or was left behind, by the outermost frame or as no parameter. If only parameters of
called routines are tracked among the variables that are assigned to, then all that have a value are variables of
frames on the call stack: where the code of a process has ended or starts over there is none, and a frame that is
called finds none of its own. -/
theorem locals_in_scope {sys : System} {setup : Setup} (made : make sys setup = .ok s) (start : s.initial = .ok first) :
    (∀ st, s.Reachable first st → ∀ ps ∈ st.procs, ∀ v x, ps.locals.get? v = some x → s.Keeps ps.routines v) ∧
    (s.TracksParams →
      (∀ st, s.Reachable first st → ∀ ps ∈ st.procs,
        (∀ v x, ps.locals.get? v = some x → v.InScope ps.routines) ∧
        (ps.stack.length ≤ 1 → ∀ v, ps.locals.get? v = none)) ∧
      ∀ begun t ps, s.Begins first begun → s.Occurs begun false t → t.running? = some ps →
        (∀ v x, ps.locals.get? v = some x → v.InScope ps.routines) ∧
        ∀ r name, ps.locals.get? (.ofFrame (r :: ps.routines) name) = none) := by
  have placed := placed_of_make made
  have invariant : s.Invariant first (·.Obeys s.scoping) := by
    refine s.scoping.invariant start (fun v x hx => ?_) (Discipline.measures_of_all _ fun _ => trivial)
      (Discipline.passes_of_all _ fun _ => trivial)
    obtain ⟨l, rfl⟩ := initial_literals start hx
    exact fun _ hw => nomatch hw
  have keeps : ∀ {st : State}, s.Reachable first st → ∀ {ps}, ps ∈ st.procs → ∀ {v x}, ps.locals.get? v = some x →
      s.Keeps ps.routines v :=
    fun reached _ hps _ _ hx => (((invariant.reachable placed start reached).procs _ hps).locals _ _ hx).2
  refine ⟨fun st reached ps hps v x hx => keeps reached hps hx, fun only => ⟨fun st reached ps hps =>
    ⟨fun v x hx => (keeps reached hps hx).inScope only, fun few v => ?_⟩, fun begun t ps begins occurs hps => ?_⟩⟩
  · refine Option.eq_none_iff_forall_not_mem.2 fun x hx => ?_
    obtain ⟨r, rest, d, -, live, called, -⟩ := (keeps reached hps hx).param only
    have length := live.length_le
    rw [ProcessState.routines, List.length_map, List.length_cons] at length
    have := List.length_pos_iff.2 called
    omega
  · have obeys := Transition.running_obeys (invariant.occurs placed start begins occurs) hps
    have live : ∀ v x, ps.locals.get? v = some x → v.InScope ps.routines :=
      fun v x hx => (obeys.locals v x hx).2.inScope only
    refine ⟨live, fun r name => Option.eq_none_iff_forall_not_mem.2 fun x hx => ?_⟩
    exact Variable.not_inScope_deeper name r (live _ x hx)

end Simulator

namespace Examples

/-- The thread calls a routine, which waits for the bell. -/
def listening : System :=
  let first : Decl := ⟨0, "first", .param⟩
  let listen := Routine.member ⟨1, "Top", "listen", [first], false⟩
  let run := Routine.member ⟨0, "Top", "run", [], false⟩
  System.numbered {
    classes := [⟨"Top", [], ["e"], [run, listen]⟩]
    instances := [⟨top, some 0⟩]
    globals := []
    processes := [⟨"run", some top, some run, .thread, [], false⟩]
    bodies := [[call listen [number 1]], [wait [.event 0 "e"]]] }

/-- The thread calls a routine twice. The first call assigns to its local variable, and the second one only returns
what the variable has. -/
def remembering : System :=
  let r := field 0 "r"
  let first : Decl := ⟨1, "first", .param⟩
  let l : Decl := ⟨2, "l", .frame⟩
  let run := Routine.member ⟨0, "Top", "run", [], false⟩
  let f := Routine.member ⟨1, "Top", "f", [first], true⟩
  System.numbered {
    classes := [⟨"Top", [⟨r, none⟩], [], [run, f]⟩]
    instances := [⟨top, some 0⟩]
    globals := []
    processes := [⟨"run", some top, some run, .thread, [], false⟩]
    bodies := [[call f [const (.bool true)], assign r (call f [const (.bool false)])],
      [.branch 0 (ref first) [assign l (number 5)] [], .ret 0 (some (ref l))]] }

end Examples

open Examples Simulator in
theorem locals_in_scope_listening : ∃ s first st ps, make listening watching = .ok s ∧ s.initial = .ok first ∧
    s.TracksParams ∧ s.Reachable first st ∧ ps ∈ st.procs ∧
    ps.locals.entries = [(.frame "Top.run/Top.listen" 2 (.decl ⟨0, "first", .param⟩), .int 1)] ∧
    (Variable.frame "Top.run/Top.listen" 2 (.decl ⟨0, "first", .param⟩)).InScope ps.routines := by
  obtain ⟨s, made, h⟩ := Success.exists_of_yields (x := make listening watching) (c := fun s =>
    Success.yields s.initial fun first => (s.choose first 0).any fun st => st.procs.any fun ps =>
      ps.locals.entries = [(.frame "Top.run/Top.listen" 2 (.decl ⟨0, "first", .param⟩), .int 1)]) (by decide +kernel)
  obtain ⟨first, start, h⟩ := Success.exists_of_yields h
  obtain ⟨st, chosen, h⟩ := (Option.any_eq_true _ _).1 h
  obtain ⟨ps, hps, h⟩ := List.any_eq_true.1 h
  have held := of_decide_eq_true h
  have reached : s.Reachable first st := Reachable.start.choose chosen
  have params : s.TracksParams := tracksParams_of_code (by
    obtain ⟨-, rfl⟩ := make_cases made
    decide)
  obtain ⟨-, live⟩ := locals_in_scope made start
  obtain ⟨live, -⟩ := (live params).1 st reached ps hps
  exact ⟨s, first, st, ps, made, start, params, reached, hps, held,
    live _ (.int 1) (by rw [Table.get?, held]; rfl)⟩

open Examples Simulator in
/-- The second call reads what the first one left behind, and so does the state in which the thread has ended. -/
theorem local_left_behind : ∃ s first st ps v, make remembering watching = .ok s ∧ s.initial = .ok first ∧
    s.Reachable first st ∧ st.procs = [ps] ∧ ps.blocker = some .terminated ∧ ps.stack = [] ∧
    ps.locals.get? v = some (.int 5) ∧ ¬ v.InScope ps.routines ∧
    st.global.values.get? (.ofOwner (.inst top) (field 0 "r")) = some (.int 5) := by
  obtain ⟨s, made, h⟩ := Success.exists_of_yields (x := make remembering watching) (c := fun s =>
    Success.yields s.initial fun first => (s.choose first 0).any fun st => st.procs.any fun ps =>
      st.procs.length = 1 && ps.blocker = some .terminated && ps.stack.length = 0 &&
      ps.locals.get? (.frame "Top.run/Top.f" 2 (.decl ⟨2, "l", .frame⟩)) = some (.int 5) &&
      st.global.values.get? (.ofOwner (.inst top) (field 0 "r")) = some (.int 5)) (by decide +kernel)
  obtain ⟨first, start, h⟩ := Success.exists_of_yields h
  obtain ⟨st, chosen, h⟩ := (Option.any_eq_true _ _).1 h
  obtain ⟨ps, hps, h⟩ := List.any_eq_true.1 h
  simp only [Bool.and_eq_true, decide_eq_true_eq] at h
  obtain ⟨⟨⟨⟨one, ended⟩, empty⟩, held⟩, read⟩ := h
  obtain ⟨q, alone⟩ := List.length_eq_one_iff.1 one
  rw [alone] at hps
  obtain rfl := List.mem_singleton.1 hps
  have none := List.length_eq_zero_iff.1 empty
  refine ⟨s, first, st, ps, _, made, start, Reachable.start.choose chosen, alone, ended, none, held, fun h => ?_, read⟩
  have deep := h.2.1
  rw [ProcessState.routines, none] at deep
  cases deep

end DeltaSlice
