import DeltaSlice.Proofs.Dependence.Returns
import DeltaSlice.Proofs.Dependence.Transitions
import DeltaSlice.Proofs.Model.Numbered

/-!
Results of calls in plain dependence graphs. Wherever the value of a call is part of an expression,
the graph leads from the return statement that gave it to the statement that uses it.
-/

namespace DeltaSlice

open Dependence Pdg

def Expr.isReturn : Expr → Bool
  | ret .. => true
  | _ => false

/-- The node to which the accesses at a location stack belong. -/
def Program.nodeOf (p : Program) (origin : Option Instance) (st : Stack) : String :=
  (StatementId.point origin (p.trim st)).key

namespace Simulator

variable {s : Simulator} {start t r u : Transition}

theorem accesses_of_site {p : Program} {m : Move} {x : Site} (h : m.site? p = some x) :
    m.accesses p = x.accesses p := by
  have hexpr : ∃ e, m.step.expr = some e := by
    unfold Move.site? at h
    cases he : m.step.expr with
    | none => simp [he] at h
    | some e => exact ⟨e, rfl⟩
  obtain ⟨e, he⟩ := hexpr
  rw [← Site.filter_acts]
  simp [Move.accesses, Move.acts, he, h]

theorem smallStep_origin (plain : s.setup.observer = .pdg false) {st : SmallStep}
    (hst : (s.smallStep t).result = .ok st) (hr : r ∈ st.results) : r.origin = t.origin := by
  obtain ⟨st₀, rs, u, hadv, hu, -, hru, rfl⟩ := smallStep_mem hst hr
  rw [hru]
  exact (advance_keeps (silent_of_plain plain) hadv hu).2.2

theorem Walk.origin (plain : s.setup.observer = .pdg false) {ms : List Move}
    (h : s.Walk start ms t) : t.origin = start.origin := by
  induction h with
  | nil => rfl
  | snoc _ hst _ hr ih => exact (smallStep_origin plain hst hr).trans ih

section Use

variable {callee caller : Frame} {rest : List Frame} {m : Move}

/-- The return writes the result. -/
theorem Returning.defines (plain : s.setup.observer = .pdg false)
    (h : Returning s.program t callee caller rest) (hst : (s.smallStep t).result = .ok m.step)
    (hr : m.result ∈ m.step.results) (before : List Act) :
    Defines (before ++ m.accesses s.program)
      (.ofFrame (Stack.routines ((callee :: caller :: rest).map (·.location))) .result)
      (s.program.nodeOf t.origin ((callee :: caller :: rest).map (·.location))) := by
  obtain ⟨id, v, he⟩ := h.value
  obtain ⟨i, -, hsite⟩ := site?_of_smallStep plain h.frames he hst hr (by simp) (by
    intro i
    simp [Program.isRelevant, h.evaluated])
  rw [accesses_of_site hsite, ← smallStep_origin plain hst hr]
  exact Site.defines_of_ret
    (s := ⟨m.result, .ret id (some v), callee.comingFrom, i, _, callee.location, _⟩) rfl
    h.evaluated before

/-- The call keeps it. -/
theorem keeps_of_called (plain : s.setup.observer = .pdg false) (indexed : s.program.WellIndexed)
    {top : Frame} {id : Nat} {g : Routine} {args : List Expr} (hframes : t.frames = top :: rest)
    (he : s.program.at? top.location = some (.call id g args))
    (hcoming : top.comingFrom = args.length) (hreturns : g.returns = true)
    (hused : s.program.system.consumes top.location = true)
    (hst : (s.smallStep t).result = .ok m.step) (hr : m.result ∈ m.step.results) :
    ∀ x ∈ m.accesses s.program, ¬ x.Changes
      (.ofFrame (g :: Stack.routines ((top :: rest).map (·.location))) .result) := by
  obtain ⟨i, -, hsite⟩ := site?_of_smallStep plain hframes he hst hr (by simp) (by
    intro i
    simp [Program.isRelevant, Expr.children, hcoming])
  rw [accesses_of_site hsite]
  obtain ⟨-, -, hwritten, -⟩ := smallStep_called plain hframes he hcoming hst hr
  intro x hx
  exact Site.keeps_result (s := ⟨m.result, .call id g args, top.comingFrom, i, _, top.location, _⟩)
    rfl hcoming hreturns (indexed.isTopOfStatement_eq he hused).1 hwritten hx

/-- The expression above the call reads it. -/
theorem reads_of_used (plain : s.setup.observer = .pdg false) {top : Frame} {q : Expr} {id : Nat}
    {g : Routine} {args : List Expr} (hframes : t.frames = top :: rest)
    (hq : s.program.at? top.location = some q)
    (hret : ∀ id v, q = .ret id v → rest ≠ [])
    (hchild : elementAt? q.children top.comingFrom = some (.call id g args))
    (hreturns : g.returns = true)
    (hused : s.program.isTopOfStatement top.location.routine (.call id g args) = false)
    (hst : (s.smallStep t).result = .ok m.step) (hr : m.result ∈ m.step.results) :
    ∃ before after, m.accesses s.program = before ++ .read
        (.ofFrame (g :: Stack.routines ((top :: rest).map (·.location))) .result)
        (s.program.nodeOf t.origin ((top :: rest).map (·.location))) :: after ∧
      ∀ x ∈ before, ¬ x.Changes
        (.ofFrame (g :: Stack.routines ((top :: rest).map (·.location))) .result) := by
  have hcall : s.program.usedCall? top.location.routine q top.comingFrom = some g := by
    simp [Program.usedCall?, hchild, hreturns, hused]
  obtain ⟨i, -, hsite⟩ := site?_of_smallStep plain hframes hq hst hr hret (by
    intro i
    simp [Program.isRelevant, hcall])
  rw [accesses_of_site hsite, ← smallStep_origin plain hst hr]
  exact Site.reads_result (s := ⟨m.result, q, top.comingFrom, i, _, top.location, _⟩)
    (by simp only [usedResult?, hcall]; rfl)

/-- The value of the call of a frame is used: it is part of an expression, and if that is a return,
the return does not end the code. -/
structure Used (p : Program) (caller : Frame) (rest : List Frame) : Prop where
  part : p.system.consumes caller.location = true
  continues : rest ≠ [] ∨ (p.at? caller.location.parent).any (·.isReturn) = false

instance (p : Program) (caller : Frame) (rest : List Frame) : Decidable (Used p caller rest) :=
  decidable_of_iff (p.system.consumes caller.location = true ∧
    (rest ≠ [] ∨ (p.at? caller.location.parent).any (·.isReturn) = false))
    ⟨fun h => ⟨h.1, h.2⟩, fun h => ⟨h.part, h.continues⟩⟩

theorem Used.ne_nil {p : Program} (h : Used p caller rest) {id : Nat} {v : Option Expr}
    (hret : p.at? caller.location.parent = some (.ret id v)) : rest ≠ [] := by
  cases h.continues with
  | inl hrest => exact hrest
  | inr hother => simp [hret, Expr.isReturn] at hother

/-- On a sequence that returns a value to a call, the three small steps from the return on carry the
result to the expression above the call. -/
theorem Returning.flow (plain : s.setup.observer = .pdg false) (indexed : s.program.WellIndexed)
    {pre post : List Move} (hw : s.Walk start pre t)
    (h : Returning s.program t callee caller rest)
    (used : Used s.program caller rest) (hc : s.Completes start (pre ++ post) u) :
    ∃ v before after, traceOf s.program (pre ++ post) = before ++ .read v
        (s.program.nodeOf start.origin (caller.location.parent :: rest.map (·.location))) :: after ∧
      Defines before v
        (s.program.nodeOf start.origin ((callee :: caller :: rest).map (·.location))) := by
  obtain ⟨id, args, hcall, hargs⟩ := h.call
  have hused := used.part
  obtain ⟨htop, i, q, hhead, hq, hheld, hchild⟩ := indexed.isTopOfStatement_eq hcall hused
  -- The return.
  obtain ⟨m₁, post₁, rfl⟩ := List.exists_cons_of_ne_nil (Completes.ne_nil hw hc)
  obtain ⟨-, hst₁, hr₁⟩ := Route.split (b := true) hc
  rw [hw.endOf_eq] at hst₁
  obtain ⟨hends₁, f₁, hframes₁, hlocation₁, hcoming₁⟩ := h.step plain hst₁ hr₁
  have hw₁ := hw.snoc hst₁ hends₁ hr₁
  -- The call.
  rw [List.append_cons] at hc
  obtain ⟨m₂, post₂, rfl⟩ := List.exists_cons_of_ne_nil (Completes.ne_nil hw₁ hc)
  obtain ⟨-, hst₂, hr₂⟩ := Route.split (b := true) hc
  rw [hw₁.endOf_eq] at hst₂
  rw [← hlocation₁] at hcall hused hq
  have hdone : f₁.comingFrom = args.length := by
    rw [hcoming₁, hargs]
    omega
  obtain ⟨hends₂, -, -, f₂, hframes₂, hlocation₂, hhead₂⟩ :=
    smallStep_called plain hframes₁ hcall hdone hst₂ hr₂
  have hw₂ := hw₁.snoc hst₂ hends₂ hr₂
  -- The use.
  rw [List.append_cons] at hc
  obtain ⟨m₃, post₃, rfl⟩ := List.exists_cons_of_ne_nil (Completes.ne_nil hw₂ hc)
  obtain ⟨-, hst₃, hr₃⟩ := Route.split (b := true) hc
  rw [hw₂.endOf_eq] at hst₃
  have hplace : f₂.location = caller.location.parent := hlocation₂.trans (by rw [hlocation₁])
  have hindex : i = f₂.comingFrom := by
    rw [Frame.path, hlocation₁, hhead] at hhead₂
    exact Option.some.inj hhead₂
  obtain ⟨before, after, hreads, hkept⟩ := reads_of_used plain hframes₂ (hlocation₂ ▸ hq)
    (fun id v hret => used.ne_nil (hlocation₁ ▸ hret ▸ hq)) (hindex ▸ hchild) h.returns
    (by rw [hplace]; exact htop) hst₃ hr₃
  have hsame₁ : callee.location.routine :: Stack.routines ((f₁ :: rest).map (·.location)) =
      Stack.routines ((callee :: caller :: rest).map (·.location)) := by
    simp [Stack.routines, hlocation₁]
  have hsame₂ : callee.location.routine :: Stack.routines ((f₂ :: rest).map (·.location)) =
      Stack.routines ((callee :: caller :: rest).map (·.location)) := by
    simp [Stack.routines, hplace, Location.parent]
  rw [hsame₂] at hreads hkept
  have hwritten := h.defines plain hst₁ hr₁ (traceOf s.program pre)
  have hcalled := keeps_of_called plain indexed hframes₁ hcall hdone h.returns hused hst₂ hr₂
  rw [hsame₁] at hcalled
  rw [hw.origin plain] at hwritten
  have hstack : (f₂ :: rest).map (·.location) =
      caller.location.parent :: rest.map (·.location) := by
    rw [List.map_cons, hplace]
  rw [hw₂.origin plain, hstack] at hreads
  refine ⟨_, _, after ++ traceOf s.program post₃, ?_,
    defines_append_of_unchanged (defines_append_of_unchanged hwritten hcalled) hkept⟩
  simp [traceOf, hreads]

/-- A run of code with a sequence that returns a value to where it is used leaves a data edge. -/
theorem Contributes.edge_of_returning (plain : s.setup.observer = .pdg false)
    (indexed : s.program.WellIndexed) {e : Transition} {g : Pdg} (hrun : s.Contributes start e g)
    (keys : s.KeysDecide start (Move.accesses s.program)) {pre post : List Move}
    (hw : s.Walk start pre t) (h : Returning s.program t callee caller rest)
    (used : Used s.program caller rest) (hleads : s.Leads start (pre ++ post) e) :
    .edge .data
        (.statement (s.program.nodeOf start.origin ((callee :: caller :: rest).map (·.location))))
        (.statement (s.program.nodeOf start.origin
          (caller.location.parent :: rest.map (·.location)))) ∈ g.facts := by
  obtain ⟨⟨g₀, hstart⟩, ⟨ended, hended, he⟩, hedges⟩ := hrun
  obtain ⟨taken, hx⟩ := explored_of_run (merging_facts plain hstart) hended
  obtain ⟨u, hc, -⟩ := id hleads
  obtain ⟨v, before, after, htrace, hdefines⟩ := h.flow plain indexed hw used hc
  refine hedges _ _ ((flows_of_ended plain hstart keys hx he _).2 ⟨_, hleads, ?_⟩).1
  rw [htrace]
  exact edge_of_defines _ hdefines

end Use

/-- In every transition, whatever sequence of small steps of its code returns the value of a routine
to a call that is part of an expression, the completed graph leads from the return statement to the
statement that uses the value. -/
theorem resultEdge_of_transition (plain : s.setup.observer = .pdg false)
    (indexed : s.program.WellIndexed) {st : State} {ts : List Transition}
    (hstep : (∃ p, (s.makeStep p st).result = .ok ts) ∨ (s.endEvaluation st).result = .ok ts)
    (hr : r ∈ ts) :
    (∃ runs, s.Consists st runs r) ∧ ∀ runs, s.Consists st runs r →
      ∃ g, r.info = .pdg g ∧ ∀ start e, (start, e) ∈ runs →
        s.KeysDecide start (Move.accesses s.program) →
        ∀ pre post t callee caller rest, s.Walk start pre t →
          Returning s.program t callee caller rest → Used s.program caller rest →
          s.Leads start (pre ++ post) e →
          g.edge? .data
            (.statement (s.program.nodeOf start.origin
              ((callee :: caller :: rest).map (·.location))))
            (.statement (s.program.nodeOf start.origin
              (caller.location.parent :: rest.map (·.location)))) = .ok true := by
  refine ⟨?_, ?_⟩
  · cases hstep with
    | inl hstep =>
        obtain ⟨p, hstep⟩ := hstep
        exact consists_of_makeStep hstep hr
    | inr hstep => exact consists_of_endEvaluation hstep hr
  · intro runs hruns
    obtain ⟨g, hinfo, hg, hcontributes⟩ := hruns.contributes plain
    refine ⟨g, hinfo, ?_⟩
    intro start e hmem keys pre post t callee caller rest hw h used hleads
    rw [hg.edge?_eq_true]
    exact (hcontributes start e hmem).edge_of_returning plain indexed keys hw h used hleads

/-- Whether the small steps of the given numbers lead to a completed transition of the process, with
a value about to be returned after `k` of them, such that they and its graph pass a check. -/
def returnsAt (s : Simulator) (p : Process) (st : State) (l : List Nat) (k : Nat)
    (c : Transition → Pdg → Frame → Frame → List Frame → Bool) : Bool :=
  s.arrives p st l fun start ms g =>
    match ms.drop k, returning? s.program (endOf start (ms.take k)) with
    | _ :: _, some (callee, caller, rest) => c start g callee caller rest
    | _, _ => false

theorem exists_of_returnsAt {p : Process} {x : State} {l : List Nat} {k : Nat}
    {c : Transition → Pdg → Frame → Frame → List Frame → Bool}
    (h : s.returnsAt p x l k c = true) :
    ∃ start ts r g pre post t callee caller rest, s.begin? p x = .ok start ∧
      (s.makeStep p x).result = .ok ts ∧ r ∈ ts ∧ r.info = .pdg g ∧ s.Walk start pre t ∧
      Returning s.program t callee caller rest ∧ s.Leads start (pre ++ post) r ∧
      c start g callee caller rest = true := by
  obtain ⟨start, ts, r, g, ms, hbegin, hts, hr, hg, hleads, h⟩ := exists_of_arrives h
  split at h
  · rename_i m post callee caller rest hdrop hreturning
    have hms : ms.take k ++ m :: post = ms := by rw [← hdrop, List.take_append_drop]
    rw [← hms] at hleads
    exact ⟨start, ts, r, g, ms.take k, m :: post, _, callee, caller, rest, hbegin, hts, hr, hg,
      hleads.walk, returning_of_returning? hreturning, hleads, h⟩
  · cases h

end Simulator

namespace Examples

/-- A thread with the given body, in which calls of `f` give the value of `w`. -/
def calling (body : Expr → List Expr) : System :=
  let run := Routine.member ⟨0, "Top", "run", [], false⟩
  let f := Routine.member ⟨1, "Top", "f", [], true⟩
  let w := field 4 "w"
  let names := ["x", "y", "z", "c", "w", "v"]
  System.numbered {
    classes := [⟨"Top", names.zipIdx.map fun (n, i) => ⟨field i n, none⟩, [], [run, f]⟩]
    instances := [⟨top, some 0⟩]
    globals := []
    processes := [⟨"run", some top, some run, .thread, [], false⟩]
    bodies := [body (call f []), [.ret 0 (some (ref w))]] }

/-- `z = f();` -/
def assigned : System := calling fun f => [assign (field 2 "z") f]

end Examples

open Examples Simulator in
theorem resultEdge_of_transition_assigned :
    ∃ ts r runs start e pre post t callee caller rest,
      ((untracked assigned (.pdg false)).makeStep runner atStart).result = .ok ts ∧ r ∈ ts ∧
      (untracked assigned (.pdg false)).Consists atStart runs r ∧ (start, e) ∈ runs ∧
      (untracked assigned (.pdg false)).KeysDecide start (Move.accesses (.ofSystem assigned)) ∧
      (untracked assigned (.pdg false)).Walk start pre t ∧
      Returning (.ofSystem assigned) t callee caller rest ∧
      Used (.ofSystem assigned) caller rest ∧
      (untracked assigned (.pdg false)).Leads start (pre ++ post) e ∧
      ∃ g, r.info = .pdg g ∧ g.edge? .data
        (.statement ((Program.ofSystem assigned).nodeOf start.origin
          ((callee :: caller :: rest).map (·.location))))
        (.statement ((Program.ofSystem assigned).nodeOf start.origin
          (caller.location.parent :: rest.map (·.location)))) = .ok true := by
  obtain ⟨start, ts, r, g, pre, post, t, callee, caller, rest, hbegin, hts, hr, hg, hw, hreturning,
    hleads, h⟩ := exists_of_returnsAt (s := untracked assigned (.pdg false)) (p := runner)
    (x := atStart) (l := List.replicate 12 0) (k := 8)
    (c := fun start _ _ caller rest => (untracked assigned (.pdg false)).surveys
      (Move.accesses (.ofSystem assigned)) start
      ((untracked assigned (.pdg false)).survey 100 [] [(false, start)]) &&
      Used (.ofSystem assigned) caller rest) (by decide +kernel)
  simp only [Bool.and_eq_true, decide_eq_true_eq] at h
  have keys := keysDecide_of_surveys h.1
  obtain ⟨start', ended, hbegin', hrun, hfin⟩ := makeStep_cases hts
  obtain rfl : start = start' := by
    rw [hbegin] at hbegin'
    injection hbegin'
  obtain ⟨e, he, hstate, hinfo⟩ := finalize_mem hfin hr
  have hruns : (untracked assigned (.pdg false)).Consists atStart [(start, e)] r :=
    .step hbegin ⟨ended, hrun, he⟩ ⟨hstate, hinfo⟩
  have hleads' : (untracked assigned (.pdg false)).Leads start (pre ++ post) e := by
    obtain ⟨u, hc, hkey⟩ := hleads
    exact ⟨u, hc, by rw [hkey, hstate]⟩
  obtain ⟨g', hg', hedge⟩ := (resultEdge_of_transition (s := untracked assigned (.pdg false)) rfl
    (Program.wellIndexed_numbered _) (.inl ⟨runner, hts⟩) hr).2 _ hruns
  exact ⟨ts, r, _, start, e, pre, post, t, callee, caller, rest, hts, hr, hruns, by simp, keys, hw,
    hreturning, h.2, hleads', g', hg',
    hedge start e (by simp) keys pre post t callee caller rest hw hreturning h.2 hleads'⟩

namespace Examples

/-- `if (f()) z = 1;` -/
def tested : System := calling fun f => [.branch 0 f [assign (field 2 "z") (number 1)] []]

/-- `return f();` -/
def handedOn : System := calling fun f => [.ret 0 (some f)]

/-- A call in a branch that only one of two branches takes, and both have states of the same key
before it if `x` and `y` are tracked:
`if (c) { v = 1; x = "p),top.y=string(q"; } else { x = "p"; y = "q"; }`
`if (x == "p") z = f(); x = "0"; y = "0";` -/
def confused : System := calling fun f =>
  let x := field 0 "x"
  let y := field 1 "y"
  let text := fun t => const (.text t)
  [.branch 0 (ref (field 3 "c"))
    [assign (field 5 "v") (number 1), assign x (text "p),top.y=string(q")]
    [assign x (text "p"), assign y (text "q")],
   .branch 0 (.binary 0 .eq (ref x) (text "p")) [assign (field 2 "z") f] [],
   assign x (text "0"), assign y (text "0")]

/-- The simulator of a system, with the fields of the given names tracked. -/
def tracking (names : List String) (sys : System) (o : Observer) : Simulator :=
  let s := untracked sys o
  { s with setup := { s.setup with tracksVariable := fun v => names.contains v.text } }

end Examples

open Examples in
/-- Some sequence of small steps of the thread returns a value to a call, but no data edge leads from
the return statement to the node `use`. -/
def Simulator.Loses (s : Simulator) (use : String) : Prop :=
  ∃ start ts r g pre post t callee caller rest, s.begin? runner atStart = .ok start ∧
    (s.makeStep runner atStart).result = .ok ts ∧ r ∈ ts ∧ r.info = .pdg g ∧
    s.Walk start pre t ∧ Returning s.program t callee caller rest ∧
    s.Leads start (pre ++ post) r ∧
    g.edge? .data (.statement (s.program.nodeOf start.origin
      ((callee :: caller :: rest).map (·.location)))) (.statement use) ≠ .ok true

open Examples Simulator in
theorem Simulator.loses_of_returnsAt {s : Simulator} {use : String} {l : List Nat} {k : Nat}
    (h : s.returnsAt runner atStart l k (fun start g callee caller rest => !Success.yields
      (g.edge? .data (.statement (s.program.nodeOf start.origin
        ((callee :: caller :: rest).map (·.location)))) (.statement use)) id) = true) :
    s.Loses use := by
  obtain ⟨start, ts, r, g, pre, post, t, callee, caller, rest, hbegin, hts, hr, hg, hw, hreturning,
    hleads, h⟩ := exists_of_returnsAt h
  refine ⟨start, ts, r, g, pre, post, t, callee, caller, rest, hbegin, hts, hr, hg, hw, hreturning,
    hleads, ?_⟩
  intro hedge
  simp only [hedge] at h
  cases h

open Examples Simulator in
/-- Results get lost where the call is a condition, where its value is returned at the end of the
code, and where states with the same key go on differently. -/
theorem resultEdge_missing :
    (untracked tested (.pdg false)).Loses condition ∧
      (untracked handedOn (.pdg false)).Loses "top Top.run[0]" ∧
      (tracking ["top.x", "top.y"] confused (.pdg false)).Loses "top Top.run[1,1]" := by
  refine ⟨?_, ?_, ?_⟩
  · exact loses_of_returnsAt (l := List.replicate 16 0) (k := 6) (by decide +kernel)
  · exact loses_of_returnsAt (l := List.replicate 9 0) (k := 6) (by decide +kernel)
  · exact loses_of_returnsAt (l := [0, 0, 0, 1] ++ List.replicate 44 0) (k := 31)
      (by decide +kernel)

end DeltaSlice
