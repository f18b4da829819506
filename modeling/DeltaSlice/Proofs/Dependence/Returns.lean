import DeltaSlice.Proofs.Dependence.Connect
import DeltaSlice.Proofs.Dependence.Traces
import DeltaSlice.Proofs.Model.Parents

/-!
The way of a result. A return writes the result of its frame, the call that it returns to forgets the
frame but keeps the result while it is used, and the expression above the call reads it. These are
three small steps in a row.
-/

namespace DeltaSlice

open Dependence Pdg

theorem Program.trim_of_formsOwnNode {p : Program} {l : Location}
    (h : p.formsOwnNode l.routine (p.at? l) = true) (rest : Stack) :
    p.trim (l :: rest) = l :: rest := by
  obtain ⟨r, path⟩ := l
  cases path with
  | nil => rfl
  | cons i up => rw [trim, ownPath, if_pos h]

namespace Dependence

theorem mem_foldl_addVariable {v : Variable} (vs l : List Variable) :
    v ∈ vs.foldl Transition.addVariable l ↔ v ∈ l ∨ v ∈ vs := by
  induction vs generalizing l with
  | nil => simp
  | cons w vs ih =>
      rw [List.foldl_cons, ih, Transition.addVariable]
      by_cases hw : l.contains w
      · have hmem := List.contains_iff_mem.1 hw
        rw [if_pos hw, List.mem_cons]
        constructor
        · intro h
          exact h.imp_right .inr
        · intro h
          rcases h with h | rfl | h
          · exact .inl h
          · exact .inl hmem
          · exact .inr h
      · rw [if_neg hw, List.mem_append, List.mem_singleton, List.mem_cons, or_assoc]

namespace Site

variable {p : Program} {s : Site}

/-- The accesses of an expression with a node of its own belong to this node. -/
theorem owner_eq (own : p.formsOwnNode s.here.routine (p.at? s.here) = true) : s.owner p = s.statement := by
  rw [owner, statement, stack, Program.trim_of_formsOwnNode own]

theorem result_ne (stack : List Routine) (r : Routine) :
    Variable.ofFrame (r :: stack) .result ≠ Variable.ofFrame stack .result := by
  intro h
  have := (Variable.frame.inj h).2.1
  simp at this

/-- The accesses of a step: what is released, then reads, then writes. A result that is used is
forgotten after it was read. -/
def accesses (p : Program) (s : Site) : List Act :=
  (s.released p).map .forget ++ ((s.reads p).map (.read · (s.owner p).key) ++
    ((usedResult? p s).toList.map (fun v => .forget (.only v)) ++
      s.writes.map (.write · (s.owner p).key)))

theorem filter_acts : (s.acts p).filter Act.isAccess = s.accesses p := by
  have asked : ∀ (c : Prop) [Decidable c] (a : String),
      (if c then [Act.make a] else []).filter Act.isAccess = [] := by
    intro c _ a
    split <;> simp [Act.isAccess]
  have kept : ∀ {α : Type} (l : List α) (f : α → Act), (∀ x, (f x).isAccess = true) →
      (l.map f).filter Act.isAccess = l.map f := by
    intro α l f hf
    exact List.filter_eq_self.2 (by simp [hf])
  have made : ∀ (vs : List Variable) (f : Variable → Act), (∀ v, (f v).isAccess = true) →
      (if vs = [] then [] else .make (s.owner p).key :: vs.map f).filter Act.isAccess = vs.map f := by
    intro vs f hf
    split
    · rename_i hnil
      simp [hnil]
    · rw [List.filter_cons_of_neg (by simp [Act.isAccess]), kept vs f hf]
  simp only [acts, accessActs, accesses, List.filter_append, asked,
    made _ (.read · _) (fun _ => rfl), made _ (.write · _) (fun _ => rfl),
    kept _ .forget (fun _ => rfl), kept _ (fun v => .forget (.only v)) (fun _ => rfl),
    List.append_nil, List.nil_append, List.append_assoc]

/-- The accesses of a step that change a variable. -/
theorem changes_accesses {v : Variable} {x : Act} (hx : x ∈ s.accesses p) (hc : x.Changes v) :
    (∃ what ∈ s.released p, what.drops v = true) ∨ usedResult? p s = some v ∨
      (v ∈ s.writes ∧ x = .write v (s.owner p).key) := by
  simp only [accesses, List.mem_append, List.mem_map, Option.mem_toList] at hx
  rcases hx with ⟨what, hwhat, rfl⟩ | ⟨w, -, rfl⟩ | ⟨w, hw, rfl⟩ | ⟨w, hw, rfl⟩
  · exact .inl ⟨what, hwhat, changes_forget.1 hc⟩
  · exact absurd hc changes_read
  · have hdrops := changes_forget.1 hc
    simp only [Forgetting.drops, decide_eq_true_eq] at hdrops
    exact .inr (.inl (hdrops ▸ hw))
  · obtain rfl := changes_write.1 hc
    exact .inr (.inr ⟨hw, rfl⟩)

/-- A return with a value defines the result of its frame. -/
theorem defines_of_ret {id : Nat} {value : Option Expr} (he : s.expr = .ret id value)
    (hc : s.comingFrom = 0) (before : List Act) :
    Defines (before ++ s.accesses p) (.ofFrame s.routines .result)
      (s.owner p).key := by
  have hmem : Variable.ofFrame s.routines .result ∈ s.writes := by
    simp only [writes, he, hc, if_true, mem_foldl_addVariable]
    simp
  refine defines_append before ?_ ?_
  · simp [accesses, hmem]
  · intro x hx hchanges
    rcases changes_accesses hx hchanges with ⟨what, hwhat, -⟩ | hused | hwrite
    · simp [released, he] at hwhat
    · obtain ⟨r, -, hr⟩ := Option.map_eq_some_iff.1 hused
      exact absurd hr (result_ne _ _)
    · exact hwrite.2

/-- A call that was returned to keeps its result while it is used. -/
theorem keeps_result {id : Nat} {r : Routine} {args : List Expr} (he : s.expr = .call id r args)
    (hc : s.comingFrom = args.length) (hreturns : r.returns = true)
    (hused : p.isTopOfStatement s.here.routine s.expr = false) (hwritten : s.after.scratch.written = [])
    {x : Act} (hx : x ∈ s.accesses p) :
    ¬ x.Changes (.ofFrame (r :: s.routines) .result) := by
  have harity : s.arity = args.length := by simp [arity, he, Expr.children]
  have hopen : s.finished = false := by
    simp only [finished, harity, hc, decide_eq_false_iff_not]
    omega
  intro hchanges
  rcases changes_accesses hx hchanges with ⟨what, hwhat, hdrops⟩ | hresult | hwrite
  · rw [he] at hused
    simp only [released, he, hc, harity, if_true, hreturns, hused, Bool.not_false, Bool.and_self,
      List.mem_singleton] at hwhat
    subst hwhat
    simp [Forgetting.drops, Variable.ofFrame] at hdrops
  · have hnone : elementAt? (Expr.call id r args).children args.length = none := by
      simp [elementAt?, Expr.children]
    simp [usedResult?, Program.usedCall?, he, hc, hnone] at hresult
  · have hnil : s.writes = [] := by
      cases r with
      | wait | requestUpdate => simp [writes, he, bound, hopen, hwritten]
      | member m => simp [writes, he, bound, hopen, hwritten]
    rw [hnil] at hwrite
    cases hwrite.1

/-- The expression above a call reads its result. -/
theorem reads_result {v : Variable} (hv : usedResult? p s = some v) :
    ∃ before after, s.accesses p = before ++ .read v (s.owner p).key :: after ∧
      ∀ x ∈ before, ¬ x.Changes v := by
  have hmem : v ∈ s.reads p := by
    rw [reads, mem_foldl_addVariable]
    simp [hv]
  have hreleased : s.released p = [] := by
    obtain ⟨r, hr, -⟩ := Option.map_eq_some_iff.1 hv
    unfold released
    split
    · rename_i id f args he
      have hinside : s.comingFrom ≠ s.arity := by
        intro hc
        have hnone : elementAt? s.expr.children s.comingFrom = none := by
          rw [hc]
          simp [elementAt?, arity]
        simp [Program.usedCall?, hnone] at hr
      rw [if_neg hinside]
    · rfl
  obtain ⟨l, l', hl⟩ := List.append_of_mem hmem
  refine ⟨l.map (.read · (s.owner p).key), l'.map (.read · (s.owner p).key) ++
    ((usedResult? p s).toList.map (fun v => .forget (.only v)) ++
      s.writes.map (.write · (s.owner p).key)), ?_, ?_⟩
  · simp only [accesses, hreleased, hl, List.map_nil, List.nil_append, List.map_append,
      List.map_cons, List.append_assoc, List.cons_append]
  · intro x hx
    obtain ⟨w, -, rfl⟩ := List.mem_map.1 hx
    exact changes_read

end Site

end Dependence

namespace Transition

/-- The execution stack of the running code, the innermost frame first. -/
def frames (t : Transition) : List Frame := (t.running?.map (·.stack)).getD []

/-- The transition before a small step, with the accesses of the last one dropped. -/
def announcing (t : Transition) (a : Option Stack) : Transition :=
  t.resetAccesses.mapScratch fun sc => { sc with announced := a }

theorem running?_mapRunning (t : Transition) (f : ProcessState → ProcessState) :
    (t.mapRunning f).running? = t.running?.map f := by
  unfold mapRunning
  cases hps : t.running? with
  | none => simp [hps]
  | some ps =>
      unfold setRunning
      cases hproc : t.proc with
      | none => simp [running?]
      | some p =>
          simp only [running?, hproc] at hps
          simp only [running?, State.setProc, Option.map_some]
          rw [List.getElem?_set_self (List.getElem?_eq_some_iff.1 hps).1]

theorem scratch_mapRunning (t : Transition) (f : ProcessState → ProcessState) :
    (t.mapRunning f).scratch = t.scratch := by
  unfold mapRunning setRunning
  cases t.running? with
  | none => rfl
  | some ps => cases t.proc <;> rfl

theorem frames_eq_cons {t : Transition} {top : Frame} {below : List Frame} :
    t.frames = top :: below ↔ ∃ ps, t.running? = some ps ∧ ps.stack = top :: below := by
  unfold frames
  cases t.running? with
  | none => simp
  | some ps => simp

theorem top?_eq_head? (t : Transition) : t.top? = t.frames.head? := by
  unfold top? frames
  cases t.running? <;> rfl

theorem top?_of_frames {t : Transition} {top : Frame} {below : List Frame} (h : t.frames = top :: below) :
    t.top? = some top := by
  rw [top?_eq_head?, h]
  rfl

theorem frames_of_top {t : Transition} {ps : ProcessState} {top : Frame} (hps : t.running? = some ps)
    (htop : t.top? = some top) : ∃ below, ps.stack = top :: below ∧ t.frames = top :: below := by
  unfold top? at htop
  rw [hps, Option.bind_some] at htop
  obtain ⟨below, stack⟩ := List.head?_eq_some_iff.1 htop
  exact ⟨below, stack, frames_eq_cons.2 ⟨ps, hps, stack⟩⟩

theorem frames_pop {t : Transition} {top : Frame} {below : List Frame} (h : t.frames = top :: below) :
    (t.mapRunning (·.pop)).frames = below := by
  obtain ⟨ps, hps, hstack⟩ := frames_eq_cons.1 h
  simp [frames, running?_mapRunning, hps, ProcessState.pop, hstack]

theorem frames_editPop (t : Transition) : (t.editRunning ProcessState.editPop).frames = t.frames.tail := by
  rw [editPop_eq]
  change (t.mapRunning (·.pop)).frames = _
  simp only [frames, running?_mapRunning]
  cases t.running? <;> rfl

theorem frames_push {t : Transition} {top : Frame} {below : List Frame} (h : t.frames = top :: below)
    (callee : Frame) : (t.mapRunning (·.push callee)).frames = callee :: top :: below := by
  obtain ⟨ps, hps, hstack⟩ := frames_eq_cons.1 h
  simp [frames, running?_mapRunning, hps, ProcessState.push, hstack]

theorem frames_mapTop {t : Transition} {top : Frame} {below : List Frame}
    (h : t.frames = top :: below) (f : Frame → Frame) :
    (t.mapTop f).frames = f top :: below := by
  obtain ⟨ps, hps, hstack⟩ := frames_eq_cons.1 h
  simp [frames, mapTop, running?_mapRunning, hps, ProcessState.mapTop, hstack]

theorem frames_finish {t : Transition} {top : Frame} {below : List Frame} (h : t.frames = top :: below)
    (sys : System) (v : Value) : (t.finish sys v).frames = sys.finish v top :: below := by
  rw [finish_eq]
  exact frames_mapTop h _

theorem running?_finish (t : Transition) (sys : System) (v : Value) :
    (t.finish sys v).running? = t.running?.map (·.mapTop (sys.finish v)) := by
  rw [finish_eq]
  exact running?_mapRunning t _

theorem frames_comeFrom {t : Transition} {top : Frame} {below : List Frame} (h : t.frames = top :: below)
    (i : Int) (x : Option Value) : (t.editTop (Frame.editComeFrom i x)).frames =
      { top with comingFrom := i }.put i x :: below := by
  rw [comeFrom_eq]
  exact frames_mapTop h _

theorem scratch_editRunning {β : Type} (t : Transition) (e : Edit ProcessState β) :
    (t.editRunning e).scratch = t.scratch := by
  unfold editRunning note setRunning
  cases t.running? with
  | none => rfl
  | some ps => cases t.proc <;> rfl

theorem frames_mapRunning {t : Transition} {f : ProcessState → ProcessState}
    (h : ∀ ps, (f ps).stack = ps.stack) : (t.mapRunning f).frames = t.frames := by
  simp only [frames, running?_mapRunning]
  cases t.running? with
  | none => rfl
  | some ps => exact h ps

end Transition

namespace Frame

theorem location_of_path {f : Frame} {path : Path} (h : f.path = path) : f.location = ⟨f.location.routine, path⟩ := by
  rw [← h]
  rfl

/-- Expressions are below the body. -/
theorem index_of_at? {sys : System} {f : Frame} {e : Expr} (he : sys.at? f.location = some e) :
    ∃ i up, f.path = i :: up := by
  cases path : f.path with
  | nil =>
      rw [location_of_path path] at he
      cases he
  | cons i up => exact ⟨i, up, rfl⟩

theorem put_location (f : Frame) (i : Int) (v : Option Value) :
    (f.put i v).location = f.location := by
  unfold put
  split <;> rfl

theorem put_comingFrom (f : Frame) (i : Int) (v : Option Value) :
    (f.put i v).comingFrom = f.comingFrom := by
  unfold put
  split <;> rfl

theorem leave_location {f : Frame} {i : Int} {up : Path} (h : f.path = i :: up) (v : Value)
    (keep : Bool) : (f.leave v keep).location = f.location.parent := by
  simp only [leave, h]
  split
  · rw [put_location]
    simp [pop, Location.parent, path]
  · simp [pop, Location.parent, path]

theorem leave_comingFrom {f : Frame} {i : Int} {up : Path} (h : f.path = i :: up) (v : Value)
    (keep : Bool) : (f.leave v keep).comingFrom = i := by
  simp only [leave, h]
  split
  · rw [put_comingFrom]
  · rfl

end Frame

namespace System

/-- Whether the value of the call at a location is part of an expression: an operand, an assigned
value, an argument, a receiver or a returned value. Behind a receiver it stands for the access. -/
def consumes (sys : System) (l : Location) : Bool :=
  match sys.above? l with
  | none => false
  | some (.access ..) =>
    l.path.head? = some 0 || (sys.above? l.parent).any fun q => !q.holdsStatements
  | some q => !q.holdsStatements

end System

namespace Program

variable {p : Program} {r : Routine} {e q : Expr} {i : Int} {up : Path}

theorem WellIndexed.isListed_eq (h : p.WellIndexed) (he : p.at? ⟨r, i :: up⟩ = some e)
    (hq : p.at? ⟨r, up⟩ = some q) : p.isListed r e = q.holdsStatements := by
  simp [isListed, h.parent?_eq he, hq]

/-- Behind a receiver a call is at the top of a statement only if the access is. -/
theorem WellIndexed.isTopOfStatement_access (h : p.WellIndexed) (he : p.at? ⟨r, i :: up⟩ = some e)
    {id : Nat} {x m : Expr} (hq : p.at? ⟨r, up⟩ = some (.access id x m))
    (hused : i = 0 ∨ p.isListed r (.access id x m) = false) : p.isTopOfStatement r e = false := by
  simp only [isTopOfStatement, h.parent?_eq he, hq]
  cases hused with
  | inl hzero =>
      subst hzero
      have hx : some e = some x := he.symm.trans (System.at?_cons hq)
      obtain rfl := Option.some.inj hx
      simp [(System.access_ids h.distinct hq).symm]
  | inr hlisted => simp [hlisted]

/-- A call whose value is part of an expression is not at the top of a statement. -/
theorem WellIndexed.isTopOfStatement_eq (h : p.WellIndexed) {l : Location}
    (he : p.at? l = some e) (hc : p.system.consumes l = true) :
    p.isTopOfStatement l.routine e = false ∧ ∃ i q, l.path.head? = some i ∧
      p.at? l.parent = some q ∧ q.holdsStatements = false ∧ elementAt? q.children i = some e := by
  obtain ⟨r, path⟩ := l
  cases path with
  | nil => cases he
  | cons i up =>
      cases hq : p.at? ⟨r, up⟩ with
      | none =>
          have habove : p.system.above? ⟨r, i :: up⟩ = none := hq
          simp [System.consumes, habove] at hc
      | some q =>
          have habove : p.system.above? ⟨r, i :: up⟩ = some q := hq
          have hchild : elementAt? q.children i = some e := (System.at?_cons hq).symm.trans he
          unfold System.consumes at hc
          rw [habove] at hc
          cases q with
          | access id x m =>
              refine ⟨h.isTopOfStatement_access he hq ?_, i, _, rfl, hq, rfl, hchild⟩
              simp only [List.head?_cons, Option.some.injEq, Bool.or_eq_true, decide_eq_true_eq,
                Option.any_eq_true] at hc
              refine hc.imp_right fun hheld => ?_
              obtain ⟨q, hq', hheld⟩ := hheld
              cases up with
              | nil => cases hq
              | cons j up =>
                  rw [h.isListed_eq hq hq']
                  simpa using hheld
          | _ =>
              refine ⟨?_, i, _, rfl, hq, by simpa using hc, hchild⟩
              simp only [isTopOfStatement, h.parent?_eq he, hq]
              rw [h.isListed_eq he hq]
              simpa using hc

end Program

namespace Simulator

theorem dropParams_stack (ps : ProcessState) (r : Routine) : (dropParams ps r).stack = ps.stack := by
  have general : ∀ (ds : List Decl) (q : ProcessState), (ds.foldl (fun q d =>
      q.dropLocal (.ofFrame (r :: ps.routines) (.decl d))) q).stack = q.stack := by
    intro ds
    induction ds with
    | nil => intro q; rfl
    | cons d ds ih =>
        intro q
        rw [List.foldl_cons, ih]
        rfl
  exact general r.params ps

variable {s : Simulator} {t r : Transition} {top : Frame} {below : List Frame} {e : Expr}

/-- A small step on an expression evaluates it with the stack announced, if that is relevant, and
then tells the observer of the results. -/
theorem smallStep_on (plain : s.setup.observer = .pdg false) (hframes : t.frames = top :: below)
    (he : s.program.at? top.location = some e) {st : SmallStep}
    (hst : (s.smallStep t).result = .ok st) (hr : r ∈ st.results) :
    ∃ i up ps a st₀, top.path = i :: up ∧ t.running? = some ps ∧ ps.stack = top :: below ∧
      a = (if s.program.isRelevant top.location.routine e i top.comingFrom
        then some ((top :: below).map (·.location)) else none) ∧
      (s.exprStep (t.announcing a) ps top e).result = .ok st₀ ∧ st.expr = st₀.expr ∧
      st.comingFrom = st₀.comingFrom ∧ st.ends = st₀.ends ∧ ∃ v ∈ st₀.results,
        r = { v with info := r.info, scratch := { v.scratch with event := none } } := by
  obtain ⟨i, up, hpath⟩ := Frame.index_of_at? he
  obtain ⟨ps, hps, hstack⟩ := Transition.frames_eq_cons.1 hframes
  obtain ⟨st₀, rs, v, hadv, hv, -, hrv, rfl⟩ := smallStep_mem hst hr
  refine ⟨i, up, ps, _, st₀, hpath, hps, hstack, rfl, ?_, rfl, rfl, rfl, v, hv, hrv⟩
  have hrunning : t.resetAccesses.running? = some ps := hps
  have htop : t.resetAccesses.top? = some top := Transition.top?_of_frames hframes
  unfold advance at hadv
  simp only [hrunning, htop, hpath, he] at hadv
  obtain ⟨sc, hsc, hadv⟩ := Run.bind_result_iff.1 hadv
  rw [plain] at hsc
  have hannounce : Dependence.announce s.program false t.resetAccesses e = .ok sc := hsc
  unfold Dependence.announce at hannounce
  simp only [hrunning, htop, Frame.index?, hpath, List.head?_cons] at hannounce
  split at hannounce
  · rename_i hrel
    simp only [Bool.false_eq_true, if_false, Except.ok.injEq] at hannounce
    rw [if_pos hrel]
    subst hannounce
    simpa [Transition.announcing, Transition.resetAccesses, Transition.mapScratch,
      ProcessState.locations, hstack] using hadv
  · rename_i hrel
    simp only [Except.ok.injEq] at hannounce
    rw [if_neg hrel]
    subst hannounce
    exact hadv

/-- The step is on the expression `e` of `top`. -/
def About (st : SmallStep) (top : Frame) (e : Expr) : Prop :=
  st.expr = some e ∧ st.comingFrom = top.comingFrom

theorem about_one (u : Transition) : About (.one e top.comingFrom u) top e := ⟨rfl, rfl⟩

theorem aggregateStep_about {st : SmallStep} (hst : s.aggregateStep t top e = .ok st) :
    About st top e := by
  obtain ⟨-, rfl⟩ | ⟨-, _, _, -, rfl⟩ := aggregateStep_cases hst
  · exact about_one _
  · exact about_one _

theorem exitStep_about {label : String} {st : SmallStep}
    (hst : s.exitStep t top e label = .ok st) : About st top e := by
  obtain ⟨_, _, _, -, -, rfl⟩ := exitStep_cases hst
  exact about_one _

theorem nextStep_about {label : String} {st : SmallStep}
    (hst : s.nextStep t top e label = .ok st) : About st top e := by
  obtain ⟨_, _, _, -, -, rfl⟩ := nextStep_cases hst
  exact about_one _

theorem waitStep_about {arity : Nat} {st : SmallStep}
    (hst : s.waitStep t top e arity = .ok st) : About st top e := by
  obtain ⟨_, _, _, -, -, -, rfl⟩ := waitStep_cases hst
  exact ⟨rfl, rfl⟩

theorem callStep_about {ps : ProcessState} {f : Routine} {arity : Nat} {st : SmallStep}
    (hst : s.callStep t ps top e f arity = .ok st) : About st top e := by
  cases callStep_cases hst with
  | wait _ hst => exact waitStep_about hst
  | argument | result | request | call => exact about_one _

theorem notifyStep_about {target : Expr} {delays : List Expr} {st : SmallStep}
    (hst : (s.notifyStep t top e target delays).result = .ok st) : About st top e := by
  obtain ⟨-, rfl⟩ | ⟨-, _, _, u, -, -, -, rfl⟩ := notifyStep_cases hst
  · exact about_one _
  · exact about_one _

/-- A return to a caller is one step that takes the callee off the stack. -/
theorem returnFrom_eq {caller : Frame} (hframes : t.frames = top :: caller :: below)
    (e : Option Expr) (i : Int) (v : Value) :
    ∃ u f, s.returnFrom t e i v = .one e i u ∧ u.frames = f :: below ∧
      f.location = caller.location ∧ f.comingFrom = caller.comingFrom + 1 := by
  have hpopped : (t.editRunning ProcessState.editPop).frames = caller :: below := by
    rw [Transition.editPop_eq]
    exact Transition.frames_pop hframes
  have htop := Transition.top?_of_frames hpopped
  let back := ((t.editRunning ProcessState.editPop).editTop
    (Frame.editComeFrom (caller.comingFrom + 1) (some v))).mapConditions (·.leaveCall)
  let f := { caller with comingFrom := caller.comingFrom + 1 }.put (caller.comingFrom + 1) (some v)
  have hback : back.frames = f :: below := by
    change ((t.editRunning ProcessState.editPop).editTop _).frames = _
    rw [Transition.comeFrom_eq]
    exact Transition.frames_mapTop hpopped _
  have hlocation : f.location = caller.location := Frame.put_location _ _ _
  have hcoming : f.comingFrom = caller.comingFrom + 1 := Frame.put_comingFrom _ _ _
  unfold returnFrom
  simp only [htop]
  split
  · refine ⟨_, f, rfl, ?_, hlocation, hcoming⟩
    rw [Transition.frames_mapRunning (dropParams_stack · _)]
    exact hback
  · exact ⟨_, f, rfl, hback, hlocation, hcoming⟩

theorem branchStep_about (yes no : List Expr) : About (s.branchStep t top e yes no) top e := by
  unfold branchStep
  simp only
  split
  · exact about_one _
  · split
    · split <;> exact about_one t
    · split
      · split <;> exact about_one _
      · split
        · exact about_one t
        · exact about_one _

theorem loopStep_about (body : List Expr) (testsFirst : Bool) :
    About (s.loopStep t top e body testsFirst) top e := by
  unfold loopStep
  simp only
  split
  · split
    · exact about_one t
    · exact about_one _
  · split
    · split <;> exact about_one t
    · split
      · exact about_one t
      · exact about_one _

theorem forStep_about (body : List Expr) : About (s.forStep t top e body) top e := by
  unfold forStep
  simp only
  split
  · exact about_one _
  · split
    · exact about_one t
    · split
      · split <;> exact about_one t
      · split
        · exact about_one t
        · exact about_one _

theorem switchStep_about (cases : List Expr) : About (s.switchStep t top e cases) top e := by
  unfold switchStep
  simp only
  split
  · exact about_one _
  · split
    · exact about_one t
    · split
      · exact about_one _
      · exact about_one t

theorem armStep_about (value : Option Expr) (body : List Expr) :
    About (s.armStep t top e value body) top e := by
  unfold armStep
  simp only
  split
  · split <;> exact about_one _
  · split
    · split <;> exact about_one t
    · split <;> exact about_one _

theorem returnFrom_expr (x : Option Expr) (i : Int) (v : Value) :
    (s.returnFrom t x i v).expr = none ∨ (s.returnFrom t x i v).expr = x := by
  unfold returnFrom
  simp only
  split
  · exact .inl rfl
  · exact .inr rfl

/-- A step on an expression is reported with it, unless it returns. -/
theorem exprStep_about_or_returns {ps : ProcessState} {st : SmallStep}
    (hst : (s.exprStep t ps top e).result = .ok st) :
    About st top e ∨ ∃ id value x, e = .ret id value ∧ st = s.returnFrom t (some e) top.comingFrom x := by
  have given : ∀ {x : SmallStep}, (pure x : Step SmallStep).result = .ok st → About x top e →
      About st top e ∨ ∃ id value x, e = .ret id value ∧ st = s.returnFrom t (some e) top.comingFrom x :=
    fun hx about => Run.pure_result_iff.1 hx ▸ .inl about
  unfold exprStep at hst
  cases e with
  | const id l =>
      dsimp only at hst
      split at hst
      · cases hst
      · exact given hst (about_one _)
  | event | var | stop => exact given hst (about_one _)
  | unary | binary | access | bracket | block | empty => exact .inl (aggregateStep_about hst)
  | branch id c yes no => exact given hst (branchStep_about yes no)
  | whileLoop id l c body => exact given hst (loopStep_about body true)
  | doLoop id l c body => exact given hst (loopStep_about body false)
  | forLoop id l i c q body => exact given hst (forStep_about body)
  | switch id l tag cases => exact given hst (switchStep_about cases)
  | arm id value body => exact given hst (armStep_about value body)
  | exit => exact .inl (exitStep_about hst)
  | next => exact .inl (nextStep_about hst)
  | ret id value =>
      dsimp only at hst
      split at hst
      · exact given hst (about_one _)
      · exact .inr ⟨id, value, _, rfl, (Run.pure_result_iff.1 hst).symm⟩
  | notify => exact .inl (notifyStep_about hst)
  | call => exact .inl (callStep_about hst)

/-- A step on an expression is reported with it and with where it came from, or with nothing at the end of the code. -/
theorem exprStep_reports {ps : ProcessState} {st : SmallStep} (hst : (s.exprStep t ps top e).result = .ok st) :
    st.expr = none ∨ About st top e := by
  obtain about | ⟨id, value, x, rfl, rfl⟩ := exprStep_about_or_returns hst
  · exact .inr about
  · unfold returnFrom
    dsimp only
    split
    · exact .inl rfl
    · exact .inr (about_one _)

/-- A step on an expression is reported with it, unless it ends the code. -/
theorem exprStep_about {ps : ProcessState} {st : SmallStep} (hframes : t.frames = top :: below)
    (hst : (s.exprStep t ps top e).result = .ok st) (hret : ∀ id v, e = .ret id v → below ≠ []) : About st top e := by
  obtain about | ⟨id, value, x, rfl, rfl⟩ := exprStep_about_or_returns hst
  · exact about
  · cases below with
    | nil => exact absurd rfl (hret id value rfl)
    | cons caller rest =>
        obtain ⟨u, f, same, -⟩ := returnFrom_eq (s := s) hframes (some (.ret id value)) top.comingFrom x
        exact same ▸ about_one u

section Moves

variable {st : SmallStep}

/-- What a relevant step on an expression is about. -/
theorem site?_of_smallStep (plain : s.setup.observer = .pdg false)
    (hframes : t.frames = top :: below) (he : s.program.at? top.location = some e)
    (hst : (s.smallStep t).result = .ok st) (hr : r ∈ st.results)
    (hret : ∀ id v, e = .ret id v → below ≠ [])
    (hrel : ∀ i, s.program.isRelevant top.location.routine e i top.comingFrom = true) :
    ∃ i, top.path.head? = some i ∧ Move.site? s.program ⟨st, r⟩ = some ⟨r, e, top.comingFrom, i,
      s.program.parent? top.location.routine e, top.location, below.map (·.location)⟩ := by
  obtain ⟨i, up, ps, a, st₀, hpath, hps, hstack, ha, hexpr, habout, hcoming, -, v, hv, hrv⟩ :=
    smallStep_on plain hframes he hst hr
  rw [if_pos (hrel i)] at ha
  subst ha
  have hab := exprStep_about (by exact hframes) hexpr hret
  have hann : r.scratch.announced = some ((top :: below).map (·.location)) := by
    rw [hrv]
    exact (exprStep_keeps (silent_of_plain plain) hexpr hv).announced
  refine ⟨i, by simp [hpath], ?_⟩
  have hpath' : top.location.path = i :: up := hpath
  simp [Move.site?, habout, hcoming, hab.1, hab.2, hann, hpath']

/-- The code is about to return a value from a routine with a result to the call below it. -/
structure Returning (p : Program) (t : Transition) (callee caller : Frame) (rest : List Frame) :
    Prop where
  frames : t.frames = callee :: caller :: rest
  value : ∃ id v, p.at? callee.location = some (.ret id (some v))
  evaluated : callee.comingFrom = 0
  call : ∃ id args, p.at? caller.location = some (.call id callee.location.routine args) ∧
    caller.comingFrom = args.length - 1
  returns : callee.location.routine.returns = true

/-- The frames between which the code is about to return a value. -/
def returning? (p : Program) (t : Transition) : Option (Frame × Frame × List Frame) :=
  match t.frames with
  | callee :: caller :: rest =>
    match p.at? callee.location, p.at? caller.location with
    | some (.ret _ (some _)), some (.call _ f args) =>
      if callee.comingFrom = 0 ∧ f = callee.location.routine ∧
        caller.comingFrom = args.length - 1 ∧ f.returns = true then some (callee, caller, rest)
      else none
    | _, _ => none
  | _ => none

variable {callee caller : Frame} {rest : List Frame}

theorem returning_of_returning? {p : Program}
    (h : returning? p t = some (callee, caller, rest)) : Returning p t callee caller rest := by
  unfold returning? at h
  split at h
  · rename_i hframes
    split at h
    · rename_i hret hcall
      split at h
      · rename_i hsame
        simp only [Option.some.injEq, Prod.mk.injEq] at h
        obtain ⟨rfl, rfl, rfl⟩ := h
        obtain ⟨hevaluated, rfl, hcoming, hreturns⟩ := hsame
        exact ⟨hframes, ⟨_, _, hret⟩, hevaluated, ⟨_, _, hcall, hcoming⟩, hreturns⟩
      · cases h
    · cases h
  · cases h

/-- A return goes back to the call. -/
theorem Returning.step (plain : s.setup.observer = .pdg false)
    (h : Returning s.program t callee caller rest) (hst : (s.smallStep t).result = .ok st)
    (hr : r ∈ st.results) : st.ends = false ∧ ∃ f, r.frames = f :: rest ∧
      f.location = caller.location ∧ f.comingFrom = caller.comingFrom + 1 := by
  obtain ⟨id, v, he⟩ := h.value
  obtain ⟨i, up, ps, a, st₀, -, -, -, -, hexpr, -, -, hends, u, hu, hru⟩ :=
    smallStep_on plain h.frames he hst hr
  unfold exprStep at hexpr
  simp only [h.evaluated, Option.isSome_some, if_true] at hexpr
  obtain rfl := Run.pure_result_iff.1 hexpr
  obtain ⟨u', f, heq, hframes, hlocation, hcoming⟩ := returnFrom_eq (s := s) (t := t.announcing a)
    (by exact h.frames) (some (.ret id (some v))) 0 (callee.value 0 0)
  rw [heq] at hends hu
  obtain rfl := List.mem_singleton.1 hu
  refine ⟨hends, f, ?_, hlocation, hcoming⟩
  rw [hru]
  exact hframes

/-- A call that has been returned to leaves its result to the expression above it. -/
theorem smallStep_called (plain : s.setup.observer = .pdg false) {id : Nat} {g : Routine}
    {args : List Expr} (hframes : t.frames = top :: below)
    (he : s.program.at? top.location = some (.call id g args))
    (hcoming : top.comingFrom = args.length) (hst : (s.smallStep t).result = .ok st)
    (hr : r ∈ st.results) : st.ends = false ∧ r.scratch.read = [] ∧ r.scratch.written = [] ∧
      ∃ f, r.frames = f :: below ∧ f.location = top.location.parent ∧
        top.path.head? = some f.comingFrom := by
  obtain ⟨i, up, ps, a, st₀, hpath, -, -, -, hexpr, -, -, hends, u, hu, hru⟩ :=
    smallStep_on plain hframes he hst hr
  have hexpr : s.callStep (t.announcing a) ps top (.call id g args) g args.length = .ok st₀ := hexpr
  unfold callStep at hexpr
  simp only [hcoming, Int.not_lt.2 (Int.sub_le_self _ (by decide : (0 : Int) ≤ 1)), if_false,
    le_refl, if_true, Except.ok.injEq] at hexpr
  subst hexpr
  obtain rfl := List.mem_singleton.1 hu
  let v := top.value 0 args.length
  have hscratch : ((t.announcing a).finish s.program.system v).scratch = (t.announcing a).scratch :=
    Transition.scratch_editRunning _ _
  have hleft : ((t.announcing a).finish s.program.system v).frames =
      s.program.system.finish v top :: below :=
    Transition.frames_finish (t := t.announcing a) hframes _ _
  refine ⟨hends, ?_, ?_, s.program.system.finish v top, ?_, Frame.leave_location hpath _ _, ?_⟩
  · rw [hru]
    exact congrArg Scratch.read hscratch
  · rw [hru]
    exact congrArg Scratch.written hscratch
  · rw [hru]
    exact hleft
  · rw [hpath, System.finish, Frame.leave_comingFrom hpath]
    rfl

end Moves

end Simulator

end DeltaSlice
