import DeltaSlice.Proofs.Coarse.Settled
import DeltaSlice.Proofs.Safety.Code
import DeltaSlice.Proofs.Safety.Graphs

/-!
Observers do not break. What they have learned has the form that they expect, and within a run of code all
dependence graphs have the same entry.
-/

namespace DeltaSlice

open Pdg

/-- A step that is announced is at an expression. -/
def Scratch.Announced (s : Scratch) : Prop :=
  ∀ stack, s.announced = some stack → ∃ l callers, stack = l :: callers ∧ l.path ≠ []

/-- The location that was announced, if any, holds the expression. -/
def Scratch.Tells (p : Program) (e : Expr) (s : Scratch) : Prop :=
  ∀ l callers, s.announced = some (l :: callers) → p.at? l = some e

/-- Whoever goes on after a small step does so in a sound frame. -/
def Transition.Awake (sys : System) (t : Transition) : Prop := ∃ top, t.top? = some top ∧ top.Sound sys

namespace Dependence

variable {p : Program} {triggers : Bool} {s : Site} {f f' : Focus} {g : Pdg} {o : StatementId}

/-- The bookkeeping of a small step on the graph `g`. -/
structure Focus.Tracks (g : Pdg) (f : Focus) : Prop where
  graph : Becomes g f.graph
  node : ∀ n, f.node = some n → n < f.graph.nodes.length

namespace Focus.Tracks

theorem noted (h : f.Tracks g) (graph : f'.graph = f.graph) (node : f'.node = f.node) : f'.Tracks g :=
  ⟨graph ▸ h.graph, graph ▸ node ▸ h.node⟩

theorem addRead (h : f.Tracks g) (v : Variable) : (f.addRead v).Tracks g := h.noted rfl rfl

theorem addWritten (h : f.Tracks g) (v : Variable) : (f.addWritten v).Tracks g := h.noted rfl rfl

theorem found (h : f.Tracks g) {n : Nat} (hn : n < f.graph.nodes.length) :
    Focus.Tracks g { f with node := some n } :=
  ⟨h.graph, fun _ hm => Option.some.inj hm ▸ hn⟩

theorem ensureNode (h : f.Tracks g) (o : StatementId) : (f.ensureNode o).Tracks g := by
  unfold Focus.ensureNode
  split
  · exact h
  · obtain ⟨becomes, name⟩ := statementNode_becomes h.graph.unfinished o
    exact ⟨h.graph.trans becomes, fun n hn => Option.some.inj hn ▸ idOf?_isSome.1 ⟨_, name⟩⟩

theorem forget (h : f.Tracks g) (q : Variable → Bool) : Focus.Tracks g { f with graph := f.graph.forget q } :=
  ⟨h.graph.trans (forget_becomes h.graph.unfinished q), h.node⟩

theorem bindArgument (h : f.Tracks g) : (bindArgument s f).Tracks g := by
  unfold Dependence.bindArgument
  split
  · split
    · exact h.addWritten _
    · split
      · exact h.addWritten _
      · exact h
    · exact h
  · exact h

theorem returnEffect (h : f.Tracks g) : (returnEffect s f).Tracks g := by
  unfold Dependence.returnEffect
  split
  · split
    · exact h.addWritten _
    · exact h
  · exact h

theorem notifyEffect (h : f.Tracks g) : (notifyEffect triggers s f).Tracks g := by
  unfold Dependence.notifyEffect
  split
  · split
    · split
      · split
        · split
          · rename_i hn
            exact h.found (idOf?_isSome.1 ⟨_, find?_idOf? hn⟩)
          · exact h
        · dsimp only
          split
          · exact (h.ensureNode _).addWritten _
          · exact h.ensureNode _
      · exact h.ensureNode _
    · exact h
  · exact h

theorem controllerNode (h : f.Tracks g) : (controllerNode s o f).Tracks g := by
  unfold Dependence.controllerNode
  split
  · split
    · exact h.ensureNode o
    · exact h
  · exact h

theorem applyWrites (h : f.Tracks g) : (applyWrites o f).Tracks g := by
  unfold Dependence.applyWrites
  split
  · exact h
  · obtain ⟨becomes, name⟩ := statementNode_becomes h.graph.unfinished o
    have written : ∀ (vs : List Variable) (c : Pdg), Becomes (f.graph.statementNode o).2 c →
        Becomes (f.graph.statementNode o).2
          (vs.foldl (fun (g : Pdg) v => g.define v (f.graph.statementNode o).1) c) := by
      intro vs
      induction vs with
      | nil => exact fun _ hc => hc
      | cons v vs ih => exact fun c hc => ih _ (hc.trans (define_becomes hc.unfinished (hc.names name)))
    have all := written f.written _ (.refl becomes.unfinished)
    exact ⟨(h.graph.trans becomes).trans all,
      fun n hn => Option.some.inj hn ▸ all.lt (idOf?_isSome.1 ⟨_, name⟩)⟩

theorem applyReads (h : f.Tracks g) : Succeeds (Focus.Tracks g) (applyReads o f) := by
  unfold Dependence.applyReads
  split
  · exact .ok h
  · obtain ⟨becomes, name⟩ := statementNode_becomes h.graph.unfinished o
    have lt := idOf?_isSome.1 ⟨_, name⟩
    refine Succeeds.map (P := Becomes (f.graph.statementNode o).2) ?_ fun c hc =>
      ⟨(h.graph.trans becomes).trans hc, fun n hn => Option.some.inj hn ▸ hc.lt lt⟩
    exact .foldlM (.refl becomes.unfinished) fun v _ c hc =>
      (readBy_succeeds hc.unfinished (hc.lt lt)).mono fun _ _ hd => hc.trans hd

end Focus.Tracks

theorem updateTrigger_unbroken (h : f.Tracks g) (awake : s.after.Awake p.system) :
    Unbroken (Focus.Tracks g) (updateTrigger p s f) := by
  obtain ⟨top, htop, sound⟩ := awake
  have classed : (if s.isMember then top.value 0 0 else top.receiver).Classed p.system := by
    split
    · exact sound.value 0 0
    · exact sound.receiver
  unfold updateTrigger
  rw [htop]
  dsimp only
  split
  · exact .failed
  · split
    · exact .failed
    · rename_i hi
      obtain ⟨c, hc⟩ := Option.isSome_iff_exists.1 (classed _ hi)
      rw [hc]
      dsimp only
      split
      · exact .failed
      · exact .ok (h.addWritten _)

theorem waitTrigger_unbroken (h : f.Tracks g) (origin : s.after.origin.isSome = true) :
    Unbroken (Focus.Tracks g) (waitTrigger s f) := by
  unfold waitTrigger
  obtain ⟨i, hi⟩ := Option.isSome_iff_exists.1 origin
  rw [hi]
  exact .ok (h.addWritten _)

theorem callEffect_unbroken (h : f.Tracks g) (awake : s.after.Awake p.system)
    (origin : s.after.origin.isSome = true) : Unbroken (Focus.Tracks g) (callEffect p triggers s f) := by
  unfold callEffect
  split
  · split
    · split
      · dsimp only
        split
        · exact updateTrigger_unbroken (h.ensureNode _) awake
        · exact .ok (h.ensureNode _)
      · dsimp only
        split
        · exact waitTrigger_unbroken (h.ensureNode _) origin
        · exact .ok (h.ensureNode _)
      · have cleared : Focus.Tracks g { f with written := [] } := h.noted rfl rfl
        refine .ok (.addRead ?_ _)
        split
        · exact cleared
        · exact (cleared.addRead _).addWritten _
    · split
      · exact .ok (h.forget _)
      · exact .ok h
  · exact .ok h

/-- Connecting a node breaks at most because a case on the way up is not where it is expected. -/
theorem connect_succeeds_or (hg : g.Unfinished) {n : Nat} (hn : n < g.nodes.length) :
    Succeeds (Becomes g) (connect p s n g) ∨ ∃ broken, connect p s n g = .error broken ∧
      p.checkCases s.here.routine s.here.path s.expr = .error broken := by
  unfold connect
  split
  · obtain ⟨becomes, name⟩ := statementNode_becomes hg (.point s.after.origin (s.here.parent :: s.callers))
    exact .inl ((addEdge_succeeds becomes.unfinished (idOf?_isSome.1 ⟨_, name⟩) (becomes.lt hn)).mono
      fun _ _ hd => becomes.trans hd)
  · rw [hasControl?, List.getElem?_eq_getElem hn, Option.map_some]
    split
    · rename_i h
      cases h
    · exact .inl (.ok (.refl hg))
    · cases p.checkCases s.here.routine s.here.path s.expr with
      | error broken => exact .inr ⟨broken, rfl, rfl⟩
      | ok _ =>
          refine .inl (.foldlM (.refl hg) fun c _ d hd => ?_)
          obtain ⟨none, -⟩ | ⟨m, b, hm, name, -⟩ := controlSource_cases hd.unfinished.valid s.after.origin c
          · rw [none]
            exact .ok hd
          · rw [hm]
            exact (addEdge_succeeds hd.unfinished (idOf?_isSome.1 ⟨_, name⟩) (hd.lt hn)).mono
              fun _ _ he => hd.trans he

theorem connect_becomes (hg : g.Unfinished) {n : Nat} (hn : n < g.nodes.length) {h : Pdg}
    (hc : connect p s n g = .ok h) : Becomes g h := by
  obtain ⟨h', hc', becomes⟩ | ⟨broken, hc', -⟩ := connect_succeeds_or (p := p) (s := s) hg hn
  · exact Except.ok.inj (hc'.symm.trans hc) ▸ becomes
  · cases hc'.symm.trans hc

theorem connect_succeeds (hg : g.Unfinished) {n : Nat} (hn : n < g.nodes.length)
    (fits : p.checkCases s.here.routine s.here.path s.expr = .ok ()) :
    Succeeds (Becomes g) (connect p s n g) := by
  refine (connect_succeeds_or hg hn).resolve_right ?_
  rintro ⟨broken, -, unfit⟩
  cases fits.symm.trans unfit

/-- A call whose result is used reads the result. -/
theorem Focus.Tracks.readResult (hf : Focus.Tracks g f) : Focus.Tracks g (match usedResult? p s with
    | some v => f.addRead v
    | none => f) := by
  split
  · exact hf.addRead _
  · exact hf

/-- The result is known no more once it is used. -/
theorem Focus.Tracks.forgetResult (hf : Focus.Tracks g f) : Focus.Tracks g (match usedResult? p s with
    | some v => { f with graph := f.graph.forget (· = v) }
    | none => f) := by
  split
  · exact hf.forget _
  · exact hf

theorem evaluatedAt_unbroken (hg : g.Unfinished) (awake : s.after.Awake p.system)
    (origin : s.after.origin.isSome = true) (fits : p.checkCases s.here.routine s.here.path s.expr = .ok ()) :
    Unbroken (Becomes g) (evaluatedAt p triggers s g) := by
  have start : Focus.Tracks g ⟨g, none, s.after.scratch.read, s.after.scratch.written⟩ :=
    ⟨.refl hg, fun _ h => by cases h⟩
  unfold evaluatedAt
  refine (callEffect_unbroken start.bindArgument awake origin).bind fun f hf => ?_
  refine hf.returnEffect.readResult.notifyEffect.applyReads.unbroken.bind fun f hf => ?_
  have writes : Focus.Tracks g (controllerNode s (.point s.after.origin (p.trim s.stack))
      (applyWrites (.point s.after.origin (p.trim s.stack)) _)) :=
    .controllerNode (.applyWrites (hf.forgetResult (p := p) (s := s)))
  dsimp only
  split
  · exact .ok writes.graph
  · rename_i n hn
    exact (connect_succeeds writes.graph.unfinished (writes.node n hn) fits).unbroken.mono
      fun _ _ hd => writes.graph.trans hd

/-- A small step does not break the graph: whoever goes on is in a sound frame, unless the step was on a
body, and the step was announced where its expression is. -/
theorem evaluated_unbroken {t : Transition} {e : Option Expr} (i : Int) (cased : p.Cased) (hg : g.Unfinished)
    (announced : t.scratch.Announced) (tells : ∀ x, e = some x → t.scratch.Tells p x)
    (origin : t.origin.isSome = true) (awake : e.isSome = true → t.Awake p.system) :
    Unbroken (Becomes g) (evaluated p triggers t e i g) := by
  unfold evaluated
  split
  · refine .ok ?_
    split
    · exact forget_becomes hg _
    · exact .refl hg
  · split
    · exact .ok (.refl hg)
    · rename_i none
      obtain ⟨l, callers, same, -⟩ := announced _ none
      cases same
    · rename_i l callers some
      obtain ⟨_, _, same, inside⟩ := announced _ some
      obtain ⟨rfl, rfl⟩ := List.cons.inj same
      split
      · contradiction
      · exact evaluatedAt_unbroken hg (awake rfl) origin (cased.checkCases_succeeds (tells _ rfl l callers some))

/-- A process that is woken has a statement at which it resumes, the trigger of which is defined. -/
theorem resumed_succeeds {t : Transition} {q : Process} {c : Pdg} {n : Nat} {key : String} {ps : ProcessState}
    (found : t.state.procs[q.index]? = some ps) (framed : ps.stack ≠ []) (hc : Becomes g c)
    (name : c.idOf? n = some (.statement key)) :
    Succeeds (Becomes g) (match (t.state.procs[q.index]?).bind (·.resumption?) with
      | none => .error .undefined
      | some stack => .ok (c.addDefinition (.ofResumption q.inst stack) n)) := by
  obtain ⟨stack, hstack⟩ := ProcessState.resumption?_isSome framed
  rw [found, Option.bind_some, hstack]
  exact .ok (hc.trans (addDefinition_becomes hc.unfinished name))

theorem woken_succeeds {t : Transition} {q : Process} {events : List Event} {before : EventList}
    (hg : g.Unfinished) {ps : ProcessState} (found : t.state.procs[q.index]? = some ps) (framed : ps.stack ≠ []) :
    Succeeds (Becomes g) (woken t q events before g) := by
  unfold woken
  cases t.scratch.event with
  | some _ =>
      obtain ⟨becomes, name⟩ := statementNode_becomes hg (.point t.origin (t.scratch.announced.getD []))
      exact resumed_succeeds found framed becomes name
  | none =>
      obtain ⟨becomes, name⟩ := statementNode_becomes hg (.wakeup q)
      have reads : Succeeds (Becomes (g.statementNode (.wakeup q)).2)
          ((events.filter before.contains).foldlM
            (fun (c : Pdg) e => c.readBy (.event e) (g.statementNode (.wakeup q)).1)
            (g.statementNode (.wakeup q)).2) :=
        .foldlM (.refl becomes.unfinished) fun e _ c hc =>
          (readBy_succeeds hc.unfinished (hc.lt (idOf?_isSome.1 ⟨_, name⟩))).mono fun _ _ hd => hc.trans hd
      obtain ⟨c, hc, becomes'⟩ := reads
      dsimp only
      rw [hc]
      exact resumed_succeeds found framed (becomes.trans becomes') (becomes'.names name)

end Dependence

/-- The entry of code that starts at the current point. -/
def Transition.entryOf? (t : Transition) : Option NodeId :=
  (t.running?.bind (·.resumption?)).map fun stack => .entry (StatementId.point t.origin stack).key

namespace Observer

/-- What the observer has learned so far, where dependence graphs have the given entry, if any. -/
def Fits (entry : Option NodeId) : Observer → Info → Prop
  | none, .none => True
  | readWrite _, .readWrite _ => True
  | pdg _, .pdg g => g.Unfinished ∧ ∀ a, entry = some a → g.entryId? = some a
  | pair a b, .pair x y => a.Fits entry x ∧ b.Fits entry y
  | recording o, i => o.Fits entry i
  | _, _ => False

/-- The observer keeps dependence graphs, alone or beside others. -/
def keepsGraphs : Observer → Bool
  | none | readWrite _ => false
  | pdg _ => true
  | pair a b => a.keepsGraphs || b.keepsGraphs
  | recording o => o.keepsGraphs

variable {o : Observer} {entry : Option NodeId} {p : Program} {t : Transition} {i j : Info} {a : NodeId}

theorem Fits.anywhere (h : o.Fits entry i) : o.Fits Option.none i := by
  induction o generalizing i with
  | none | readWrite _ => cases i <;> exact h
  | pdg _ =>
      cases i with
      | pdg g => exact ⟨h.1, fun _ none => nomatch none⟩
      | _ => exact h
  | pair a b iha ihb =>
      cases i with
      | pair x y => exact ⟨iha h.1, ihb h.2⟩
      | _ => exact h
  | recording o ih => exact ih h

theorem fits_neutral (o : Observer) : o.Fits Option.none o.neutral := by
  induction o with
  | none | readWrite _ => trivial
  | pdg _ => exact ⟨empty_unfinished, fun _ none => nomatch none⟩
  | pair a b iha ihb => exact ⟨iha, ihb⟩
  | recording o ih => exact ih

/-- The graph that an observer of dependence graphs has learned. -/
theorem fits_pdg {triggers : Bool} (h : (pdg triggers).Fits entry i) :
    ∃ g, i = .pdg g ∧ g.Unfinished ∧ ∀ a, entry = some a → g.entryId? = some a := by
  cases i with
  | pdg g => exact ⟨g, rfl, h⟩
  | _ => exact h.elim

theorem fits_pair {b c : Observer} (h : (pair b c).Fits entry i) :
    ∃ x y, i = .pair x y ∧ b.Fits entry x ∧ c.Fits entry y := by
  cases i with
  | pair x y => exact ⟨x, y, rfl, h⟩
  | _ => exact h.elim

theorem fits_readWrite {track : Variable → Bool} (h : (readWrite track).Fits entry i) :
    ∃ x, i = .readWrite x := by
  cases i with
  | readWrite x => exact ⟨x, rfl⟩
  | _ => exact h.elim

/-- A later version of the graph fits as well. -/
theorem fits_becomes {triggers : Bool} {g h : Pdg} (becomes : Becomes g h)
    (known : ∀ a, entry = some a → g.entryId? = some a) : (pdg triggers).Fits entry (.pdg h) :=
  ⟨becomes.unfinished, fun a ha => becomes.entryId (known a ha)⟩

theorem start_unbroken (fits : o.Fits Option.none t.info) (started : t.entryOf? = some a)
    (origin : t.origin.isSome = true) : Unbroken (o.Fits (some a)) (o.start p t).result := by
  induction o generalizing t with
  | none | readWrite _ =>
      refine .ok ?_
      generalize t.info = i at fits
      cases i <;> exact fits
  | pdg triggers =>
      obtain ⟨g, hg, unfinished, -⟩ := fits_pdg fits
      obtain ⟨stack, hstack, rfl⟩ := Option.map_eq_some_iff.1 started
      obtain ⟨origin, horigin⟩ := Option.isSome_iff_exists.1 origin
      obtain ⟨entered, entry, name⟩ := enter_unfinished unfinished (.point t.origin stack)
      have known : ∀ a, some (NodeId.entry (StatementId.point t.origin stack).key) = some a →
          (g.enter (.point t.origin stack)).2.entryId? = some a := fun _ same => same ▸ entry
      simp only [start, hg, Run.result_of]
      refine Unbroken.map (P := Becomes (g.enter (.point t.origin stack)).2) ?_
        fun _ becomes => fits_becomes becomes known
      unfold Dependence.start
      rw [hstack]
      dsimp only
      split
      · rw [horigin] at entered name ⊢
        obtain ⟨becomes, input⟩ := inputNode_becomes entered (.ofResumption origin stack)
        exact (addEdge_succeeds becomes.unfinished (idOf?_isSome.1 ⟨_, input⟩)
          (becomes.lt (idOf?_isSome.1 ⟨_, name⟩))).unbroken.mono fun _ _ hd => becomes.trans hd
      · exact .ok (.refl entered)
  | pair b c ihb ihc =>
      obtain ⟨x, y, hi, hx, hy⟩ := fits_pair fits
      simp only [start, hi]
      refine Unbroken.run_bind (ihb (t := { t with info := x }) hx started origin) fun x' hx' => ?_
      exact Unbroken.run_bind (ihc (t := { t with info := y }) hy started origin) fun y' hy' =>
        .ok ⟨hx', hy'⟩
  | recording o ih => exact Unbroken.run_bind (P := fun _ => True) trivial fun _ _ => ih fits started origin

theorem announce_unbroken (o : Observer) {e : Expr} {ps : ProcessState} {top : Frame}
    (hps : t.running? = some ps) (htop : t.top? = some top) (inside : top.path ≠ [])
    (announced : t.scratch.Announced) : Unbroken Scratch.Announced (o.announce p t e).result := by
  induction o generalizing t with
  | none | readWrite _ => exact announced
  | pdg triggers =>
      have here : Scratch.Announced { t.scratch with announced := some ps.locations } := by
        intro stack hstack
        obtain rfl := Option.some.inj hstack
        unfold Transition.top? at htop
        rw [hps] at htop
        obtain ⟨below, hbelow⟩ := List.head?_eq_some_iff.1 htop
        exact ⟨top.location, below.map (·.location), by rw [ProcessState.locations, hbelow]; rfl, inside⟩
      obtain ⟨i, up, hpath⟩ := List.exists_cons_of_ne_nil inside
      have hindex : top.index? = some i := by rw [Frame.index?, hpath]; rfl
      simp only [announce, Run.result_of]
      unfold Dependence.announce
      rw [hps, htop]
      dsimp only
      rw [hindex]
      dsimp only
      split
      · split
        · refine Unbroken.map (P := fun _ => True) ?_ fun x _ => ?_
          · unfold Dependence.announcedEvent
            split
            · split
              · split
                · exact .failed
                · split
                  · exact .ok trivial
                  · exact .failed
              · exact .ok trivial
            · exact .ok trivial
          · split <;> exact here
        · exact .ok here
      · exact .ok fun _ none => by cases none
  | pair b c ihb ihc =>
      exact Unbroken.run_bind (ihb hps htop announced) fun sc hsc =>
        ihc (t := { t with scratch := sc }) hps htop hsc
  | recording o ih => exact Unbroken.run_bind (P := fun _ => True) trivial fun _ _ => ih hps htop announced

/-- An observer that keeps graphs is told of the location of an expression before it is evaluated. -/
theorem announce_tells {e : Expr} {sc : Scratch} {top : Frame} (htop : t.top? = some top)
    (he : p.at? top.location = some e) (told : t.scratch.Tells p e ∨ o.keepsGraphs = true)
    (hsc : (o.announce p t e).result = .ok sc) : sc.Tells p e := by
  induction o generalizing t sc with
  | none | readWrite _ =>
      obtain rfl := Run.pure_result_iff.1 hsc
      exact told.resolve_right (by simp [keepsGraphs])
  | pdg triggers =>
      obtain ⟨ps, hps, hstack⟩ := Option.bind_eq_some_iff.1 htop
      obtain ⟨below, hstack⟩ := List.head?_eq_some_iff.1 hstack
      have here : Scratch.Tells p e { t.scratch with announced := some ps.locations } := by
        intro l callers same
        rw [ProcessState.locations, hstack] at same
        obtain ⟨rfl, -⟩ := List.cons.inj (Option.some.inj same)
        exact he
      simp only [announce, Run.result_of] at hsc
      unfold Dependence.announce at hsc
      rw [hps, htop] at hsc
      dsimp only at hsc
      split at hsc
      · cases hsc
      · split at hsc
        · split at hsc
          · obtain ⟨ev, -, rfl⟩ := Success.map_iff.1 hsc
            split <;> exact here
          · exact Except.ok.inj hsc ▸ here
        · obtain rfl := Except.ok.inj hsc
          exact fun _ _ none => by cases none
  | pair b c ihb ihc =>
      obtain ⟨sc', hsc', hsc⟩ := Run.bind_result_iff.1 hsc
      by_cases first : t.scratch.Tells p e ∨ b.keepsGraphs = true
      · exact ihc (t := { t with scratch := sc' }) htop (.inl (ihb htop first hsc')) hsc
      · refine ihc (t := { t with scratch := sc' }) htop (.inr ?_) hsc
        have one := told.resolve_left fun tells => first (.inl tells)
        exact (Bool.or_eq_true_iff.1 one).resolve_left fun keeps => first (.inr keeps)
  | recording o ih =>
      obtain ⟨_, -, hsc⟩ := Run.bind_result_iff.1 hsc
      exact ih htop told hsc

theorem evaluated_unbroken {e : Option Expr} {k : Int} (cased : p.Cased) (fits : o.Fits entry t.info)
    (announced : t.scratch.Announced)
    (tells : o.keepsGraphs = true → ∀ x, e = some x → t.scratch.Tells p x) (origin : t.origin.isSome = true)
    (awake : e.isSome = true → t.Awake p.system) : Unbroken (o.Fits entry) (o.evaluated p t e k).result := by
  induction o generalizing t with
  | none => exact fits
  | readWrite _ =>
      obtain ⟨x, hx⟩ := fits_readWrite fits
      simp only [evaluated, hx]
      trivial
  | pdg triggers =>
      obtain ⟨g, hg, unfinished, known⟩ := fits_pdg fits
      simp only [evaluated, hg, Run.result_of]
      exact (Dependence.evaluated_unbroken k cased unfinished announced (tells rfl) origin awake).map
        fun _ becomes => fits_becomes becomes known
  | pair b c ihb ihc =>
      obtain ⟨x, y, hi, hx, hy⟩ := fits_pair fits
      simp only [evaluated, hi]
      have first : b.keepsGraphs = true → ∀ z, e = some z → t.scratch.Tells p z := fun keeps =>
        tells (Bool.or_eq_true_iff.2 (.inl keeps))
      have second : c.keepsGraphs = true → ∀ z, e = some z → t.scratch.Tells p z := fun keeps =>
        tells (Bool.or_eq_true_iff.2 (.inr keeps))
      refine Unbroken.run_bind (ihb (t := { t with info := x }) hx announced first origin awake) fun x' hx' => ?_
      exact Unbroken.run_bind (ihc (t := { t with info := y }) hy announced second origin awake) fun y' hy' =>
        .ok ⟨hx', hy'⟩
  | recording o ih =>
      refine Unbroken.run_bind (P := fun _ => True) trivial fun _ _ => ?_
      refine Unbroken.run_bind (ih fits announced tells origin awake) fun i hi => ?_
      exact Unbroken.run_bind (P := fun _ => True) trivial fun _ _ => .ok hi

theorem waitedForEvents_unbroken {q : Process} {events : List Event} {before : EventList} {ps : ProcessState}
    (fits : o.Fits entry t.info) (found : t.state.procs[q.index]? = some ps) (framed : ps.stack ≠ []) :
    Unbroken (o.Fits entry) (o.waitedForEvents t q events before).result := by
  induction o generalizing t with
  | none | readWrite _ => exact fits
  | pdg triggers =>
      obtain ⟨g, hg, unfinished, known⟩ := fits_pdg fits
      cases triggers with
      | false =>
          simp only [waitedForEvents, hg]
          exact ⟨unfinished, known⟩
      | true =>
          simp only [waitedForEvents, hg, Run.result_ofFault]
          exact Succeeds.unbroken ((Dependence.woken_succeeds unfinished found framed).map
            fun _ becomes => fits_becomes becomes known)
  | pair b c ihb ihc =>
      obtain ⟨x, y, hi, hx, hy⟩ := fits_pair fits
      simp only [waitedForEvents, hi]
      refine Unbroken.run_bind (ihb (t := { t with info := x }) hx found) fun x' hx' => ?_
      exact Unbroken.run_bind (ihc (t := { t with info := y }) hy found) fun y' hy' => .ok ⟨hx', hy'⟩
  | recording o ih => exact Unbroken.run_bind (P := fun _ => True) trivial fun _ _ => ih fits found

theorem waitedForDelta_unbroken (o : Observer) (q : Process) :
    Unbroken (fun _ => True) (o.waitedForDelta q).result := by
  induction o with
  | none | readWrite _ | pdg _ => trivial
  | pair b c ihb ihc => exact ihb.run_bind fun _ _ => ihc
  | recording o ih => exact Unbroken.run_bind (P := fun _ => True) trivial fun _ _ => ih

theorem waitedForTime_unbroken (o : Observer) (q : Process) :
    Unbroken (fun _ => True) (o.waitedForTime q).result := by
  induction o with
  | none | readWrite _ | pdg _ => trivial
  | pair b c ihb ihc => exact ihb.run_bind fun _ _ => ihc
  | recording o ih => exact Unbroken.run_bind (P := fun _ => True) trivial fun _ _ => ih

theorem finalize_unbroken (fits : o.Fits entry i) : Unbroken (fun _ => True) (o.finalize i).result := by
  induction o generalizing i with
  | none | readWrite _ => trivial
  | pdg triggers =>
      obtain ⟨g, rfl, unfinished, -⟩ := fits_pdg fits
      exact Succeeds.unbroken ((finalize_succeeds unfinished).map (Q := fun _ => True) fun _ _ => trivial)
  | pair b c ihb ihc =>
      obtain ⟨x, y, rfl, hx, hy⟩ := fits_pair fits
      refine Unbroken.run_bind (ihb hx) fun _ _ => ?_
      exact Unbroken.run_bind (ihc hy) fun _ _ => trivial
  | recording o ih => exact Unbroken.run_bind (P := fun _ => True) trivial fun _ _ => ih fits

/-- Alternatives of the same run of code can be merged. -/
theorem compose_succeeds (hi : o.Fits (some a) i) (hj : o.Fits (some a) j) :
    Succeeds (o.Fits (some a)) (i.compose j) := by
  induction o generalizing i j with
  | none =>
      cases i with
      | none => exact .ok trivial
      | _ => exact hi.elim
  | readWrite _ =>
      obtain ⟨x, rfl⟩ := fits_readWrite hi
      obtain ⟨y, rfl⟩ := fits_readWrite hj
      exact .ok trivial
  | pdg triggers =>
      obtain ⟨g, rfl, hg, known⟩ := fits_pdg hi
      obtain ⟨h, rfl, hh, known'⟩ := fits_pdg hj
      exact (Pdg.compose_succeeds hg hh (known a rfl) (known' a rfl)).map
        fun _ becomes => fits_becomes becomes known
  | pair b c ihb ihc =>
      obtain ⟨x, y, rfl, hx, hy⟩ := fits_pair hi
      obtain ⟨x', y', rfl, hx', hy'⟩ := fits_pair hj
      obtain ⟨x'', hx'', fits⟩ := ihb hx hx'
      simp only [Info.compose, hx'']
      exact (ihc hy hy').map fun _ fits' => ⟨fits, fits'⟩
  | recording o ih => exact ih hi hj

end Observer

end DeltaSlice
