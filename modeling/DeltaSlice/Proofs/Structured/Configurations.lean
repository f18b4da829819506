import DeltaSlice.Proofs.Coarse.Runs
import DeltaSlice.Proofs.Structured.Semantics
import Mathlib.Logic.Relation

/-!
Configurations: what a process changes of a state while it runs code of this kind, its own state and
the values of global variables. Small steps lead from one configuration to the next one, whatever else
a transition holds.
-/

namespace DeltaSlice

namespace Structured

/-- A simulator that nobody observes and that tracks all variables, a state, and a process of it that
runs. -/
structure Setting where
  sim : Simulator
  base : State
  proc : Process
  quiet : sim.setup.observer = .none
  tracked : ∀ v, sim.setup.tracksVariable v = true
  place : proc.index < base.procs.length

/-- The state of the running process and the values of the global variables. -/
structure Config where
  proc : ProcessState
  values : Store

/-- A process that is not blocked, with `f` as its innermost frame. -/
def Config.run (f : Frame) (rest : List Frame) (locals values : Store) : Config :=
  ⟨⟨none, f :: rest, locals⟩, values⟩

/-- All frames can be edited. -/
def Config.Firm (c : Config) : Prop := ∀ f ∈ c.proc.stack, f.Firm

namespace Setting

variable (S : Setting)

def sys : System := S.sim.program.system

/-- The state of the setting, with the given configuration in it. -/
def state (c : Config) : State :=
  { S.base with
    global := { S.base.global with values := c.values }
    procs := S.base.procs.set S.proc.index c.proc }

/-- The transition shows the configuration, and its state may be changed. -/
structure Shows (t : Transition) (c : Config) : Prop where
  proc : t.proc = some S.proc
  state : t.state = S.state c
  unfrozen : t.frozen = false

/-- A step with a single result that shows the configuration. -/
def Gives (x : Except Halt SmallStep) (ends : Bool) (c : Config) : Prop :=
  ∃ st r, x = .ok st ∧ st.results = [r] ∧ st.ends = ends ∧ S.Shows r c

/-- From the first configuration there is one small step, and it leads to the second one. -/
def Goes (ends : Bool) (c c' : Config) : Prop :=
  c.Firm → ∀ t, S.Shows t c → S.Gives (S.sim.smallStep t).result ends c'

/-- Small steps lead from the first configuration to the second one, and the code has not ended. -/
def Reaches : Config → Config → Prop := Relation.ReflTransGen (S.Goes false)

end Setting

namespace Setting.Shows

open Transition

variable {S : Setting} {t : Transition} {c : Config}

theorem running? (h : S.Shows t c) : t.running? = some c.proc := by
  simp [Transition.running?, h.proc, h.state, Setting.state, S.place]

theorem top? (h : S.Shows t c) : t.top? = c.proc.stack.head? := by
  simp [Transition.top?, h.running?, ProcessState.top?]

theorem frames (h : S.Shows t c) : t.frames = c.proc.stack := by
  rw [Transition.frames, h.running?]
  rfl

theorem firm (h : S.Shows t c) (firm : c.Firm) : ∀ f ∈ t.frames, f.Firm := h.frames ▸ firm

/-- What was learned and noted down on the way is not shown. -/
theorem of_eq (h : S.Shows t c) {u : Transition} (proc : u.proc = t.proc) (state : u.state = t.state)
    (frozen : u.frozen = t.frozen) : S.Shows u c :=
  ⟨proc.trans h.proc, state.trans h.state, frozen.trans h.unfrozen⟩

theorem mapScratch (h : S.Shows t c) (f : Scratch → Scratch) : S.Shows (t.mapScratch f) c :=
  h.of_eq rfl rfl rfl

theorem note (h : S.Shows t c) (f : Option Fault) : S.Shows (t.note f) c := h.of_eq rfl rfl rfl

theorem resetAccesses (h : S.Shows t c) : S.Shows t.resetAccesses c := h.of_eq rfl rfl rfl

theorem mapConditions (h : S.Shows t c) (f : Conditions → Conditions) :
    S.Shows (t.mapConditions f) c := h.mapScratch _

theorem addRead (h : S.Shows t c) (v : Variable) : S.Shows (t.addRead v) c := h.mapScratch _

theorem addWritten (h : S.Shows t c) (v : Variable) : S.Shows (t.addWritten v) c := h.mapScratch _

theorem mapRunning (h : S.Shows t c) (f : ProcessState → ProcessState) :
    S.Shows (t.mapRunning f) ⟨f c.proc, c.values⟩ := by
  have frozen := ((Keeps.refl t).mapRunning f).frozen.trans h.unfrozen
  unfold Transition.mapRunning at frozen ⊢
  simp only [h.running?, Transition.setRunning, h.proc] at frozen ⊢
  exact ⟨rfl, by simp [h.state, State.setProc, Setting.state], frozen⟩

theorem setValue (h : S.Shows t c) (v : Variable) (x : Value) :
    S.Shows (t.mapGlobal (·.setValue v x)) ⟨c.proc, c.values.insert v x⟩ :=
  ⟨h.proc, by simp [Transition.mapGlobal, GlobalState.setValue, h.state, Setting.state], h.unfrozen⟩

section Frames

variable {f : Frame} {rest : List Frame} {L G : Store}

theorem mapTop (h : S.Shows t (.run f rest L G)) (g : Frame → Frame) :
    S.Shows (t.mapTop g) (.run (g f) rest L G) := h.mapRunning _

theorem enter (h : S.Shows t (.run f rest L G)) (i : Int) :
    S.Shows (t.enter i) (.run (f.enter i) rest L G) := h.mapTop _

theorem finish (h : S.Shows t (.run f rest L G)) (v : Value) :
    S.Shows (t.finish S.sim.program.system v) (.run (S.sys.finish v f) rest L G) := by
  rw [finish_eq]
  exact (h.mapTop _).note _

theorem comeFrom (h : S.Shows t (.run f rest L G)) (i : Int) (x : Option Value) :
    S.Shows (t.editTop (Frame.editComeFrom i x)) (.run ({ f with comingFrom := i }.put i x) rest L G) := by
  rw [comeFrom_eq]
  exact (h.mapTop fun f => { f with comingFrom := i }.put i x).note _

theorem editPop (h : S.Shows t c) : S.Shows (t.editRunning ProcessState.editPop) ⟨c.proc.pop, c.values⟩ := by
  rw [editPop_eq]
  exact (h.mapRunning (·.pop)).note _

theorem block (h : S.Shows t c) (b : Option Blocker) :
    S.Shows (t.mapRunning (·.block b)) ⟨c.proc.block b, c.values⟩ := h.mapRunning _

/-- Stores a value in a variable of a frame, or in a global one. -/
theorem store_local (h : S.Shows t (.run f rest L G)) {v : Variable} (hv : v.isLocal = true)
    (x : Value) : S.Shows (S.sim.store t v x) (.run f rest (L.insert v x) G) := by
  unfold Simulator.store
  rw [if_pos (S.tracked v), if_pos hv]
  exact h.mapRunning _

theorem store_global (h : S.Shows t (.run f rest L G)) {v : Variable} (hv : v.isLocal = false)
    (x : Value) : S.Shows (S.sim.store t v x) (.run f rest L (G.insert v x)) := by
  unfold Simulator.store
  rw [if_pos (S.tracked v), hv, if_neg Bool.false_ne_true]
  exact h.setValue v x

end Frames

end Setting.Shows

namespace Setting

open Transition Simulator

variable {S : Setting} {c c' c'' : Config} {ends : Bool}

theorem Gives.one {e : Option Expr} {i : Int} {r : Transition} (h : S.Shows r c) :
    S.Gives (.ok (.one e i r)) false c := ⟨_, r, rfl, rfl, rfl, h⟩

theorem Gives.repeating {e : Option Expr} {i : Int} {r : Transition} {b : Bool} (h : S.Shows r c) :
    S.Gives (.ok { SmallStep.one e i r with repeats := b }) false c := ⟨_, r, rfl, rfl, rfl, h⟩

/-- A small step from frames that can be edited is an advance; nobody is told of it. -/
theorem Gives.observed {t : Transition} (shows : S.Shows t c) (firm : c.Firm)
    (h : S.Gives (S.sim.advance t.resetAccesses).result ends c') : S.Gives (S.sim.smallStep t).result ends c' := by
  obtain ⟨st, r, hst, hres, hends, hr⟩ := h
  rw [smallStep_eq shows.unfrozen (shows.firm firm), hst]
  change S.Gives ((S.sim.observeResults st.expr st.comingFrom st.results).result >>= _) ends c'
  rw [Simulator.observeResults_quiet S.quiet, hres]
  exact ⟨_, _, rfl, rfl, hends, hr.of_eq rfl rfl rfl⟩

variable {f : Frame} {rest : List Frame} {L G : Store}

/-- A small step on the body of a routine. -/
theorem goes_of_body (hpath : f.path = [])
    (h : ∀ t, S.Shows t (.run f rest L G) → S.Gives (.ok (S.sim.bodyStep t f)) ends c) :
    S.Goes ends (.run f rest L G) c := by
  intro firm t shows
  have ht := shows.resetAccesses
  refine Gives.observed shows firm ?_
  unfold Simulator.advance
  have hrun : t.resetAccesses.running? = _ := ht.running?
  have htop : t.resetAccesses.top? = some f := ht.top?
  simp only [hrun, htop, hpath]
  exact h _ ht

/-- A small step on an expression. -/
theorem goes_of_expr {e : Expr} (he : S.sys.at? f.location = some e)
    (h : ∀ t, S.Shows t (.run f rest L G) →
      S.Gives (S.sim.exprStep t ⟨none, f :: rest, L⟩ f e).result ends c) :
    S.Goes ends (.run f rest L G) c := by
  intro firm t shows
  have ht := shows.resetAccesses
  obtain ⟨i, up, hpath⟩ : ∃ i up, f.path = i :: up := by
    refine List.exists_cons_of_ne_nil fun hpath => ?_
    have : f.location.path = [] := hpath
    simp [System.at?, this, Path.resolve?] at he
  have hadv : (S.sim.advance t.resetAccesses).result =
      (S.sim.exprStep t.resetAccesses ⟨none, f :: rest, L⟩ f e).result := by
    unfold Simulator.advance
    have hrun : t.resetAccesses.running? = some ⟨none, f :: rest, L⟩ := ht.running?
    have htop : t.resetAccesses.top? = some f := ht.top?
    have hat : S.sim.program.at? f.location = some e := he
    simp only [hrun, htop, hpath, hat, S.quiet]
    rfl
  exact Gives.observed shows firm (hadv ▸ h _ ht)

/-- A configuration is shown by any transition with its state. -/
def showing (S : Setting) (c : Config) : Transition := .start (S.state c) .none (some S.proc) none

theorem shows_showing (c : Config) : S.Shows (S.showing c) c := ⟨rfl, rfl, rfl⟩

/-- Small steps leave all frames such that they can be edited. -/
theorem Goes.firm (goes : S.Goes ends c c') (firm : c.Firm) : c'.Firm := by
  obtain ⟨st, r, hst, hres, -, shows⟩ := goes firm _ (S.shows_showing c)
  intro f hf
  exact smallStep_firm ((S.shows_showing c).firm firm) hst (by simp [hres]) f (shows.frames.symm ▸ hf)

theorem Reaches.refl (c : Config) : S.Reaches c c := Relation.ReflTransGen.refl

theorem Reaches.trans (h : S.Reaches c c') (h' : S.Reaches c' c'') : S.Reaches c c'' :=
  Relation.ReflTransGen.trans h h'

theorem Goes.reaches (h : S.Goes false c c') : S.Reaches c c' := Relation.ReflTransGen.single h

theorem Goes.then (h : S.Goes false c c') (h' : S.Reaches c' c'') : S.Reaches c c'' :=
  Relation.ReflTransGen.head h h'

theorem Reaches.snoc (h : S.Reaches c c') (h' : S.Goes false c' c'') : S.Reaches c c'' :=
  Relation.ReflTransGen.tail h h'

end Setting

end Structured

end DeltaSlice
