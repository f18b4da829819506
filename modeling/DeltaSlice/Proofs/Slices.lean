import DeltaSlice.Model.Examples
import DeltaSlice.Proofs.Flow.Chains
import DeltaSlice.Proofs.Interleaving
import DeltaSlice.Proofs.SystemGraph

/-!
Backwards slices across transitions. The definitions are followed only until a transition surely
writes the variable again, and every transition with an output node counts as such. Nothing is lost:
one that may leave the variable as it was has an edge from its input to its output, and the slice goes
on from there.
-/

namespace DeltaSlice

namespace Interleaving

variable {r : Interleaving} {v : Variable} {n m : Nat}

/-- A transition may leave `v` as it was: it has no output node for it, or an edge from the input. -/
def Carries (r : Interleaving) (v : Variable) (n : Nat) : Prop :=
  ∀ p, r.pdg? n = some p → p.has (.output v) = true →
    p.edge? .data (.input v) (.output v) = .ok true

end Interleaving

namespace SystemGraph

variable {r : Interleaving} {g : SystemGraph} {v : Variable} {n m : Nat}

/-- The graph of a whole record: all graphs of its transitions, and an edge for every chain. -/
structure Assembles (r : Interleaving) (g : SystemGraph) (cs : List (Chain Variable)) : Prop where
  valid : g.Valid
  holds : ∀ n p, r.pdg? n = some p → g.Holds n p
  chains : cs = r.pdgFlow.followChains Variable.text
  edge : ∀ c ∈ cs, g.Edge ⟨c.source, .output c.var⟩ ⟨c.use, .input c.var⟩

theorem empty_valid : Valid empty where
  ids := .nil
  integrated := by simp [empty, nodeIds]
  known := by simp [empty, Out]
  source := by simp [empty, In]

/-- Building succeeds on every record. -/
theorem build_assembles (recorded : r.Recorded) : ∃ g cs, build r = .ok (g, cs) ∧ Assembles r g cs := by
  obtain ⟨g, hg, grown, holds⟩ := integrateAll_grows (r := r) empty_valid List.nodup_range
    (fun n _ => rfl) (fun n p hp => (recorded.finalized hp).valid.ids)
  have held : ∀ n p, r.pdg? n = some p → g.Holds n p := by
    intro n p hp
    obtain ⟨x, info, hx, -, -⟩ := Interleaving.pdg?_eq_some.1 hp
    exact holds n (List.mem_range.2 (Interleaving.node?_lt hx)) p hp
  have ends : ∀ c ∈ r.pdgFlow.followChains Variable.text,
      ⟨c.source, .output c.var⟩ ∈ g.nodeIds ∧ ⟨c.use, .input c.var⟩ ∈ g.nodeIds := by
    intro c hc
    obtain ⟨written, read⟩ := Flow.accesses_of_mem_followChains hc
    obtain ⟨p, hp, hout⟩ := Interleaving.mem_possiblyWritten_pdgFlow.1 written
    obtain ⟨q, hq, hin⟩ := Interleaving.read_pdgFlow.1 read
    exact ⟨(held _ p hp).node _ (Pdg.mem_nodeIds.2 hout), (held _ q hq).node _ (Pdg.mem_nodeIds.2 hin)⟩
  obtain ⟨h, hh, connected, edges⟩ := connectAll_grows grown.valid ends
  refine ⟨h, _, ?_, ⟨connected.valid, fun n p hp => (held n p hp).mono connected, rfl, edges⟩⟩
  simp [build, hg, hh, bind, Except.bind, pure, Except.pure]

/-- The definition at `n` comes as far as `m`: edges lead from it to an output node from which `v`
arrives at `m` without another output node on the way. -/
def Brings (r : Interleaving) (g : SystemGraph) (v : Variable) (n m : Nat) : Prop :=
  ∃ l q, r.pdg? l = some q ∧ q.has (.output v) = true ∧ r.pdgFlow.Arrives v l m ∧
    Relation.ReflTransGen g.Edge ⟨n, .output v⟩ ⟨l, .output v⟩

section Paths

variable {cs : List (Chain Variable)} (hg : Assembles r g cs) (recorded : r.Recorded)

include recorded in
theorem brings_of_follows {p : Pdg} (hp : r.pdg? n = some p) (defines : p.has (.output v) = true)
    (follows : r.Follows n m) : Brings r g v n m := by
  have next : m ∈ r.pdgFlow.succs n := by
    rw [Interleaving.succs_pdgFlow recorded.linked]
    exact follows
  exact ⟨n, p, hp, defines, .succ next, .refl⟩

include hg recorded in
/-- The slice of an input node goes on to the definition that is brought to it. -/
theorem Assembles.path (brings : Brings r g v n m) {q : Pdg} (hq : r.pdg? m = some q)
    (uses : q.has (.input v) = true) : Relation.ReflTransGen g.Edge ⟨n, .output v⟩ ⟨m, .input v⟩ := by
  obtain ⟨l, p, hp, hout, arrives, path⟩ := brings
  obtain ⟨positive, reached, -⟩ := recorded.connected
  obtain ⟨x, info, hx, -, -⟩ := Interleaving.pdg?_eq_some.1 hp
  have found : (⟨l, v, m⟩ : Chain Variable) ∈ r.pdgFlow.followChains Variable.text := by
    refine Flow.mem_followChains_of_arrives ?_ positive (Interleaving.node?_lt hx) ?_
      (Interleaving.mem_possiblyWritten_pdgFlow.2 ⟨p, hp, hout⟩) arrives
      (Interleaving.read_pdgFlow.2 ⟨q, hq, uses⟩)
    · intro a _ b hb
      rw [Interleaving.succs_pdgFlow recorded.linked] at hb
      obtain ⟨-, y, -, hy, -⟩ := recorded.linked.follows_iff.1 hb
      exact Interleaving.node?_lt hy
    · simp only [Interleaving.succs_pdgFlow recorded.linked]
      exact reached l (Interleaving.node?_lt hx)
  exact path.tail (hg.edge _ (hg.chains ▸ found))

include hg recorded in
theorem Assembles.brings_pass (brings : Brings r g v n m) (carries : r.Carries v m) {l : Nat}
    (follows : r.Follows m l) : Brings r g v n l := by
  have next : l ∈ r.pdgFlow.succs m := by
    rw [Interleaving.succs_pdgFlow recorded.linked]
    exact follows
  by_cases written : (r.pdgFlow.written m v).definitely = true
  · -- The variable starts anew at the output node, to which an edge leads from the input node.
    obtain ⟨q, hq, hout⟩ := Interleaving.written_pdgFlow.1 written
    have inside := Pdg.mem_edges (carries q hq hout)
    have uses := Pdg.mem_nodeIds.1 (Pdg.has_of_mem_edges inside).1
    have path := hg.path recorded brings hq uses
    exact ⟨m, q, hq, hout, .succ next, path.tail ((hg.holds m q hq).edge _ inside)⟩
  · obtain ⟨x, p, hp, hout, arrives, path⟩ := brings
    exact ⟨x, p, hp, hout, .pass arrives (Bool.eq_false_iff.2 written) next, path⟩

include hg recorded in
theorem Assembles.brings {between : List Nat} {i : Nat} (brings : Brings r g v n i)
    (path : (i :: (between ++ [m])).IsChain r.Follows) (carries : ∀ j ∈ i :: between, r.Carries v j) :
    Brings r g v n m := by
  induction between generalizing i with
  | nil =>
      have follows : r.Follows i m := by simpa using path
      exact hg.brings_pass recorded brings (carries i (by simp)) follows
  | cons j between ih =>
      obtain ⟨follows, rest⟩ := List.isChain_cons_cons.1 path
      refine ih (hg.brings_pass recorded brings (carries i (by simp)) follows) rest ?_
      exact fun l hl => carries l (List.mem_cons_of_mem i hl)

include hg recorded in
/-- A definition comes as far as every path goes on which no transition surely overwrites it. -/
theorem Assembles.brings_of_path {p : Pdg} (hp : r.pdg? n = some p) (defines : p.has (.output v) = true)
    {between : List Nat} (path : (n :: (between ++ [m])).IsChain r.Follows)
    (carries : ∀ i ∈ between, r.Carries v i) : Brings r g v n m := by
  cases between with
  | nil => exact brings_of_follows recorded hp defines (by simpa using path)
  | cons i between =>
      obtain ⟨follows, rest⟩ := List.isChain_cons_cons.1 path
      exact hg.brings recorded (brings_of_follows recorded hp defines follows) rest carries

end Paths

/-- A definition is in the slice of every later use to which some path leads on which no transition
surely overwrites it. -/
theorem definition_mem_slice (recorded : r.Recorded) {p q : Pdg} (hp : r.pdg? n = some p)
    (defines : p.has (.output v) = true) (hq : r.pdg? m = some q) (uses : q.has (.input v) = true)
    (between : List Nat) (path : (n :: (between ++ [m])).IsChain fun a b => b ∈ r.succs a)
    (carries : ∀ i ∈ between, r.Carries v i) :
    ∃ g chains slice, build r = .ok (g, chains) ∧ g.slice ⟨m, .input v⟩ = .ok slice ∧
      ⟨n, .output v⟩ ∈ slice := by
  obtain ⟨g, cs, hbuild, hg⟩ := build_assembles recorded
  have brings := hg.brings_of_path recorded hp defines path carries
  have start : ⟨m, .input v⟩ ∈ g.nodeIds := (hg.holds m q hq).node _ (Pdg.mem_nodeIds.2 uses)
  obtain ⟨slice, hslice, hmem⟩ := mem_slice hg.valid start (hg.path recorded brings hq uses)
  exact ⟨g, cs, slice, hbuild, hslice, hmem⟩

end SystemGraph

namespace Examples

/-- A field of `top`. -/
def level : Variable := .global (.inst top) (field 0 "level")

/-- A graph with one node, which makes the given definitions. -/
def lone (a : NodeId) (definitions : List (Variable × Definitions)) : Pdg :=
  ⟨[⟨a, none, .empty, .empty⟩], none, ⟨definitions⟩⟩

theorem lone_valid {a : NodeId} {definitions : List (Variable × Definitions)}
    (keys : (definitions.map (·.1)).Nodup) (own : ∀ e ∈ definitions, e.2.nodes = [0]) :
    (lone a definitions).Valid where
  ids := by simp [lone]
  mirrored k m n := by
    cases k <;> simp [lone, Pdg.Out, Pdg.In, EdgeSets.empty, EdgeSets.get, List.getElem?_singleton]
  ascending x hx k := by
    cases k <;> simp_all [lone, EdgeSets.empty, EdgeSets.get]
  entry := by simp [lone]
  keys := keys
  definitions v d h := by
    have : d.nodes = [0] := own (v, d) h
    simp [this, lone]

/-- Fills the tank, on every way through the transition or on some only. -/
def filling (outer : Bool) : Pdg := lone (.statement "fill") [(level, ⟨[0], outer⟩)]

def measuring : Pdg := lone (.input level) []

def idle : State := ⟨.start, [], none, 0⟩

def busy : State := ⟨{ GlobalState.start with updates := [top] }, [], none, 0⟩

/-- The transitions to a state whose graph is closed at the end. -/
def arriving (st : State) (g : Pdg) : Except Fault Transition :=
  g.finalize.map fun g => .start st (.pdg g) none none

/-- From `idle` to `busy` the tank is filled, at `busy` it may be filled again, and it is measured on
the way back. -/
def tank : Except Fault Interleaving := do
  let (_, _, r) ← (Interleaving.start idle).add idle (← arriving busy (filling false))
  let (_, _, r) ← r.add busy (← arriving busy (filling true))
  let (_, _, r) ← r.add busy (← arriving idle measuring)
  pure r

theorem arriving_finalized {st : State} {g : Pdg} {t : Transition} (hg : g.Valid)
    (h : arriving st g = .ok t) {p : Pdg} (hp : t.info.pdg? = some p) : p.Finalized := by
  obtain ⟨q, hq, rfl⟩ := Success.map_iff.1 h
  obtain rfl : q = p := by simpa [Transition.start, Info.pdg?] using hp
  exact ⟨g, hg, hq⟩

theorem tank_recorded {r : Interleaving} (h : tank = .ok r) : r.Recorded := by
  unfold tank at h
  simp only [Success.bind_iff] at h
  obtain ⟨t₁, h₁, ⟨_, _, r₁⟩, hr₁, t₂, h₂, ⟨_, _, r₂⟩, hr₂, t₃, h₃, ⟨_, _, r₃⟩, hr₃, h⟩ := h
  obtain rfl : r₃ = r := by simpa [pure, Except.pure] using h
  have valid : ∀ outer, (filling outer).Valid := fun _ => lone_valid (by simp) (by simp)
  have first := Interleaving.Recorded.start idle
  have second := first.add (fun p => arriving_finalized (valid _) h₁) hr₁
  have third := second.add (fun p => arriving_finalized (valid _) h₂) hr₂
  exact third.add (fun p => arriving_finalized (lone_valid (by simp) (by simp)) h₃) hr₃

end Examples

open Examples in
theorem definition_mem_slice_tank : ∃ r p q, r.Recorded ∧ r.pdg? 1 = some p ∧
    p.has (.output level) = true ∧ r.pdg? 3 = some q ∧ q.has (.input level) = true ∧
    [1, 2, 2, 3].IsChain (fun a b => b ∈ r.succs a) ∧ r.Carries level 2 ∧
    ∃ g chains slice, SystemGraph.build r = .ok (g, chains) ∧
      g.slice ⟨3, .input level⟩ = .ok slice ∧ ⟨1, .output level⟩ ∈ slice := by
  obtain ⟨r, hr, h⟩ := Success.exists_of_yields (x := tank) (c := fun r =>
    (r.pdg? 1).any (·.has (.output level)) && (r.pdg? 3).any (·.has (.input level)) &&
      (r.pdg? 2).any (fun p => Success.yields (p.edge? .data (.input level) (.output level)) id) &&
      (r.succs 1).contains 2 && (r.succs 2).contains 2 && (r.succs 2).contains 3) (by decide +kernel)
  simp only [Bool.and_eq_true, Option.any_eq_true, List.contains_iff_mem] at h
  obtain ⟨⟨⟨⟨⟨⟨p, hp, hout⟩, ⟨q, hq, hin⟩⟩, ⟨m, hm, hedge⟩⟩, h12⟩, h22⟩, h23⟩ := h
  have path : [1, 2, 2, 3].IsChain (fun a b => b ∈ r.succs a) := by simp [h12, h22, h23]
  have carries : r.Carries level 2 := by
    intro m' hm' _
    obtain rfl : m = m' := by
      rw [hm] at hm'
      injection hm'
    obtain ⟨b, hb, rfl⟩ := Success.exists_of_yields hedge
    exact hb
  refine ⟨r, p, q, tank_recorded hr, hp, hout, hq, hin, path, carries, ?_⟩
  exact SystemGraph.definition_mem_slice (tank_recorded hr) hp hout hq hin [2, 2] path
    (by simpa using carries)

end DeltaSlice
