import DeltaSlice.Interleaving
import DeltaSlice.Proofs.Pdg.Reaching
import Mathlib.Logic.Relation

/-!
Records made by adding one transition after the other. Every transition of such a record can be
reached from the way into the initial state, since it starts where an earlier one ends.
-/

namespace DeltaSlice

theorem Value.possibly_false : (bool false).possibly = false := rfl

theorem Value.definitely_false : (bool false).definitely = false := rfl

/-- The graph of a whole transition, closed at its end. -/
def Pdg.Finalized (p : Pdg) : Prop := ∃ q : Pdg, q.Valid ∧ q.finalize = .ok p

theorem Pdg.Finalized.valid {p : Pdg} (h : p.Finalized) : p.Valid := by
  obtain ⟨q, hq, hp⟩ := h
  exact (finalize_valid_edges hq hp).1

namespace Pdg

variable {p : Pdg} {v : Variable}

theorem mem_vars : v ∈ p.vars ↔ p.has (.input v) = true ∨ p.has (.output v) = true := by
  unfold vars
  rw [(sortByText_perm _ _).mem_iff, List.mem_eraseDups, List.mem_filterMap]
  simp only [has, find?, List.findIdx?_isSome, List.any_eq_true, decide_eq_true_eq]
  constructor
  · rintro ⟨x, hx, hvar⟩
    cases hid : x.id with
    | entry s | statement s => simp [hid, NodeId.var?] at hvar
    | input w =>
        obtain rfl : w = v := by simpa [hid, NodeId.var?] using hvar
        exact .inl ⟨x, hx, hid⟩
    | output w =>
        obtain rfl : w = v := by simpa [hid, NodeId.var?] using hvar
        exact .inr ⟨x, hx, hid⟩
  · rintro (⟨x, hx, hid⟩ | ⟨x, hx, hid⟩)
    · exact ⟨x, hx, by simp [hid, NodeId.var?]⟩
    · exact ⟨x, hx, by simp [hid, NodeId.var?]⟩

theorem possibly_writtenOf : (p.writtenOf v).possibly = p.has (.output v) := by
  unfold writtenOf
  cases p.has (.output v) <;> rfl

theorem definitely_writtenOf : (p.writtenOf v).definitely = p.has (.output v) := by
  unfold writtenOf
  cases p.has (.output v) <;> rfl

theorem possibly_readOf : (p.readOf v).possibly = p.has (.input v) := by
  unfold readOf
  cases p.has (.input v) <;> rfl

end Pdg

namespace Neighbours

/-- The neighbours of `k` nodes are those in a relation. -/
structure Shows (ns : List Neighbours) (k : Nat) (related : Nat → Nat → Prop) : Prop where
  length : ns.length = k
  succs : ∀ a b, (∃ x, ns[a]? = some x ∧ b ∈ x.succs) ↔ related a b
  preds : ∀ a b, (∃ x, ns[b]? = some x ∧ a ∈ x.preds) ↔ related a b

variable {ns : List Neighbours} {k a b : Nat} {related related' : Nat → Nat → Prop}

theorem Shows.congr (h : Shows ns k related) (same : ∀ a b, related a b ↔ related' a b) :
    Shows ns k related' :=
  ⟨h.length, fun a b => (h.succs a b).trans (same a b), fun a b => (h.preds a b).trans (same a b)⟩

theorem Shows.push (h : Shows ns k related) : Shows (ns ++ [none]) (k + 1) related where
  length := by simp [h.length]
  succs a b := by
    rw [← h.succs a b, List.getElem?_append]
    split <;> simp_all [none, List.getElem?_singleton]
  preds a b := by
    rw [← h.preds a b, List.getElem?_append]
    split <;> simp_all [none, List.getElem?_singleton]

theorem Shows.link (h : Shows ns k related) (ha : a < k) (hb : b < k) :
    Shows (link ns a b) k fun x y => related x y ∨ x = a ∧ y = b := by
  unfold Neighbours.link
  split
  · rename_i present
    have known : related a b := by
      rw [← h.succs a b]
      simpa [Option.any_eq_true] using present
    refine h.congr fun x y => ⟨.inl, ?_⟩
    rintro (old | ⟨rfl, rfl⟩)
    · exact old
    · exact known
  · have absent : ∀ {x}, ns[x]? = Option.none → x ≠ a ∧ x ≠ b := by
      intro x hx
      have := List.getElem?_eq_none_iff.1 hx
      have := h.length
      omega
    refine ⟨by simp [h.length], fun x y => ?_, fun x y => ?_⟩
    · rw [← h.succs x y]
      simp only [List.getElem?_modify]
      cases hx : ns[x]? with
      | none => simp [absent hx]
      | some w => by_cases here : a = x <;> by_cases there : b = x <;>
          simp [here, there, NodeSet.mem_insert, or_comm, eq_comm]
    · rw [← h.preds x y]
      simp only [List.getElem?_modify]
      cases hy : ns[y]? with
      | none => simp [absent hy]
      | some w => by_cases here : a = y <;> by_cases there : b = y <;>
          simp [here, there, NodeSet.mem_insert, or_comm, eq_comm]

theorem Shows.links (h : Shows ns k related) {es : List (Nat × Nat)}
    (inside : ∀ e ∈ es, e.1 < k ∧ e.2 < k) :
    Shows (es.foldl (fun ns e => Neighbours.link ns e.1 e.2) ns) k fun x y => related x y ∨ (x, y) ∈ es := by
  induction es generalizing ns related with
  | nil => exact h.congr (by simp)
  | cons e es ih =>
      obtain ⟨first, rest⟩ := List.forall_mem_cons.1 inside
      refine (ih (h.link first.1 first.2) rest).congr fun x y => ?_
      rw [List.mem_cons, Prod.ext_iff, or_assoc]

end Neighbours

namespace Interleaving

variable {r r' : Interleaving} {n m : Nat} {v : Variable}

/-- A record that began with a state and to which transitions with finalized graphs were added. -/
inductive Recorded : Interleaving → Prop
  | start (st : State) : Recorded (start st)
  | add {r r' : Interleaving} {source : State} {t : Transition} {m : Nat} {new : Bool} :
      Recorded r → (∀ p, t.info.pdg? = some p → p.Finalized) →
      r.add source t = .ok (m, new, r') → Recorded r'

/-- One transition follows another. -/
def Follows (r : Interleaving) (n m : Nat) : Prop := m ∈ r.succs n

theorem node?_lt {x : RecordNode} (h : r.node? n = some x) : n < r.size := by
  obtain ⟨y, hy, -⟩ := Option.map_eq_some_iff.1 h
  exact (List.getElem?_eq_some_iff.1 hy).1

theorem mem_numbersOf {test : RecordNode → Bool} :
    n ∈ r.numbersOf test ↔ ∃ x, r.node? n = some x ∧ test x = true := by
  unfold numbersOf node?
  simp only [List.mem_map, List.mem_filter, Option.map_eq_some_iff]
  constructor
  · rintro ⟨⟨y, i⟩, ⟨hy, htest⟩, rfl⟩
    exact ⟨y.2, ⟨y, by simpa using List.mem_zipIdx_iff_getElem?.1 hy, rfl⟩, htest⟩
  · rintro ⟨x, ⟨y, hy, rfl⟩, htest⟩
    exact ⟨(y, n), ⟨List.mem_zipIdx_iff_getElem?.2 (by simpa using hy), htest⟩, rfl⟩

/-- One transition ends where another starts. -/
def Meets (r : Interleaving) (n m : Nat) : Prop :=
  ∃ x y, r.node? n = some x ∧ r.node? m = some y ∧ y.source = some x.target

/-- The links of the nodes are those of the transitions that meet. -/
def Linked (r : Interleaving) : Prop := Neighbours.Shows r.neighbours r.size r.Meets

theorem Linked.follows_iff (h : r.Linked) : r.Follows n m ↔ r.Meets n m := by
  rw [← h.succs n m, Follows, succs]
  cases r.neighbours[n]? <;> simp

theorem Linked.mem_preds (h : r.Linked) : n ∈ r.preds m ↔ r.Meets n m := by
  rw [← h.preds n m, preds]
  cases r.neighbours[m]? <;> simp

theorem linked_start (st : State) : (start st).Linked := by
  have alone : ∀ a b, ¬ (start st).Meets a b := by
    intro a b meets
    obtain ⟨x, y, -, hy, source⟩ := meets
    obtain rfl : b = 0 := by simpa [start, size] using node?_lt hy
    obtain rfl : (⟨none, 0, none, none⟩ : RecordNode) = y := by simpa [node?, start] using hy
    cases source
  refine ⟨rfl, fun a b => iff_of_false ?_ (alone a b), fun a b => iff_of_false ?_ (alone a b)⟩
  · simp [start, Neighbours.none, List.getElem?_singleton]
  · simp [start, Neighbours.none, List.getElem?_singleton]

section Push

variable {x : RecordNode} (key : String) (push : r'.nodes = r.nodes ++ [(key, x)])

include push

theorem node?_push : r'.node? n = if n = r.size then some x else r.node? n := by
  simp only [node?, push, List.getElem?_append, size, List.getElem?_singleton]
  split
  · rename_i old
    simp [old.ne]
  · split
    · rename_i last
      simp [show n = r.nodes.length by omega]
    · rename_i old other
      simp [show n ≠ r.nodes.length by omega, List.getElem?_eq_none (Nat.not_lt.1 old)]

theorem mem_linksOf_push {a b : Nat} : (a, b) ∈ r'.linksOf r.size x ↔
    r'.Meets a b ∧ (a = r.size ∨ b = r.size) := by
  have last : r'.node? r.size = some x := by simp [node?_push key push]
  simp only [linksOf, List.mem_append, List.mem_map, Prod.mk.injEq, leaving, mem_numbersOf,
    decide_eq_true_eq]
  constructor
  · rintro (⟨c, hc, rfl, rfl⟩ | ⟨c, ⟨y, hy, source⟩, rfl, rfl⟩)
    · cases source : x.source with
      | none => simp [source] at hc
      | some s =>
          simp only [source, Option.map_some, Option.getD_some, reaching, mem_numbersOf,
            decide_eq_true_eq] at hc
          obtain ⟨y, hy, rfl⟩ := hc
          exact ⟨⟨y, x, hy, last, source⟩, .inr rfl⟩
    · exact ⟨⟨x, y, last, hy, source⟩, .inl rfl⟩
  · rintro ⟨⟨y, z, hy, hz, source⟩, rfl | rfl⟩
    · obtain rfl : x = y := by simpa [last] using hy
      exact .inr ⟨b, ⟨z, hz, source⟩, rfl, rfl⟩
    · obtain rfl : x = z := by simpa [last] using hz
      refine .inl ⟨a, ?_, rfl, rfl⟩
      simp only [source, Option.map_some, Option.getD_some, reaching, mem_numbersOf,
        decide_eq_true_eq]
      exact ⟨y, hy, rfl⟩

/-- The transitions that meet after one more: those before, and those that the links are for. -/
theorem meets_push {a b : Nat} :
    r'.Meets a b ↔ r.Meets a b ∨ (a, b) ∈ r'.linksOf r.size x := by
  have old : ∀ {c y}, r.node? c = some y → c ≠ r.size := fun hy => (node?_lt hy).ne
  rw [mem_linksOf_push key push]
  constructor
  · intro meets
    by_cases inside : a = r.size ∨ b = r.size
    · exact .inr ⟨meets, inside⟩
    · obtain ⟨y, z, hy, hz, source⟩ := meets
      obtain ⟨ha, hb⟩ := not_or.1 inside
      rw [node?_push key push, if_neg ha] at hy
      rw [node?_push key push, if_neg hb] at hz
      exact .inl ⟨y, z, hy, hz, source⟩
  · rintro (⟨y, z, hy, hz, source⟩ | ⟨meets, -⟩)
    · refine ⟨y, z, ?_, ?_, source⟩
      · rwa [node?_push key push, if_neg (old hy)]
      · rwa [node?_push key push, if_neg (old hz)]
    · exact meets

end Push

theorem Linked.addNode (h : r.Linked) (x : RecordNode) : (r.addNode x).Linked := by
  simp only [Interleaving.addNode]
  split
  · exact h
  · let r' : Interleaving := { r with nodes := r.nodes ++ [((x.info.map Info.key).getD "", x)] }
    have size : r'.size = r.size + 1 := by simp [r', Interleaving.size]
    have inside : ∀ e ∈ r'.linksOf r.size x, e.1 < r.size + 1 ∧ e.2 < r.size + 1 := by
      intro e he
      obtain ⟨⟨y, z, hy, hz, -⟩, -⟩ := (mem_linksOf_push _ rfl).1 he
      exact ⟨size ▸ node?_lt hy, size ▸ node?_lt hz⟩
    have shown := ((Neighbours.Shows.push h).links inside).congr fun a b => (meets_push _ rfl).symm
    rwa [← size] at shown

theorem Linked.addState (h : r.Linked) (st : State) : (r.addState st).2.2.Linked := by
  simp only [Interleaving.addState]
  split
  · exact h
  · exact h

theorem Linked.add {source : State} {t : Transition} {new : Bool} (h : r.Linked)
    (hadd : r.add source t = .ok (m, new, r')) : r'.Linked := by
  unfold Interleaving.add at hadd
  split at hadd
  · cases hadd
  · simp only [Except.ok.injEq, Prod.mk.injEq] at hadd
    obtain ⟨-, -, rfl⟩ := hadd
    exact (h.addState t.state).addNode _

theorem Recorded.linked (h : r.Recorded) : r.Linked := by
  induction h with
  | start st => exact linked_start st
  | add _ _ hadd ih => exact ih.add hadd

/-- Every transition can be reached, and some transition ends in every state. -/
structure Connected (r : Interleaving) : Prop where
  size_pos : 0 < r.size
  reached : ∀ n < r.size, Relation.ReflTransGen r.Follows 0 n
  ended : ∀ s < r.states.length, ∃ n x, r.node? n = some x ∧ x.target = s

theorem connected_start (st : State) : (start st).Connected := by
  refine ⟨Nat.zero_lt_one, ?_, ?_⟩
  · intro n hn
    obtain rfl : n = 0 := by simpa [start, size] using hn
    exact .refl
  · intro s hs
    obtain rfl : s = 0 := by simpa [start] using hs
    exact ⟨0, ⟨none, 0, none, none⟩, rfl, rfl⟩

theorem addNode_cases (x : RecordNode) :
    ((∃ n y, r.node? n = some y ∧ y.target = x.target) ∧ r.addNode x = r) ∨
      ∃ key, (r.addNode x).nodes = r.nodes ++ [(key, x)] ∧ (r.addNode x).states = r.states := by
  simp only [addNode]
  split
  · rename_i present
    refine .inl ⟨?_, rfl⟩
    obtain ⟨y, hy, htest⟩ := List.any_eq_true.1 present
    obtain ⟨n, hn⟩ := List.mem_iff_getElem?.1 hy
    simp only [Bool.and_eq_true, decide_eq_true_eq] at htest
    exact ⟨n, y.2, by simp [node?, hn], htest.2⟩
  · exact .inr ⟨_, rfl, rfl⟩

theorem addState_cases (st : State) : (r.addState st).2.2.nodes = r.nodes ∧
    ∀ i < (r.addState st).2.2.states.length, i < r.states.length ∨ i = (r.addState st).1 := by
  simp only [addState]
  split
  · exact ⟨rfl, fun i hi => .inl hi⟩
  · refine ⟨rfl, fun i hi => ?_⟩
    simp only [List.length_append, List.length_singleton] at hi
    omega

/-- What adding does: the end of the transition is the only state that may be new, and the transition
is the last node unless one between the same states was there. -/
theorem add_cases {source : State} {t : Transition} {new : Bool}
    (h : r.add source t = .ok (m, new, r')) : ∃ s < r.states.length,
      (∀ i < r'.states.length, i < r.states.length ∨ i = m) ∧
      ((r'.nodes = r.nodes ∧ ∃ n x, r.node? n = some x ∧ x.target = m) ∨
        ∃ key, r'.nodes = r.nodes ++ [(key, ⟨some s, m, t.info, t.proc⟩)]) := by
  unfold add at h
  split at h
  · cases h
  · rename_i s hs
    obtain ⟨lt, -⟩ := List.findIdx?_eq_some_iff_getElem.1 hs
    simp only [Except.ok.injEq, Prod.mk.injEq] at h
    obtain ⟨rfl, -, rfl⟩ := h
    obtain ⟨nodes, states⟩ := addState_cases (r := r) t.state
    refine ⟨s, lt, ?_⟩
    rcases addNode_cases (r := (r.addState t.state).2.2)
      ⟨some s, (r.addState t.state).1, t.info, t.proc⟩ with
      ⟨⟨n, x, hx, htarget⟩, same⟩ | ⟨key, push, kept⟩
    · rw [same]
      exact ⟨states, .inl ⟨nodes, n, x, by rwa [node?, ← nodes], htarget⟩⟩
    · rw [push, kept]
      exact ⟨states, .inr ⟨key, by rw [nodes]⟩⟩

theorem node?_mono (h : ∃ added, r'.nodes = r.nodes ++ added) {x : RecordNode}
    (hx : r.node? n = some x) : r'.node? n = some x := by
  obtain ⟨added, h⟩ := h
  rw [node?, h, List.getElem?_append_left (node?_lt hx)]
  exact hx

theorem Meets.mono (h : ∃ added, r'.nodes = r.nodes ++ added) (hnm : r.Meets n m) :
    r'.Meets n m := by
  obtain ⟨x, y, hx, hy, hxy⟩ := hnm
  exact ⟨x, y, node?_mono h hx, node?_mono h hy, hxy⟩

theorem Connected.add {source : State} {t : Transition} {new : Bool} (hr : r.Connected)
    (linked : r.Linked) (h : r.add source t = .ok (m, new, r')) : r'.Connected := by
  have linked' := linked.add h
  obtain ⟨s, hs, states, hnodes⟩ := add_cases h
  have grown : ∃ added, r'.nodes = r.nodes ++ added := by
    rcases hnodes with ⟨same, -⟩ | ⟨key, push⟩
    · exact ⟨[], by rw [same, List.append_nil]⟩
    · exact ⟨_, push⟩
  have path : ∀ {a b}, Relation.ReflTransGen r.Follows a b → Relation.ReflTransGen r'.Follows a b :=
    Relation.ReflTransGen.mono (fun _ _ follows =>
      linked'.follows_iff.2 ((linked.follows_iff.1 follows).mono grown)) _ _
  -- The new end needs a transition into it only if it is a new state.
  have ended : (∃ n x, r'.node? n = some x ∧ x.target = m) →
      ∀ i < r'.states.length, ∃ n x, r'.node? n = some x ∧ x.target = i := by
    intro hm i hi
    rcases states i hi with old | rfl
    · obtain ⟨n, x, hx, htarget⟩ := hr.ended i old
      exact ⟨n, x, node?_mono grown hx, htarget⟩
    · exact hm
  rcases hnodes with ⟨same, n, x, hx, htarget⟩ | ⟨key, push⟩
  · have size : r'.size = r.size := congrArg List.length same
    refine ⟨size ▸ hr.size_pos, ?_, ended ⟨n, x, node?_mono grown hx, htarget⟩⟩
    intro i hi
    exact path (hr.reached i (size ▸ hi))
  · have size : r'.size = r.size + 1 := by simp [Interleaving.size, push]
    have last : r'.node? r.size = some ⟨some s, m, t.info, t.proc⟩ := by
      simp [node?, push, Interleaving.size]
    refine ⟨by omega, ?_, ended ⟨r.size, _, last, rfl⟩⟩
    intro i hi
    by_cases old : i < r.size
    · exact path (hr.reached i old)
    · obtain rfl : i = r.size := by omega
      obtain ⟨j, y, hy, htarget⟩ := hr.ended s hs
      refine (path (hr.reached j (node?_lt hy))).tail ?_
      exact linked'.follows_iff.2 ⟨y, _, node?_mono grown hy, last, by rw [htarget]⟩

theorem Recorded.connected (h : r.Recorded) : r.Connected := by
  induction h with
  | start st => exact connected_start st
  | add recorded _ hadd ih => exact ih.add recorded.linked hadd

theorem pdg?_eq_some {p : Pdg} : r.pdg? n = some p ↔
    ∃ x info, r.node? n = some x ∧ x.info = some info ∧ info.pdg? = some p := by
  simp only [pdg?, Option.bind_eq_some_iff]
  constructor
  · rintro ⟨info, ⟨x, hx, hinfo⟩, hp⟩
    exact ⟨x, info, hx, hinfo, hp⟩
  · rintro ⟨x, info, hx, hinfo, hp⟩
    exact ⟨info, ⟨x, hx, hinfo⟩, hp⟩

theorem Recorded.finalized (h : r.Recorded) {p : Pdg} (hp : r.pdg? n = some p) : p.Finalized := by
  induction h generalizing n with
  | start st =>
      obtain ⟨x, info, hx, hinfo, -⟩ := pdg?_eq_some.1 hp
      obtain rfl : n = 0 := by simpa [Interleaving.start, size] using node?_lt hx
      obtain rfl : (⟨none, 0, none, none⟩ : RecordNode) = x := by
        simpa [node?, Interleaving.start] using hx
      cases hinfo
  | @add r r' source t m new _ finalized hadd ih =>
      obtain ⟨x, info, hx, hinfo, hpi⟩ := pdg?_eq_some.1 hp
      obtain ⟨s, -, -, ⟨same, -⟩ | ⟨key, push⟩⟩ := add_cases hadd
      · rw [node?, same] at hx
        exact ih (n := n) (pdg?_eq_some.2 ⟨x, info, hx, hinfo, hpi⟩)
      · obtain ⟨y, hy, rfl⟩ := Option.map_eq_some_iff.1 hx
        rw [push] at hy
        rcases Pdg.getElem?_push.1 hy with hy | ⟨-, rfl⟩
        · exact ih (n := n) (pdg?_eq_some.2 ⟨y.2, info, by simp [node?, hy], hinfo, hpi⟩)
        · obtain rfl : t.info = info := by simpa using hinfo
          exact finalized p hpi

section Flow

theorem range_toArray {α : Type} (f : Nat → α) (k n : Nat) :
    ((List.range k).map f).toArray[n]? = if n < k then some (f n) else none := by
  simp only [List.getElem?_toArray, List.getElem?_map]
  split <;> simp_all

@[simp] theorem size_pdgFlow : r.pdgFlow.size = r.size := rfl

@[simp] theorem entry_pdgFlow : r.pdgFlow.entry = 0 := rfl

theorem succs_pdgFlow (linked : r.Linked) : r.pdgFlow.succs n = r.succs n := by
  simp only [pdgFlow, flowWith, range_toArray]
  split
  · rfl
  · rename_i outside
    have : r.neighbours[n]? = none := by simpa [linked.length] using outside
    simp [succs, this]

theorem pdg?_of_not_lt (h : ¬ n < r.size) : r.pdg? n = none := by
  have : r.node? n = none := by simpa [node?, size] using h
  simp [pdg?, this]

theorem read_pdgFlow :
    (r.pdgFlow.read n v).possibly = true ↔ ∃ p, r.pdg? n = some p ∧ p.has (.input v) = true := by
  simp only [pdgFlow, flowWith, range_toArray]
  split
  · cases hp : r.pdg? n with
    | none => simp [Accesses.never, Value.possibly_false]
    | some p => simp [Accesses.ofPdg, Pdg.possibly_readOf]
  · rename_i h
    simp [pdg?_of_not_lt h, Value.possibly_false]

theorem written_pdgFlow : (r.pdgFlow.written n v).definitely = true ↔
    ∃ p, r.pdg? n = some p ∧ p.has (.output v) = true := by
  simp only [pdgFlow, flowWith, range_toArray]
  split
  · cases hp : r.pdg? n with
    | none => simp [Accesses.never, Value.definitely_false]
    | some p => simp [Accesses.ofPdg, Pdg.definitely_writtenOf]
  · rename_i h
    simp [pdg?_of_not_lt h, Value.definitely_false]

theorem mem_possiblyWritten_pdgFlow : v ∈ r.pdgFlow.possiblyWritten n ↔
    ∃ p, r.pdg? n = some p ∧ p.has (.output v) = true := by
  simp only [pdgFlow, flowWith, range_toArray]
  split
  · cases hp : r.pdg? n with
    | none => simp [Accesses.possiblyWritten, Accesses.never]
    | some p =>
        simp only [Accesses.possiblyWritten, Accesses.ofPdg, Option.map_some, Option.getD_some,
          List.mem_filter, Pdg.mem_vars, Pdg.possibly_writtenOf, Option.some.injEq, exists_eq_left']
        exact ⟨And.right, fun h => ⟨.inr h, h⟩⟩
  · rename_i h
    simp [pdg?_of_not_lt h]

end Flow

end Interleaving

end DeltaSlice
