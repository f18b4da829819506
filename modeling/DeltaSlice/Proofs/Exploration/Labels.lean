import DeltaSlice.Proofs.Interleaving

/-!
What a record keeps of the transitions that are added to it: the keys of their states and of what was
learned. It numbers every key once and has one node for every combination of keys, whatever the order
in which the transitions were added.
-/

namespace DeltaSlice

/-- What tells a node from others: the numbers of its states, and the key of what was learned. -/
def RecordNode.mark (x : RecordNode) : Option Nat × Nat × String :=
  (x.source, x.target, (x.info.map Info.key).getD "")

namespace Interleaving

/-- What tells a transition from others: the keys of its states and of what was learned. -/
structure Label where
  source : Option String
  target : String
  info : String

/-- The label of the way into a state. -/
def Label.entry (st : State) : Label := ⟨none, st.key, ""⟩

/-- The label of a transition that leaves a state. -/
def Label.step (st : State) (t : Transition) : Label := ⟨some st.key, t.state.key, t.info.key⟩

def keys (r : Interleaving) : List String := r.states.map (·.1)

/-- The key of a numbered state. -/
def keyOf (r : Interleaving) (n : Nat) : String := (r.keys[n]?).getD ""

def labelOf (r : Interleaving) (x : String × RecordNode) : Label :=
  ⟨x.2.source.map r.keyOf, r.keyOf x.2.target, x.1⟩

/-- The labels of all transitions, by their numbers. -/
def labels (r : Interleaving) : List Label := r.nodes.map r.labelOf

/-- A node between states of the record. -/
def Inside (r : Interleaving) (x : RecordNode) : Prop :=
  (∀ s, x.source = some s → s < r.states.length) ∧ x.target < r.states.length

/-- States are told apart by their keys, nodes by their labels, and links join the nodes that meet. -/
structure Orderly (r : Interleaving) : Prop where
  own : ∀ x ∈ r.states, x.1 = x.2.key
  keys : r.keys.Nodup
  inside : ∀ x ∈ r.nodes, r.Inside x.2
  labels : r.labels.Nodup
  linked : r.Linked

variable {r r' : Interleaving} {st source : State} {t : Transition} {n m : Nat} {new : Bool} {k : String}

@[simp] theorem length_keys : r.keys.length = r.states.length := List.length_map ..

@[simp] theorem length_labels : r.labels.length = r.size := List.length_map ..

theorem getElem?_labels : r.labels[n]? = (r.nodes[n]?).map r.labelOf := List.getElem?_map ..

theorem mem_keys_keyOf (h : n < r.states.length) : r.keyOf n ∈ r.keys := by
  rw [← length_keys] at h
  rw [keyOf, List.getElem?_eq_getElem h, Option.getD_some]
  exact List.getElem_mem h

theorem keyOf_append {r' : Interleaving} {l : List String} (h : r'.keys = r.keys ++ l)
    (hn : n < r.states.length) : r'.keyOf n = r.keyOf n := by
  rw [keyOf, keyOf, h, List.getElem?_append_left (length_keys ▸ hn)]

theorem Orderly.keyOf_inj (h : r.Orderly) (hn : n < r.states.length) (hm : m < r.states.length)
    (same : r.keyOf n = r.keyOf m) : n = m := by
  rw [← length_keys] at hn hm
  simp only [keyOf, List.getElem?_eq_getElem hn, List.getElem?_eq_getElem hm, Option.getD_some] at same
  exact (h.keys.getElem_inj_iff).1 same

theorem Orderly.target_mem (h : r.Orderly) {a : Label} (ha : a ∈ r.labels) : a.target ∈ r.keys := by
  obtain ⟨x, hx, rfl⟩ := List.mem_map.1 ha
  exact mem_keys_keyOf (h.inside x hx).2

/-- Transitions meet when the key where one ends is the key where the other starts. -/
theorem Orderly.meets_iff (h : r.Orderly) : r.Meets n m ↔
    ∃ a b, r.labels[n]? = some a ∧ r.labels[m]? = some b ∧ b.source = some a.target := by
  simp only [getElem?_labels, Meets, node?, Option.map_eq_some_iff]
  constructor
  · rintro ⟨-, -, ⟨x, hx, rfl⟩, ⟨y, hy, rfl⟩, source⟩
    exact ⟨_, _, ⟨x, hx, rfl⟩, ⟨y, hy, rfl⟩, by simp [labelOf, source]⟩
  · rintro ⟨-, -, ⟨x, hx, rfl⟩, ⟨y, hy, rfl⟩, source⟩
    refine ⟨_, _, ⟨x, hx, rfl⟩, ⟨y, hy, rfl⟩, ?_⟩
    obtain ⟨s, hs, same⟩ := Option.map_eq_some_iff.1 source
    rw [hs, h.keyOf_inj ((h.inside y (List.mem_of_getElem? hy)).1 s hs)
      (h.inside x (List.mem_of_getElem? hx)).2 same]

theorem Inside.labelOf_eq (orderly : r.Orderly) {x y : RecordNode} (hx : r.Inside x) (hy : r.Inside y)
    {j k : String} : r.labelOf (j, x) = r.labelOf (k, y) ↔
      j = k ∧ x.source = y.source ∧ x.target = y.target := by
  simp only [labelOf, Label.mk.injEq]
  constructor
  · rintro ⟨source, target, rfl⟩
    refine ⟨rfl, ?_, orderly.keyOf_inj hx.2 hy.2 target⟩
    cases hs : x.source with
    | none => simpa [hs, eq_comm] using source
    | some s =>
        obtain ⟨s', hs', same⟩ : ∃ s', y.source = some s' ∧ r.keyOf s' = r.keyOf s := by
          simpa [hs, eq_comm] using source
        rw [hs', orderly.keyOf_inj (hx.1 s hs) (hy.1 s' hs') same.symm]
  · rintro ⟨rfl, source, target⟩
    simp [source, target]

section States

theorem stateNumber?_isSome : (∃ n, r.stateNumber? k = some n) ↔ k ∈ r.keys := by
  rw [← Option.isSome_iff_exists, stateNumber?, List.findIdx?_isSome]
  simp [keys]

theorem stateNumber?_eq_some (h : r.stateNumber? k = some n) :
    n < r.states.length ∧ r.keyOf n = k := by
  obtain ⟨lt, key, -⟩ := List.findIdx?_eq_some_iff_getElem.1 h
  refine ⟨lt, ?_⟩
  simpa [keyOf, keys, lt] using key

/-- What recording a state does: a known key stays as it is, a new one is numbered next. -/
theorem addState_numbers (h : r.addState st = (m, new, r')) :
    (new = false ∧ r' = r ∧ st.key ∈ r.keys ∧ m < r.states.length ∧ r.keyOf m = st.key) ∨
      (new = true ∧ r' = { r with states := r.states ++ [(st.key, st)] } ∧ st.key ∉ r.keys ∧
        m = r.states.length) := by
  unfold addState at h
  simp only at h
  split at h
  · rename_i n hn
    obtain ⟨rfl, rfl, rfl⟩ := h
    exact .inl ⟨rfl, rfl, stateNumber?_isSome.1 ⟨_, hn⟩, stateNumber?_eq_some hn⟩
  · rename_i hn
    obtain ⟨rfl, rfl, rfl⟩ := h
    refine .inr ⟨rfl, rfl, fun known => ?_, rfl⟩
    obtain ⟨n, some⟩ := stateNumber?_isSome.2 known
    rw [hn] at some
    cases some

theorem Inside.mono {x : RecordNode} (h : r.Inside x) (le : r.states.length ≤ r'.states.length) :
    r'.Inside x :=
  ⟨fun s hs => (h.1 s hs).trans_le le, h.2.trans_le le⟩

/-- A record with one more state. -/
theorem Orderly.push (h : r.Orderly) (fresh : st.key ∉ r.keys) :
    ({ r with states := r.states ++ [(st.key, st)] } : Interleaving).Orderly ∧
      ({ r with states := r.states ++ [(st.key, st)] } : Interleaving).labels = r.labels := by
  let r' : Interleaving := { r with states := r.states ++ [(st.key, st)] }
  have keys : r'.keys = r.keys ++ [st.key] := by simp [r', Interleaving.keys]
  have labels : r'.labels = r.labels := by
    refine List.map_congr_left fun x hx => ?_
    obtain ⟨source, target⟩ := h.inside x hx
    simp only [labelOf, keyOf_append keys target, Label.mk.injEq, and_true]
    cases hs : x.2.source with
    | none => rfl
    | some s => simp [keyOf_append keys (source s hs)]
  refine ⟨⟨?_, ?_, ?_, labels ▸ h.labels, h.linked⟩, labels⟩
  · intro x hx
    rcases List.mem_append.1 hx with hx | hx
    · exact h.own x hx
    · rw [List.mem_singleton.1 hx]
  · rw [keys]
    exact List.nodup_append.2 ⟨h.keys, by simp, by
      rintro a ha b hb rfl
      exact fresh (List.mem_singleton.1 hb ▸ ha)⟩
  · intro x hx
    exact (h.inside x hx).mono (by simp)

end States

theorem Orderly.addNode (h : r.Orderly) {x : RecordNode} (inside : r.Inside x) :
    (r.addNode x).Orderly ∧ (r.addNode x).states = r.states ∧ ∀ a, a ∈ (r.addNode x).labels ↔
      a ∈ r.labels ∨ a = r.labelOf ((x.info.map Info.key).getD "", x) := by
  have linked := h.linked.addNode x
  revert linked
  simp only [Interleaving.addNode]
  split
  · rename_i present
    intro _
    refine ⟨h, rfl, fun a => ⟨.inl, ?_⟩⟩
    rintro (old | rfl)
    · exact old
    · obtain ⟨y, hy, test⟩ := List.any_eq_true.1 present
      simp only [Bool.and_eq_true, decide_eq_true_eq] at test
      refine List.mem_map.2 ⟨y, hy, ?_⟩
      exact ((h.inside y hy).labelOf_eq h inside).2 ⟨test.1.1, test.1.2, test.2⟩
  · rename_i absent
    intro linked
    have fresh : r.labelOf ((x.info.map Info.key).getD "", x) ∉ r.labels := by
      intro known
      obtain ⟨y, hy, same⟩ := List.mem_map.1 known
      obtain ⟨key, source, target⟩ := ((h.inside y hy).labelOf_eq h inside).1 same
      refine absent (List.any_eq_true.2 ⟨y, hy, ?_⟩)
      simp [key, source, target]
    have labels : r.labels ++ [r.labelOf ((x.info.map Info.key).getD "", x)] =
        (r.nodes ++ [((x.info.map Info.key).getD "", x)]).map r.labelOf := by
      rw [List.map_append, List.map_singleton, Interleaving.labels]
    refine ⟨⟨h.own, h.keys, ?_, ?_, linked⟩, rfl, fun a => ?_⟩
    · intro y hy
      rcases List.mem_append.1 hy with hy | hy
      · exact h.inside y hy
      · rw [List.mem_singleton.1 hy]
        exact inside
    · change ((r.nodes ++ [((x.info.map Info.key).getD "", x)]).map r.labelOf).Nodup
      rw [← labels]
      exact List.nodup_append.2 ⟨h.labels, by simp, by
        rintro a ha b hb rfl
        exact fresh (List.mem_singleton.1 hb ▸ ha)⟩
    · change a ∈ (r.nodes ++ [((x.info.map Info.key).getD "", x)]).map r.labelOf ↔ _
      rw [← labels, List.mem_append, List.mem_singleton]

theorem orderly_start (st : State) : (start st).Orderly where
  own := by simp [start]
  keys := by simp [start, Interleaving.keys]
  inside := by simp [start, Inside]
  labels := by simp [start, Interleaving.labels]
  linked := linked_start st

theorem labels_start (st : State) : (start st).labels = [.entry st] := rfl

/-- Whether a state is new when it is recorded. -/
structure Recording (r : Interleaving) (st : State) (new : Bool) (r' : Interleaving) : Prop where
  old : new = false → r'.states = r.states ∧ st.key ∈ r.keys
  fresh : new = true → r'.states = r.states ++ [(st.key, st)] ∧ st.key ∉ r.keys

/-- What adding a transition does to the states and the labels of a record. -/
theorem Orderly.add (h : r.Orderly) (hadd : r.add source t = .ok (m, new, r')) :
    r'.Orderly ∧ Recording r t.state new r' ∧
      ∀ a, a ∈ r'.labels ↔ a ∈ r.labels ∨ a = .step source t := by
  unfold Interleaving.add at hadd
  split at hadd
  · cases hadd
  · rename_i n hn
    obtain ⟨lt, key⟩ := stateNumber?_eq_some hn
    simp only [Except.ok.injEq, Prod.mk.injEq] at hadd
    obtain ⟨hm, hnew, rfl⟩ := hadd
    obtain ⟨⟨m', new', r'⟩, hst⟩ : ∃ x, r.addState t.state = x := ⟨_, rfl⟩
    simp only [hst] at hm hnew ⊢
    subst hm hnew
    rcases addState_numbers hst with ⟨rfl, rfl, known, ltm, keym⟩ | ⟨rfl, rfl, fresh, rfl⟩
    · obtain ⟨orderly, states, labels⟩ := h.addNode (x := ⟨some n, m', t.info, t.proc⟩)
        ⟨fun s hs => Option.some.inj hs ▸ lt, ltm⟩
      refine ⟨orderly, ⟨fun _ => ⟨states, known⟩, fun h => absurd h (by decide)⟩, fun a => ?_⟩
      simp [labels, labelOf, Label.step, key, keym]
    · obtain ⟨pushed, same⟩ := h.push fresh
      have keys : Interleaving.keys { r with states := r.states ++ [(t.state.key, t.state)] } =
          r.keys ++ [t.state.key] := by simp [Interleaving.keys]
      obtain ⟨orderly, states, labels⟩ := pushed.addNode (x := ⟨some n, r.states.length, t.info, t.proc⟩)
        ⟨fun s hs => Option.some.inj hs ▸ by simp; omega, by simp⟩
      refine ⟨orderly, ⟨fun h => absurd h (by decide), fun _ => ⟨states, fresh⟩⟩, fun a => ?_⟩
      have source := keyOf_append keys lt
      have target : Interleaving.keyOf { r with states := r.states ++ [(t.state.key, t.state)] }
          r.states.length = t.state.key := by
        rw [keyOf, keys, ← length_keys, List.getElem?_concat_length, Option.getD_some]
      simp [labels, labelOf, Label.step, same, source, target, key]

/-- Adding a transition from a recorded state succeeds. -/
theorem exists_add (h : source.key ∈ r.keys) (t : Transition) :
    ∃ m new r', r.add source t = .ok (m, new, r') := by
  obtain ⟨n, hn⟩ := stateNumber?_isSome.2 h
  simp [Interleaving.add, hn]

/-- Adds a transition; one from a state that is not recorded is refused. -/
def attempt (r : Interleaving) (step : State × Transition) : Interleaving :=
  match r.add step.1 step.2 with
  | .ok (_, _, r') => r'
  | .error _ => r

/-- The record that begins with a state and to which transitions are added one after the other, each from the
state that it comes with. -/
def recording (first : State) (steps : List (State × Transition)) : Interleaving :=
  steps.foldl attempt (start first)

/-- States are numbered by their keys and nodes by their marks; the links are those between nodes that
meet, the same from both sides; and every node can be reached from the first. -/
structure Exact (r : Interleaving) : Prop where
  numbers : ∀ k n, r.stateNumber? k = some n ↔ ∃ st, r.state? n = some st ∧ st.key = k
  marks : ∀ n m x y, r.node? n = some x → r.node? m = some y → x.mark = y.mark → n = m
  entry : r.node? 0 = some ⟨none, 0, none, none⟩
  ends : ∀ n x, r.node? n = some x →
    (∀ s, x.source = some s → s < r.states.length) ∧ x.target < r.states.length
  succs : ∀ a b, b ∈ r.succs a ↔
    b ≠ 0 ∧ ∃ x y, r.node? a = some x ∧ r.node? b = some y ∧ y.source = some x.target
  preds : ∀ a b, a ∈ r.preds b ↔ b ∈ r.succs a
  reached : ∀ n < r.size, Relation.ReflTransGen (fun a b => b ∈ r.succs a) 0 n

/-- Every node stands under the key of what was learned, and the first one is the way into the initial
state. -/
structure Marked (r : Interleaving) : Prop where
  own : ∀ x ∈ r.nodes, x.1 = (x.2.info.map Info.key).getD ""
  entry : r.node? 0 = some ⟨none, 0, none, none⟩

theorem marked_start (st : State) : (start st).Marked :=
  ⟨by simp [start], rfl⟩

theorem Marked.addNode (h : r.Marked) (x : RecordNode) : (r.addNode x).Marked := by
  simp only [Interleaving.addNode]
  split
  · exact h
  · refine ⟨fun y hy => ?_, node?_mono ⟨_, rfl⟩ h.entry⟩
    rcases List.mem_append.1 hy with hy | hy
    · exact h.own y hy
    · rw [List.mem_singleton.1 hy]

theorem Marked.add (h : r.Marked) (hadd : r.add source t = .ok (m, new, r')) : r'.Marked := by
  unfold Interleaving.add at hadd
  split at hadd
  · cases hadd
  · simp only [Except.ok.injEq, Prod.mk.injEq] at hadd
    obtain ⟨-, -, rfl⟩ := hadd
    obtain ⟨nodes, -⟩ := addState_cases (r := r) t.state
    refine Marked.addNode ⟨?_, ?_⟩ _
    · rw [nodes]
      exact h.own
    · rw [node?, nodes]
      exact h.entry

theorem Orderly.stateNumber?_iff (h : r.Orderly) :
    r.stateNumber? k = some n ↔ ∃ st, r.state? n = some st ∧ st.key = k := by
  have held : ∀ {n st}, r.state? n = some st → n < r.states.length ∧ r.keyOf n = st.key := by
    intro n st hst
    obtain ⟨x, hx, rfl⟩ := Option.map_eq_some_iff.1 hst
    refine ⟨(List.getElem?_eq_some_iff.1 hx).1, ?_⟩
    rw [keyOf, Interleaving.keys, List.getElem?_map, hx, Option.map_some, Option.getD_some,
      h.own x (List.mem_of_getElem? hx)]
  constructor
  · intro hn
    obtain ⟨lt, hkey⟩ := stateNumber?_eq_some hn
    have hst : r.state? n = some r.states[n].2 := by rw [state?, List.getElem?_eq_getElem lt, Option.map_some]
    exact ⟨_, hst, (held hst).2 ▸ hkey⟩
  · rintro ⟨st, hst, rfl⟩
    obtain ⟨lt, hkey⟩ := held hst
    obtain ⟨m, hm⟩ := stateNumber?_isSome.2 (hkey ▸ mem_keys_keyOf lt)
    obtain ⟨ltm, hkeym⟩ := stateNumber?_eq_some hm
    rw [hm, h.keyOf_inj ltm lt (hkeym.trans hkey.symm)]

/-- Nodes with the same mark have the same label. -/
theorem Orderly.mark_inj (h : r.Orderly) (marked : r.Marked) {x y : RecordNode} (hx : r.node? n = some x)
    (hy : r.node? m = some y) (same : x.mark = y.mark) : n = m := by
  obtain ⟨z, hz, rfl⟩ := Option.map_eq_some_iff.1 hx
  obtain ⟨w, hw, rfl⟩ := Option.map_eq_some_iff.1 hy
  obtain ⟨source, target, key⟩ : z.2.source = w.2.source ∧ z.2.target = w.2.target ∧
      (z.2.info.map Info.key).getD "" = (w.2.info.map Info.key).getD "" := by
    simpa [RecordNode.mark] using same
  have lt : n < r.labels.length := by simpa [size] using (List.getElem?_eq_some_iff.1 hz).1
  refine (List.getElem?_inj lt h.labels).1 ?_
  rw [getElem?_labels, getElem?_labels, hz, hw, Option.map_some, Option.map_some, labelOf, labelOf, source,
    target, marked.own z (List.mem_of_getElem? hz), marked.own w (List.mem_of_getElem? hw), key]

theorem Orderly.exact (h : r.Orderly) (connected : r.Connected) (marked : r.Marked) : r.Exact where
  numbers _ _ := h.stateNumber?_iff
  marks _ _ _ _ := h.mark_inj marked
  entry := marked.entry
  ends n x hx := by
    obtain ⟨y, hy, rfl⟩ := Option.map_eq_some_iff.1 hx
    exact h.inside y (List.mem_of_getElem? hy)
  succs a b := by
    refine h.linked.follows_iff.trans ⟨fun meets => ⟨?_, meets⟩, And.right⟩
    rintro rfl
    obtain ⟨x, y, -, hy, source⟩ := meets
    obtain rfl : ⟨none, 0, none, none⟩ = y := Option.some.inj (marked.entry.symm.trans hy)
    cases source
  preds _ _ := h.linked.mem_preds.trans h.linked.follows_iff.symm
  reached := connected.reached

/-- However transitions are added to a record, in whatever order and however often, it stays exact. -/
theorem exact_recording (first : State) (steps : List (State × Transition)) :
    (recording first steps).Exact := by
  have kept : ∀ (steps : List (State × Transition)) (r : Interleaving), r.Orderly → r.Connected → r.Marked →
      (steps.foldl attempt r).Exact := by
    intro steps
    induction steps with
    | nil => exact fun r orderly connected marked => orderly.exact connected marked
    | cons step steps ih =>
        intro r orderly connected marked
        rw [List.foldl_cons, attempt]
        split
        · rename_i hadd
          exact ih _ (orderly.add hadd).1 (connected.add orderly.linked hadd) (marked.add hadd)
        · exact ih r orderly connected marked
  exact kept steps _ (orderly_start first) (connected_start first) (marked_start first)

example : let first : State := ⟨.start, [], none, 0⟩
    let next : State := ⟨{ GlobalState.start with stopped := true }, [], none, 0⟩
    let back : Transition := .start first .none none none
    let on : Transition := .start next .none none none
    let r := recording first [(first, on), (next, back), (first, on), (next, on), (first, back)]
    (List.range r.size).map r.succs = [[1, 4], [2, 3], [1, 4], [2, 3], [1, 4]] ∧
      (List.range r.size).map r.preds = [[], [0, 2, 4], [1, 3], [1, 3], [0, 2, 4]] := by
  decide +kernel

end Interleaving

end DeltaSlice
