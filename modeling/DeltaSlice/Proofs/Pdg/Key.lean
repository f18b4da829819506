import DeltaSlice.Proofs.Pdg.Reaching
import DeltaSlice.Proofs.Text

/-!
A graph that says more has a longer key. So when what was learned is merged into a graph and the key
stays the same, nothing was new; keys need not be unambiguous for that.
-/

namespace DeltaSlice

namespace Pdg

deriving instance DecidableEq for Fact

def linkList (g : Pdg) : List PdgEdge :=
  g.nodes.flatMap fun x => EdgeKind.all.flatMap fun k =>
    (x.outgoing.get k).filterMap fun n => (g.idOf? n).map fun target => ⟨k, x.id, target⟩

def reachList (g : Pdg) (r : Variable × Definitions) : List Fact :=
  (if r.2.outer then [.reaches r.1 none] else []) ++
    r.2.nodes.map fun n => .reaches r.1 (g.idOf? n)

/-- The facts that the key of a graph mentions. -/
def listed (g : Pdg) : List Fact :=
  (g.nodes.map fun x => .node x.id) ++
    ((g.linkList.map fun e => .edge e.kind e.source e.target) ++ g.reaching.entries.flatMap g.reachList)

def Fact.weight : Fact → Nat
  | .node a => a.text.length + 1
  | .edge k a b => (PdgEdge.text ⟨k, a, b⟩).length + 1
  | .reaches _ none => "external".length + 1
  | .reaches _ (some a) => a.text.length + 1

theorem text_length_pos (a : NodeId) : 0 < a.text.length := by
  have square : 0 < "])".length := by decide
  have round : 0 < ")".length := by decide
  cases a <;> simp only [NodeId.text, String.length_append] <;> omega

theorem weight_ge (f : Fact) : 2 ≤ f.weight := by
  cases f with
  | node a =>
      have := text_length_pos a
      simp only [Fact.weight]
      omega
  | edge k a b =>
      have := text_length_pos a
      simp only [Fact.weight, PdgEdge.text, String.length_append]
      omega
  | reaches v d =>
      cases d with
      | none => exact (by decide : 2 ≤ "external".length + 1)
      | some a =>
          have := text_length_pos a
          simp only [Fact.weight]
          omega

section

variable {g h : Pdg}

theorem mem_linkList {e : PdgEdge} :
    e ∈ g.linkList ↔ .edge e.kind e.source e.target ∈ g.facts := by
  have all : ∀ k, k ∈ EdgeKind.all := by
    intro k
    cases k <;> simp [EdgeKind.all]
  simp only [linkList, List.mem_flatMap, List.mem_filterMap, Option.map_eq_some_iff]
  constructor
  · rintro ⟨x, hx, k, -, n, hn, b, hb, rfl⟩
    obtain ⟨m, hm⟩ := List.mem_iff_getElem?.1 hx
    exact ⟨m, n, idOf?_eq_some.2 ⟨x, hm, rfl⟩, hb, x, hm, hn⟩
  · rintro ⟨m, n, ha, hb, x, hm, hn⟩
    obtain ⟨x', hm', hid⟩ := idOf?_eq_some.1 ha
    obtain rfl : x = x' := by
      rw [hm] at hm'
      injection hm'
    refine ⟨x, List.mem_of_getElem? hm, e.kind, all _, n, hn, e.target, hb, ?_⟩
    rw [hid]

theorem mem_reachList (hg : g.Valid) {f : Fact} :
    f ∈ g.reaching.entries.flatMap g.reachList ↔
      ∃ v d, f = .reaches v d ∧ f ∈ g.facts ∧ v ∈ g.reaching.entries.map (·.1) := by
  simp only [List.mem_flatMap, reachList, List.mem_append, List.mem_map]
  constructor
  · rintro ⟨⟨v, d⟩, hmem, hf⟩
    have hget := Table.get?_of_mem hg.keys hmem
    rcases hf with hf | ⟨n, hn, rfl⟩
    · split at hf
      · rename_i houter
        obtain rfl := List.mem_singleton.1 hf
        refine ⟨v, none, rfl, ?_, (v, d), hmem, rfl⟩
        simpa [Says, hget] using houter
      · cases hf
    · obtain ⟨a, ha⟩ := idOf?_isSome.2 ((hg.definitions v d hmem).2.2 n hn)
      refine ⟨v, _, rfl, ?_, (v, d), hmem, rfl⟩
      simp only [ha]
      exact ⟨d, hget, n, hn, ha⟩
  · rintro ⟨v, d, rfl, hf, ⟨w, e⟩, hmem, rfl⟩
    have hget := Table.get?_of_mem hg.keys hmem
    refine ⟨(w, e), hmem, ?_⟩
    cases d with
    | none =>
        refine .inl ?_
        rw [if_pos (hf e hget)]
        simp
    | some a =>
        obtain ⟨e', he', n, hn, ha⟩ := hf
        obtain rfl : e = e' := by
          rw [hget] at he'
          injection he'
        exact .inr ⟨n, hn, by rw [ha]⟩

theorem mem_listed (hg : g.Valid) {f : Fact} :
    f ∈ g.listed ↔ f ∈ g.facts ∧ ∀ v, f.Tells v → v ∈ g.reaching.entries.map (·.1) := by
  simp only [listed, List.mem_append, mem_reachList hg]
  cases f with
  | node a =>
      simp only [List.mem_map, Fact.node.injEq, reduceCtorEq, and_false, exists_false, false_and,
        or_false, mem_facts, Says, idOf?_eq_some, tells_node, false_implies, implies_true, and_true]
      constructor
      · rintro ⟨x, hx, rfl⟩
        obtain ⟨n, hn⟩ := List.mem_iff_getElem?.1 hx
        exact ⟨n, x, hn, rfl⟩
      · rintro ⟨n, x, hn, rfl⟩
        exact ⟨x, List.mem_of_getElem? hn, rfl⟩
  | edge k a b =>
      simp only [List.mem_map, reduceCtorEq, and_false, exists_false, false_and, or_false, false_or,
        Fact.edge.injEq, tells_edge, false_implies, implies_true, and_true]
      constructor
      · rintro ⟨e, he, rfl, rfl, rfl⟩
        exact mem_linkList.1 he
      · intro hf
        exact ⟨⟨k, a, b⟩, mem_linkList.2 hf, rfl, rfl, rfl⟩
  | reaches v d => simp

theorem linkList_nodup (hg : g.Valid) : g.linkList.Nodup := by
  refine List.nodup_flatMap.2 ⟨?_, ?_⟩
  · intro x hx
    refine List.nodup_flatMap.2 ⟨?_, ?_⟩
    · intro k _
      refine List.Nodup.filterMap ?_ ((hg.ascending x hx k).1.imp Nat.ne_of_lt)
      intro m n e hm hn
      obtain ⟨a, ha, rfl⟩ := Option.map_eq_some_iff.1 hm
      obtain ⟨b, hb, heq⟩ := Option.map_eq_some_iff.1 hn
      obtain ⟨-, -, rfl⟩ := PdgEdge.mk.inj heq
      exact hg.idOf?_inj ha hb
    · refine List.Pairwise.imp ?_ (by decide : EdgeKind.all.Pairwise (· ≠ ·))
      intro k k' hk e he he'
      obtain ⟨m, -, hm⟩ := List.mem_filterMap.1 he
      obtain ⟨n, -, hn⟩ := List.mem_filterMap.1 he'
      obtain ⟨a, -, rfl⟩ := Option.map_eq_some_iff.1 hm
      obtain ⟨b, -, heq⟩ := Option.map_eq_some_iff.1 hn
      exact hk (PdgEdge.mk.inj heq).1.symm
  · refine List.Pairwise.imp ?_ (List.pairwise_map.1 hg.ids)
    intro x y hxy e he he'
    obtain ⟨k, -, hk⟩ := List.mem_flatMap.1 he
    obtain ⟨k', -, hk'⟩ := List.mem_flatMap.1 he'
    obtain ⟨m, -, hm⟩ := List.mem_filterMap.1 hk
    obtain ⟨n, -, hn⟩ := List.mem_filterMap.1 hk'
    obtain ⟨a, -, rfl⟩ := Option.map_eq_some_iff.1 hm
    obtain ⟨b, -, heq⟩ := Option.map_eq_some_iff.1 hn
    exact hxy (PdgEdge.mk.inj heq).2.1.symm

theorem reachList_nodup (hg : g.Valid) : (g.reaching.entries.flatMap g.reachList).Nodup := by
  refine List.nodup_flatMap.2 ⟨?_, ?_⟩
  · rintro ⟨v, d⟩ hmem
    obtain ⟨-, asc, lt⟩ := hg.definitions v d hmem
    have named : ∀ n ∈ d.nodes, ∃ a, g.idOf? n = some a := fun n hn => idOf?_isSome.2 (lt n hn)
    refine List.nodup_append.2 ⟨?_, ?_, ?_⟩
    · split <;> simp
    · refine List.Nodup.map_on ?_ (asc.imp Nat.ne_of_lt)
      intro m hm n hn heq
      obtain ⟨a, ha⟩ := named m hm
      have := (Fact.reaches.inj heq).2
      exact hg.idOf?_inj ha (this ▸ ha)
    · intro f hf f' hf' heq
      split at hf
      · obtain rfl := List.mem_singleton.1 hf
        obtain ⟨n, hn, rfl⟩ := List.mem_map.1 hf'
        obtain ⟨a, ha⟩ := named n hn
        rw [ha] at heq
        cases heq
      · cases hf
  · refine List.Pairwise.imp ?_ (List.pairwise_map.1 hg.keys)
    intro r r' hne f hf hf'
    have about : ∀ {r : Variable × Definitions}, f ∈ g.reachList r → f.Tells r.1 := by
      intro r hf
      rcases List.mem_append.1 hf with hf | hf
      · split at hf
        · obtain rfl := List.mem_singleton.1 hf
          simp
        · cases hf
      · obtain ⟨n, -, rfl⟩ := List.mem_map.1 hf
        simp
    obtain ⟨d, rfl⟩ := about hf
    exact hne (tells_reaches.1 (about hf'))

theorem listed_nodup (hg : g.Valid) : g.listed.Nodup := by
  refine List.nodup_append.2 ⟨?_, List.nodup_append.2 ⟨?_, reachList_nodup hg, ?_⟩, ?_⟩
  · have := hg.ids.map (f := Fact.node) (fun a b hab => Fact.node.inj hab)
    rw [List.map_map] at this
    exact this
  · refine (linkList_nodup hg).map ?_
    rintro ⟨k, a, b⟩ ⟨k', a', b'⟩ heq
    simpa using heq
  · intro f hf f' hf' heq
    obtain ⟨e, -, rfl⟩ := List.mem_map.1 hf
    obtain ⟨v, d, rfl, -, -⟩ := (mem_reachList hg).1 hf'
    cases heq
  · intro f hf f' hf' heq
    obtain ⟨x, -, rfl⟩ := List.mem_map.1 hf
    rcases List.mem_append.1 hf' with hf' | hf'
    · obtain ⟨e, -, rfl⟩ := List.mem_map.1 hf'
      cases heq
    · obtain ⟨v, d, rfl, -, -⟩ := (mem_reachList hg).1 hf'
      cases heq

def entryText (g : Pdg) (r : Variable × Definitions) : String :=
  r.1.text ++ "<-" ++ ",".intercalate (g.definitionTexts r.2)

theorem entryText_length (hg : g.Valid) {r : Variable × Definitions}
    (hr : r ∈ g.reaching.entries) :
    (g.entryText r).length + 1 = r.1.text.length + 2 + ((g.reachList r).map Fact.weight).sum := by
  obtain ⟨v, d⟩ := r
  obtain ⟨ne, -, lt⟩ := hg.definitions v d hr
  have perm := sortByText_perm id ((if d.outer then ["external"] else []) ++
    d.nodes.map fun n => ((g.idOf? n).map NodeId.text).getD "")
  have nonempty : g.definitionTexts d ≠ [] := by
    intro hnil
    have hlen := perm.length_eq
    rw [definitionTexts] at hnil
    rw [hnil] at hlen
    simp only [List.length_nil, List.length_append, List.length_map] at hlen
    exact ne (List.length_eq_zero_iff.1 (by omega))
  have joined := length_intercalate "," nonempty
  have outer : ((if d.outer then ["external"] else []).map fun s => s.length + ",".length).sum =
      ((if d.outer then [Fact.reaches v none] else []).map Fact.weight).sum := by
    cases d.outer <;> rfl
  have inner : (d.nodes.map fun n => (((g.idOf? n).map NodeId.text).getD "").length + ",".length) =
      d.nodes.map fun n => (Fact.reaches v (g.idOf? n)).weight := by
    refine List.map_congr_left ?_
    intro n hn
    obtain ⟨a, ha⟩ := idOf?_isSome.2 (lt n hn)
    rw [ha]
    rfl
  rw [definitionTexts, (perm.map _).sum_eq, List.map_append, List.sum_append, outer, List.map_map,
    Function.comp_def, inner] at joined
  simp only [entryText, String.length_append, reachList, List.map_append, List.sum_append,
    List.map_map, Function.comp_def]
  have comma : ",".length = 1 := rfl
  have arrow : "<-".length = 2 := rfl
  rw [definitionTexts]
  omega

theorem key_length (hg : g.Valid) :
    g.key.length + (if g.reaching.entries = [] then 0 else 1) =
      2 + (g.listed.map Fact.weight).sum +
        (g.reaching.entries.map fun r => r.1.text.length + 2).sum := by
  have semi : ";".length = 1 := rfl
  have nodes : (String.join (g.nodeIds.map fun i => i.text ++ ";")).length =
      ((g.nodes.map fun x => Fact.node x.id).map Fact.weight).sum := by
    have perm := sortByText_perm NodeId.text (g.nodes.map (·.id))
    rw [length_join, List.map_map, nodeIds, (perm.map _).sum_eq, List.map_map, List.map_map]
    congr 1
    refine List.map_congr_left ?_
    intro x _
    simp [Fact.weight, semi, String.length_append]
  have edges : (String.join (g.edges.map fun e => e.text ++ ";")).length =
      ((g.linkList.map fun e => Fact.edge e.kind e.source e.target).map Fact.weight).sum := by
    have perm := sortByText_perm PdgEdge.text g.linkList
    have hedges : g.edges = sortByText PdgEdge.text g.linkList := rfl
    rw [length_join, List.map_map, hedges, (perm.map _).sum_eq, List.map_map]
    congr 1
    refine List.map_congr_left ?_
    intro e _
    simp [Fact.weight, semi, String.length_append]
  have entries : (";".intercalate (sortByText id (g.reaching.entries.map g.entryText))).length +
      (if g.reaching.entries = [] then 0 else 1) =
      ((g.reaching.entries.flatMap g.reachList).map Fact.weight).sum +
        (g.reaching.entries.map fun r => r.1.text.length + 2).sum := by
    have perm := sortByText_perm id (g.reaching.entries.map g.entryText)
    split
    · rename_i hnil
      simp [hnil, sortByText]
    · rename_i hne
      have joined := length_intercalate ";" (l := sortByText id (g.reaching.entries.map g.entryText))
        (by
          intro hnil
          have hlen := perm.length_eq
          rw [hnil] at hlen
          simp only [List.length_nil, List.length_map] at hlen
          exact hne (List.length_eq_zero_iff.1 hlen.symm))
      have parts : g.reaching.entries.map ((fun s => s.length + ";".length) ∘ g.entryText) =
          g.reaching.entries.map fun r =>
            ((g.reachList r).map Fact.weight).sum + (r.1.text.length + 2) := by
        refine List.map_congr_left ?_
        intro r hr
        have := entryText_length hg hr
        simp only [Function.comp_apply]
        omega
      rw [(perm.map _).sum_eq, List.map_map, parts, List.sum_map_add, semi] at joined
      rw [joined, sum_map_flatMap]
  have whole : g.key = String.join (g.nodeIds.map fun i => i.text ++ ";") ++ "\n" ++
      String.join (g.edges.map fun e => e.text ++ ";") ++ "\n" ++
      ";".intercalate (sortByText id (g.reaching.entries.map g.entryText)) := rfl
  have line : "\n".length = 1 := rfl
  rw [whole]
  simp only [String.length_append, listed, List.map_append, List.sum_append]
  omega

/-- Where something is new, the key has changed. -/
theorem facts_subset_of_key_eq (hg : g.Valid) (hh : h.Valid) (hsub : g.facts ⊆ h.facts)
    (hkey : h.key = g.key) : h.facts ⊆ g.facts := by
  have domain : g.reaching.entries.map (·.1) ⊆ h.reaching.entries.map (·.1) := by
    intro v hv
    obtain ⟨⟨w, d⟩, hmem, rfl⟩ := List.mem_map.1 hv
    obtain ⟨ne, -, lt⟩ := hg.definitions w d hmem
    obtain ⟨n, hn⟩ := List.exists_mem_of_ne_nil _ ne
    obtain ⟨a, ha⟩ := idOf?_isSome.2 (lt n hn)
    have : Fact.reaches w (some a) ∈ h.facts :=
      hsub ⟨d, Table.get?_of_mem hg.keys hmem, n, hn, ha⟩
    obtain ⟨d', hd', -⟩ := this
    exact List.mem_map.2 ⟨(w, d'), Table.mem_of_get? hd', rfl⟩
  have listed : g.listed ⊆ h.listed := by
    intro f hf
    obtain ⟨hf, hv⟩ := (mem_listed hg).1 hf
    exact (mem_listed hh).2 ⟨hsub hf, fun v ht => domain (hv v ht)⟩
  have lengths : (g.reaching.entries.map fun r => r.1.text.length + 2).sum ≤
      (h.reaching.entries.map fun r => r.1.text.length + 2).sum := by
    have := sum_le_of_subset (fun v : Variable => v.text.length + 2) hg.keys domain
    rw [List.map_map, List.map_map] at this
    exact this
  have total := key_length hg
  have total' := key_length hh
  rw [hkey] at total'
  have bound : (if h.reaching.entries = [] then 0 else 1) ≤ 1 := by split <;> omega
  have same : h.listed ⊆ g.listed := by
    intro f hf
    by_contra hn
    have more := sum_add_le_of_subset Fact.weight (listed_nodup hg) listed hf hn
    have := weight_ge f
    omega
  intro f hf
  by_cases hdom : ∀ v, f.Tells v → v ∈ h.reaching.entries.map (·.1)
  · exact ((mem_listed hg).1 (same ((mem_listed hh).2 ⟨hf, hdom⟩))).1
  · simp only [not_forall] at hdom
    obtain ⟨v, ⟨d, rfl⟩, hv⟩ := hdom
    -- A variable without an entry in `h` has none in `g` either.
    have absent := Table.get?_eq_none.2 fun hv' => hv (domain hv')
    cases d with
    | none => simp [Says, absent]
    | some a =>
        obtain ⟨d, hd, -⟩ := hf
        rw [Table.get?_eq_none.2 hv] at hd
        cases hd

end

end Pdg

end DeltaSlice
