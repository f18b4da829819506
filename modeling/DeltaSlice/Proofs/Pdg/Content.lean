import DeltaSlice.Pdg.Edit
import DeltaSlice.Proofs.Pdg.Compose
import DeltaSlice.Proofs.Pdg.Key

/-!
Graphs that differ in the numbers of their nodes only. What a graph says by names, which variables have an entry
among its definitions, and the name of its entry make up its content; two graphs with the same content have the
same nodes, edges and definitions, and so the same key.
-/

namespace DeltaSlice

namespace Pdg

/-- The names of the definitions of a variable, and whether one from before the transition reaches. A variable
without an entry has none. -/
def origins? (g : Pdg) (v : Variable) : Option (Set NodeId × Bool) :=
  (g.reaching.get? v).map fun d => ({a | ∃ n ∈ d.nodes, g.idOf? n = some a}, d.outer)

/-- The graphs have the same nodes, edges, entry and reaching definitions, whatever the numbers of the nodes. -/
structure SameAs (g h : Pdg) : Prop where
  ids : (g.nodes.map (·.id)).Perm (h.nodes.map (·.id))
  edges : g.edges.Perm h.edges
  entry : g.entryId? = h.entryId?
  origins : ∀ v, g.origins? v = h.origins? v

/-- What a graph says, without the numbers of its nodes. -/
structure Content where
  facts : Set Fact
  /-- The variables with an entry among the definitions. -/
  listed : Set Variable
  entry : Option NodeId

def content (g : Pdg) : Content := ⟨g.facts, {v | g.Lists v}, g.entryId?⟩

section

variable {g h : Pdg} {v : Variable} {a : NodeId}

theorem mem_ids : a ∈ g.nodes.map (·.id) ↔ .node a ∈ g.facts := by
  simp only [List.mem_map, mem_facts, Says, idOf?_eq_some]
  constructor
  · rintro ⟨x, hx, rfl⟩
    obtain ⟨n, hn⟩ := List.mem_iff_getElem?.1 hx
    exact ⟨n, x, hn, rfl⟩
  · rintro ⟨n, x, hn, rfl⟩
    exact ⟨x, List.mem_of_getElem? hn, rfl⟩

theorem origins?_isSome : (g.origins? v).isSome = true ↔ g.Lists v := by
  simp [origins?, Lists]

/-- What is listed is told by the facts. -/
theorem origins?_of_lists (listed : g.Lists v) :
    ∃ b, g.origins? v = some ({a | .reaches v (some a) ∈ g.facts}, b) ∧ (b = true ↔ .reaches v none ∈ g.facts) := by
  obtain ⟨d, hd⟩ := Option.isSome_iff_exists.1 listed
  refine ⟨d.outer, ?_, by simp [Says, hd]⟩
  simp [origins?, Says, hd]

theorem origins?_eq (facts : g.facts = h.facts) (lists : g.Lists v ↔ h.Lists v) : g.origins? v = h.origins? v := by
  by_cases listed : g.Lists v
  · obtain ⟨b, hb, outer⟩ := origins?_of_lists listed
    obtain ⟨c, hc, outer'⟩ := origins?_of_lists (lists.1 listed)
    rw [facts, ← outer'] at outer
    rw [hb, hc, facts, Bool.eq_iff_iff.2 outer]
  · have absent := listed
    rw [lists] at absent
    rw [← origins?_isSome, Option.not_isSome_iff_eq_none] at listed absent
    rw [listed, absent]

theorem edges_perm : g.edges.Perm g.linkList := sortByText_perm PdgEdge.text g.linkList

theorem Consistent.linkList_nodup (hg : g.Consistent) : g.linkList.Nodup :=
  Pdg.linkList_nodup (g := g.bare) hg.bare

theorem sameAs_of_content (hg : g.Consistent) (hh : h.Consistent) (same : g.content = h.content) : g.SameAs h := by
  obtain ⟨facts, lists, entry⟩ := Content.mk.inj same
  refine ⟨?_, edges_perm.trans (.trans ?_ edges_perm.symm), entry, fun v => ?_⟩
  · refine (List.perm_ext_iff_of_nodup hg.ids hh.ids).2 fun a => ?_
    rw [mem_ids, mem_ids, facts]
  · refine (List.perm_ext_iff_of_nodup hg.linkList_nodup hh.linkList_nodup).2 fun e => ?_
    rw [mem_linkList, mem_linkList, facts]
  · exact origins?_eq facts (Set.ext_iff.1 lists v)

end

section Checks

variable {g : Pdg}

instance (g : Pdg) (k : EdgeKind) (m n : Nat) : Decidable (g.Out k m n) :=
  match h : g.nodes[m]? with
  | none => isFalse (by simp [Out, h])
  | some x => decidable_of_iff (n ∈ x.outgoing.get k) (by simp [Out, h])

instance (g : Pdg) (k : EdgeKind) (m n : Nat) : Decidable (g.In k m n) :=
  match h : g.nodes[n]? with
  | none => isFalse (by simp [In, h])
  | some y => decidable_of_iff (m ∈ y.incoming.get k) (by simp [In, h])

theorem mem_kinds (k : EdgeKind) : k ∈ EdgeKind.all := by
  cases k <;> decide

/-- Both ends know the edges if each of the nodes finds itself at the other ends of its edges. -/
theorem mirrored_iff : (∀ k m n, g.Out k m n ↔ g.In k m n) ↔ ∀ x ∈ g.nodes.zipIdx, ∀ k ∈ EdgeKind.all,
    (∀ n ∈ x.1.outgoing.get k, g.In k x.2 n) ∧ ∀ m ∈ x.1.incoming.get k, g.Out k m x.2 := by
  constructor
  · intro mirrored x hx k _
    have here := List.mem_zipIdx_iff_getElem?.1 hx
    exact ⟨fun n hn => (mirrored k x.2 n).1 ⟨x.1, here, hn⟩, fun m hm => (mirrored k m x.2).2 ⟨x.1, here, hm⟩⟩
  · intro checked k m n
    constructor
    · rintro ⟨x, hx, hn⟩
      exact (checked (x, m) (List.mem_zipIdx_iff_getElem?.2 hx) k (mem_kinds k)).1 n hn
    · rintro ⟨y, hy, hm⟩
      exact (checked (y, n) (List.mem_zipIdx_iff_getElem?.2 hy) k (mem_kinds k)).2 m hm

theorem consistent_iff : g.Consistent ↔ (g.nodes.map (·.id)).Nodup ∧
    (∀ x ∈ g.nodes.zipIdx, ∀ k ∈ EdgeKind.all,
      (∀ n ∈ x.1.outgoing.get k, g.In k x.2 n) ∧ ∀ m ∈ x.1.incoming.get k, g.Out k m x.2) ∧
    (∀ x ∈ g.nodes, ∀ k ∈ EdgeKind.all, (x.outgoing.get k).Pairwise (· < ·) ∧ (x.incoming.get k).Pairwise (· < ·)) ∧
    (∀ n ∈ g.entry, n < g.nodes.length) ∧ (g.reaching.entries.map (·.1)).Nodup ∧
    ∀ r ∈ g.reaching.entries, r.2.nodes.Pairwise (· < ·) ∧ ∀ n ∈ r.2.nodes, n < g.nodes.length := by
  constructor
  · intro h
    exact ⟨h.ids, mirrored_iff.1 h.mirrored, fun x hx k _ => h.ascending x hx k, h.entry, h.keys,
      fun r hr => h.definitions r.1 r.2 hr⟩
  · rintro ⟨ids, mirrored, ascending, entry, keys, definitions⟩
    exact ⟨ids, mirrored_iff.2 mirrored, fun x hx k => ascending x hx k (mem_kinds k), entry, keys,
      fun v d hd => definitions (v, d) hd⟩

/-- Whether a graph is well formed can be computed. -/
instance (g : Pdg) : Decidable g.Consistent := decidable_of_iff _ consistent_iff.symm

end Checks

section Keys

variable {g h : Pdg} {v : Variable} {d e : Definitions}

/-- The names of some nodes. -/
def namesOf (g : Pdg) (ns : NodeSet) : List NodeId := ns.filterMap g.idOf?

theorem mem_namesOf {ns : NodeSet} {a : NodeId} : a ∈ g.namesOf ns ↔ ∃ n ∈ ns, g.idOf? n = some a := by
  simp [namesOf]

theorem Consistent.namesOf_nodup (hg : g.Consistent) {ns : NodeSet} (asc : ns.Pairwise (· < ·)) :
    (g.namesOf ns).Nodup := by
  refine List.Nodup.filterMap ?_ (asc.imp Nat.ne_of_lt)
  intro m n a hm hn
  exact hg.bare.idOf?_inj (g := g.bare) hm hn

theorem texts_eq_namesOf {ns : NodeSet} (inside : ∀ n ∈ ns, n < g.nodes.length) :
    (ns.map fun n => ((g.idOf? n).map NodeId.text).getD "") = (g.namesOf ns).map NodeId.text := by
  induction ns with
  | nil => rfl
  | cons n ns ih =>
      obtain ⟨a, ha⟩ := idOf?_isSome.2 (inside n List.mem_cons_self)
      have rest := ih fun m hm => inside m (List.mem_cons_of_mem n hm)
      have names : g.namesOf (n :: ns) = a :: g.namesOf ns := List.filterMap_cons_some ha
      rw [List.map_cons, rest, names, List.map_cons, ha]
      rfl

namespace SameAs

theorem definitionTexts_eq (same : g.SameAs h) (hg : g.Consistent) (hh : h.Consistent)
    (hd : g.reaching.get? v = some d) (he : h.reaching.get? v = some e) :
    g.definitionTexts d = h.definitionTexts e := by
  obtain ⟨asc, inside⟩ := hg.definitions v d (Table.mem_of_get? hd)
  obtain ⟨asc', inside'⟩ := hh.definitions v e (Table.mem_of_get? he)
  have origins := same.origins v
  simp only [origins?, hd, he, Option.map_some, Option.some.injEq, Prod.mk.injEq] at origins
  obtain ⟨names, outer⟩ := origins
  have perm : (g.namesOf d.nodes).Perm (h.namesOf e.nodes) := by
    refine (List.perm_ext_iff_of_nodup (hg.namesOf_nodup asc) (hh.namesOf_nodup asc')).2 fun a => ?_
    rw [mem_namesOf, mem_namesOf]
    exact Set.ext_iff.1 names a
  unfold definitionTexts
  rw [texts_eq_namesOf inside, texts_eq_namesOf inside', outer]
  exact sortByText_id_eq ((perm.map _).append_left _)

theorem keys_perm (same : g.SameAs h) (hg : g.Consistent) (hh : h.Consistent) :
    (g.reaching.entries.map (·.1)).Perm (h.reaching.entries.map (·.1)) := by
  refine (List.perm_ext_iff_of_nodup hg.keys hh.keys).2 fun v => ?_
  have listed : g.Lists v ↔ h.Lists v := by
    rw [← origins?_isSome, ← origins?_isSome, same.origins]
  have lists_iff : ∀ g : Pdg, g.Lists v ↔ v ∈ g.reaching.entries.map (·.1) := by
    intro g
    rw [Lists, Option.isSome_iff_ne_none, Ne, Table.get?_eq_none, Decidable.not_not]
  rw [← lists_iff, ← lists_iff, listed]

/-- The texts of the definitions of all variables. -/
theorem entryTexts_perm (same : g.SameAs h) (hg : g.Consistent) (hh : h.Consistent) :
    (g.reaching.entries.map g.entryText).Perm (h.reaching.entries.map h.entryText) := by
  let textAt : Pdg → Variable → String := fun g v => g.entryText (v, (g.reaching.get? v).getD ⟨[], false⟩)
  have by_variable : ∀ {g : Pdg}, g.Consistent →
      g.reaching.entries.map g.entryText = (g.reaching.entries.map (·.1)).map (textAt g) := by
    intro g hg
    rw [List.map_map]
    refine List.map_congr_left fun r hr => ?_
    simp only [Function.comp_apply, textAt, Table.get?_of_mem hg.keys hr, Option.getD_some]
  have agree : ∀ v ∈ g.reaching.entries.map (·.1), textAt g v = textAt h v := by
    intro v hv
    have hv' := (same.keys_perm hg hh).mem_iff.1 hv
    obtain ⟨⟨w, d⟩, hd, rfl⟩ := List.mem_map.1 hv
    obtain ⟨⟨w', e⟩, he, rfl⟩ := List.mem_map.1 hv'
    have hd := Table.get?_of_mem hg.keys hd
    have he := Table.get?_of_mem hh.keys he
    simp only [textAt, entryText, hd, he, Option.getD_some, same.definitionTexts_eq hg hh hd he]
  rw [by_variable hg, by_variable hh, List.map_congr_left agree]
  exact (same.keys_perm hg hh).map _

/-- The key does not depend on the numbers of the nodes. -/
theorem key_eq (same : g.SameAs h) (hg : g.Consistent) (hh : h.Consistent) : g.key = h.key := by
  have nodes : g.nodeIds.map NodeId.text = h.nodeIds.map NodeId.text :=
    map_sortByText_eq NodeId.text same.ids
  have edges : g.edges.map PdgEdge.text = h.edges.map PdgEdge.text :=
    map_sortByText_eq PdgEdge.text (edges_perm.symm.trans (same.edges.trans edges_perm))
  have entries : sortByText id (g.reaching.entries.map g.entryText) =
      sortByText id (h.reaching.entries.map h.entryText) := sortByText_id_eq (same.entryTexts_perm hg hh)
  have whole : ∀ g : Pdg, g.key = String.join ((g.nodeIds.map NodeId.text).map (· ++ ";")) ++ "\n" ++
      String.join ((g.edges.map PdgEdge.text).map (· ++ ";")) ++ "\n" ++
      ";".intercalate (sortByText id (g.reaching.entries.map g.entryText)) := by
    intro g
    rw [List.map_map, List.map_map]
    rfl
  rw [whole, whole, nodes, edges, entries]

end SameAs

theorem Consistent.key?_eq (hg : g.Consistent) : g.key? = .ok g.key := by
  have defined : g.hasKey = true := by
    simp only [hasKey, List.all_eq_true, decide_eq_true_eq]
    intro r hr
    exact (hg.definitions r.1 r.2 hr).2
  rw [key?, if_pos defined]

end Keys

end Pdg

end DeltaSlice
