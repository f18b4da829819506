import DeltaSlice.Observer.Basic
import DeltaSlice.Proofs.Pdg.Content
import DeltaSlice.Workspace.Graphs

/-!
The algebra of compositions. The content of a composition is the union of the contents of its parts, where an
empty graph adds nothing. Unions are commutative, associative and idempotent, and so are compositions, up to the
numbers of the nodes.
-/

namespace DeltaSlice

namespace Pdg

/-- What two graphs with the same entry say together. -/
def Content.join (c d : Content) : Content := ⟨c.facts ∪ d.facts, c.listed ∪ d.listed, c.entry⟩

/-- The content of a graph that is not empty. -/
def sketch (g : Pdg) : Option Content := if g.isNeutral then none else some g.content

/-- Two contents together, if their entries agree. -/
def blend : Option Content → Option Content → Option (Option Content)
  | none, y => some y
  | some c, none => some (some c)
  | some c, some d => if c.entry = d.entry then some (some (c.join d)) else none

/-- The contents have the same entry, unless one is empty. -/
def Agree (x y : Option Content) : Prop := ∀ c d, x = some c → y = some d → c.entry = d.entry

section Blending

variable (x y z : Option Content)

theorem blend_comm : blend x y = blend y x := by
  cases x with
  | none => cases y <;> rfl
  | some c =>
      cases y with
      | none => rfl
      | some d =>
          by_cases same : c.entry = d.entry
          · simp [blend, same, Content.join, Set.union_comm]
          · simp [blend, same, Ne.symm same]

theorem blend_assoc : ((blend x y).bind fun w => blend w z) = (blend y z).bind (blend x) := by
  cases x with
  | none =>
      change blend y z = (blend y z).bind some
      cases blend y z <;> rfl
  | some c =>
      cases y with
      | none => cases z <;> simp [blend]
      | some d =>
          cases z with
          | none => by_cases same : c.entry = d.entry <;> simp [blend, same]
          | some e =>
              by_cases same : c.entry = d.entry
              · by_cases same' : d.entry = e.entry
                · simp [blend, Content.join, same, same', Set.union_assoc]
                · simp [blend, Content.join, same, same']
              · by_cases same' : d.entry = e.entry
                · simp [blend, Content.join, same' ▸ same, same']
                · simp [blend, same, same']

theorem blend_self : blend x x = some x := by
  cases x with
  | none => rfl
  | some c => simp [blend, Content.join]

/-- Contents with the same entry can be blended. Their blend agrees with whatever they agree with. -/
theorem blend_succeeds {x y : Option Content} (agree : Agree x y) :
    ∃ z, blend x y = some z ∧ ∀ w, Agree x w → Agree y w → Agree z w := by
  cases x with
  | none => exact ⟨y, rfl, fun _ _ hy => hy⟩
  | some c =>
      cases y with
      | none => exact ⟨some c, rfl, fun _ hx _ => hx⟩
      | some d =>
          refine ⟨some (c.join d), if_pos (agree c d rfl rfl), fun w hx _ e f he hf => ?_⟩
          obtain rfl := Option.some.inj he
          exact hx c f rfl hf

theorem blend_none : blend x none = some x := by
  cases x <;> rfl

end Blending

section

variable {g h other i : Pdg}

theorem eq_empty_of_neutral (neutral : g.isNeutral = true) : g = .empty := by
  obtain ⟨nodes, entry, ⟨reaching⟩⟩ := g
  simp only [isNeutral, Bool.and_eq_true, List.isEmpty_iff, Option.isNone_iff_eq_none, Table.isEmpty] at neutral
  obtain ⟨⟨rfl, rfl⟩, rfl⟩ := neutral
  rfl

theorem content_of_sketch (same : g.sketch = h.sketch) : g.content = h.content := by
  unfold sketch at same
  cases hg : g.isNeutral with
  | true =>
      cases hh : h.isNeutral with
      | true => rw [eq_empty_of_neutral hg, eq_empty_of_neutral hh]
      | false => simp [hg, hh] at same
  | false =>
      cases hh : h.isNeutral with
      | true => simp [hg, hh] at same
      | false => simpa [hg, hh] using same

namespace Joins

variable {number : List Nat}

theorem not_neutral (hj : Joins number g other h i) (hgn : g.isNeutral = false) : i.isNeutral = false := by
  refine Bool.eq_false_iff.2 fun neutral => ?_
  have empty := eq_empty_of_neutral neutral
  have nodes : g.nodes = [] := by
    have none : h.nodes = [] := by rw [← hj.nodes, empty, Pdg.empty]
    have le := hj.grows.length_le
    rw [none] at le
    exact List.eq_nil_of_length_eq_zero (Nat.le_zero.1 le)
  have entry : g.entry = none := by
    have same : i.entry = g.entry := hj.entry.trans hj.grows.entry
    rw [← same, empty, Pdg.empty]
  have reaching : g.reaching.entries = [] := by
    refine List.eq_nil_iff_forall_not_mem.2 fun r hr => ?_
    have absent : i.reaching.get? r.1 = none := by
      rw [empty]
      rfl
    exact Table.get?_eq_none.1 (hj.get?_eq_none.1 absent).1 (List.mem_map.2 ⟨r, hr, rfl⟩)
  have : g.isNeutral = true := by simp [isNeutral, Table.isEmpty, nodes, entry, reaching]
  rw [this] at hgn
  cases hgn

theorem entryId?_eq (hj : Joins number g other h i) (hg : g.Consistent) : i.entryId? = g.entryId? := by
  have entry : i.entry = g.entry := hj.entry.trans hj.grows.entry
  unfold entryId?
  rw [entry]
  cases hn : g.entry with
  | none => rfl
  | some n =>
      obtain ⟨a, ha⟩ := idOf?_isSome.2 (hg.entry n hn)
      have kept : i.idOf? n = some a := (hj.idOf?_eq n).trans (hj.grows.names ha)
      exact kept.trans ha.symm

theorem content_eq (hj : Joins number g other h i) (hg : g.Consistent) (hother : other.Consistent) :
    i.content = g.content.join other.content := by
  have listed : {v | i.Lists v} = {v | g.Lists v} ∪ {v | other.Lists v} := by
    ext v
    have absent := hj.get?_eq_none (v := v)
    simp only [Set.mem_union, Set.mem_ofPred_eq, Lists, Option.isSome_iff_ne_none, Ne, absent]
    exact Decidable.not_and_iff_not_or_not
  rw [content, hj.facts hg hother, listed, hj.entryId?_eq hg]
  rfl

end Joins

/-- What is known of a composition: the content of its result, or that it fails. -/
def Shows (r : Except Fault Pdg) (y : Option (Option Content)) : Prop :=
  match r with
  | .ok i => i.Consistent ∧ y = some i.sketch
  | .error _ => y = none

theorem compose_shows (hg : g.Consistent) (hother : other.Consistent) :
    Shows (g.compose other) (blend g.sketch other.sketch) := by
  cases hon : other.isNeutral with
  | true =>
      have right : g.compose other = .ok g := by rw [compose, if_pos hon]
      have sketch : other.sketch = none := by rw [Pdg.sketch, if_pos hon]
      rw [right, sketch, blend_none]
      exact ⟨hg, rfl⟩
  | false =>
      cases hgn : g.isNeutral with
      | true =>
          have left : g.compose other = .ok other := by rw [compose, if_neg (by simp [hon]), if_pos hgn]
          have sketch : g.sketch = none := by rw [Pdg.sketch, if_pos hgn]
          rw [left, sketch]
          exact ⟨hother, rfl⟩
      | false =>
          have sketch : ∀ {g : Pdg}, g.isNeutral = false → g.sketch = some g.content := fun hg => by
            rw [Pdg.sketch, if_neg (by simp [hg])]
          rw [sketch hgn, sketch hon]
          by_cases entries : g.entryId? = other.entryId?
          · obtain ⟨i, hi⟩ := compose_succeeds_of_entry hg hother hgn hon entries
            obtain ⟨number, h, hj⟩ := compose_joins hg hother hgn hon hi
            rw [hi]
            refine ⟨hj.consistent hg, ?_⟩
            rw [sketch (hj.not_neutral hgn), hj.content_eq hg hother]
            exact if_pos entries
          · obtain ⟨f, hf⟩ := compose_fails hgn hon entries
            rw [hf]
            exact if_neg entries

theorem Shows.bind {r : Except Fault Pdg} {y : Option (Option Content)} {f : Pdg → Except Fault Pdg}
    {k : Option Content → Option (Option Content)} (hr : Shows r y)
    (next : ∀ i : Pdg, i.Consistent → Shows (f i) (k i.sketch)) : Shows (r.bind f) (y.bind k) := by
  cases r with
  | error e =>
      obtain rfl : y = none := hr
      exact rfl
  | ok i =>
      obtain ⟨hi, rfl⟩ := hr
      exact next i hi

theorem empty_consistent : Pdg.empty.Consistent := ⟨.nil, by simp [Out, In, empty], by simp [empty], by simp [empty],
  .nil, fun _ _ hd => absurd hd List.not_mem_nil⟩

theorem agree_of_entries (entries : g.isNeutral = false → h.isNeutral = false → g.entryId? = h.entryId?) :
    Agree g.sketch h.sketch := by
  unfold sketch
  intro c d hc hd
  split at hc
  · cases hc
  · rename_i hg
    split at hd
    · cases hd
    · rename_i hh
      obtain rfl := Option.some.inj hc
      obtain rfl := Option.some.inj hd
      exact entries (Bool.eq_false_iff.2 hg) (Bool.eq_false_iff.2 hh)

end

end Pdg

namespace Guarded

open Pdg (Shows blend)

/-- The object that a composition of two different objects gives. One of them if the other is empty; else the
first is changed, or a copy of it if it is frozen. -/
def compose (a b : Guarded Pdg) : Except Fault (Guarded Pdg) :=
  (a.value.merge b.value).map fun m => match m with
    | .first => a
    | .second => b
    | .joined p => if a.frozen then .fresh p else a.takeOver p

/-- On a shelf, the result of a composition gets a name. A graph composed with itself stays as it is. No object is
changed but the first operand, and that only if it is not frozen. -/
theorem compose?_stores {s : GraphShelf} {result first second : String} {x y : Nat} {a b : Guarded Pdg}
    (hx : s.number? first = some x) (hy : s.number? second = some y) (ha : s.objects[x]? = some a)
    (hb : s.objects[y]? = some b) :
    match if x = y then .ok a else a.compose b with
    | .error f => s.compose? result first second = some (.error f, s)
    | .ok r => ∃ answer t, s.compose? result first second = some (answer, t) ∧ t.get? result = some r ∧
        ∀ m, m < s.objects.length → m ≠ x ∨ a.frozen = true → t.objects[m]? = s.objects[m]? := by
  have named : ∀ (t : GraphShelf) (n : Nat), (t.rename result n).get? result = t.objects[n]? := by
    intro t n
    simp [Shelf.get?, Shelf.number?, Shelf.rename]
  -- What is answered once the result is an object with a number.
  have stored : ∀ {t : GraphShelf} {n : Nat} {r : Guarded Pdg}, t.objects[n]? = some r →
      ∃ answer u, (t.rename result n).objects[n]?.bind (fun g =>
          some (g.value.key?.map fun k => (k, decide ((t.rename result n).number? first = some n),
            decide ((t.rename result n).number? second = some n)), t.rename result n)) = some (answer, u) ∧
        u.get? result = some r ∧ u.objects = t.objects := by
    intro t n r hr
    have kept : (t.rename result n).objects[n]? = some r := hr
    rw [kept]
    exact ⟨_, _, rfl, (named t n).trans hr, rfl⟩
  have lt := (List.getElem?_eq_some_iff.1 ha).1
  simp only [GraphShelf.compose?, hx, hy, ha, hb, Option.bind_eq_bind, Option.bind_some]
  by_cases same : x = y
  · rw [if_pos same, if_pos same]
    obtain ⟨answer, t, ht, hr, objects⟩ := stored ha
    exact ⟨answer, t, ht, hr, fun m _ _ => by rw [objects]⟩
  · rw [if_neg same, if_neg same, compose]
    cases a.value.merge b.value with
    | error f => rfl
    | ok m =>
        cases m with
        | first =>
            obtain ⟨answer, t, ht, hr, objects⟩ := stored ha
            exact ⟨answer, t, ht, hr, fun m _ _ => by rw [objects]⟩
        | second =>
            obtain ⟨answer, t, ht, hr, objects⟩ := stored hb
            exact ⟨answer, t, ht, hr, fun m _ _ => by rw [objects]⟩
        | joined p =>
            cases frozen : a.frozen with
            | true =>
                have new : (s.push (fresh p)).2.objects[(s.push (fresh p)).1]? = some (fresh p) := by simp [Shelf.push]
                obtain ⟨answer, t, ht, hr, objects⟩ := stored new
                refine ⟨answer, t, ht, by simpa [frozen] using hr, fun m hm _ => ?_⟩
                rw [objects, Shelf.push, List.getElem?_append_left hm]
            | false =>
                have new : (s.put x (a.takeOver p)).objects[x]? = some (a.takeOver p) := by simp [Shelf.put, lt]
                obtain ⟨answer, t, ht, hr, objects⟩ := stored new
                refine ⟨answer, t, ht, by simpa [frozen] using hr, fun m _ other => ?_⟩
                rw [objects, Shelf.put, List.getElem?_set_ne (by simpa [eq_comm] using other)]

/-- Both compositions fail, or they give the same graph with the same key. -/
def Coincide (r s : Except Fault (Guarded Pdg)) : Prop :=
  match r, s with
  | .ok a, .ok b => a.value.SameAs b.value ∧ ∃ k, a.value.key? = .ok k ∧ b.value.key? = .ok k
  | .error _, .error _ => True
  | _, _ => False

section

variable {a b c : Guarded Pdg}

/-- Frozen or not, the object holds the composition of the graphs. -/
theorem compose_value : (a.compose b).map value = a.value.compose b.value := by
  unfold compose Pdg.merge
  by_cases hb : b.value.isNeutral = true
  · rw [if_pos hb, Pdg.compose, if_pos hb]
    rfl
  · by_cases ha : a.value.isNeutral = true
    · rw [if_neg hb, if_pos ha, Pdg.compose, if_neg hb, if_pos ha]
      rfl
    · rw [if_neg hb, if_neg ha]
      cases a.value.compose b.value with
      | error f => rfl
      | ok p => cases frozen : a.frozen <;> simp [Except.map, fresh, takeOver, frozen]

theorem compose_shows (ha : a.value.Consistent) (hb : b.value.Consistent) :
    Shows ((a.compose b).map value) (blend a.value.sketch b.value.sketch) := by
  rw [compose_value]
  exact Pdg.compose_shows ha hb

theorem compose_left_shows (ha : a.value.Consistent) (hb : b.value.Consistent) (hc : c.value.Consistent) :
    Shows (((a.compose b).bind fun i => i.compose c).map value)
      ((blend a.value.sketch b.value.sketch).bind fun x => blend x c.value.sketch) := by
  have values : ((a.compose b).bind fun i => i.compose c).map value =
      ((a.compose b).map value).bind fun i => i.compose c.value := by
    cases a.compose b with
    | error f => rfl
    | ok i => exact compose_value
  rw [values]
  exact (compose_shows ha hb).bind fun i hi => Pdg.compose_shows hi hc

theorem compose_right_shows (ha : a.value.Consistent) (hb : b.value.Consistent) (hc : c.value.Consistent) :
    Shows (((b.compose c).bind fun i => a.compose i).map value)
      ((blend b.value.sketch c.value.sketch).bind (blend a.value.sketch)) := by
  have values : ((b.compose c).bind fun i => a.compose i).map value =
      ((b.compose c).map value).bind fun i => a.value.compose i := by
    cases b.compose c with
    | error f => rfl
    | ok i => exact compose_value
  rw [values]
  exact (compose_shows hb hc).bind fun i hi => Pdg.compose_shows ha hi

/-- Compositions with the same content coincide. -/
theorem coincide {r s : Except Fault (Guarded Pdg)} {y : Option (Option Pdg.Content)} (hr : Shows (r.map value) y)
    (hs : Shows (s.map value) y) : Coincide r s := by
  cases r with
  | error f =>
      obtain rfl : y = none := hr
      cases s with
      | error f => exact trivial
      | ok b =>
          obtain ⟨-, absurd⟩ := hs
          cases absurd
  | ok a =>
      obtain ⟨ha, rfl⟩ := hr
      cases s with
      | error f => cases hs
      | ok b =>
          obtain ⟨hb, same⟩ := hs
          have sameAs := Pdg.sameAs_of_content ha hb (Pdg.content_of_sketch (Option.some.inj same))
          refine ⟨sameAs, a.value.key, ha.key?_eq, ?_⟩
          rw [hb.key?_eq, sameAs.key_eq ha hb]

theorem succeeds {r : Except Fault (Guarded Pdg)} {y : Option Pdg.Content} (hr : Shows (r.map value) (some y)) :
    ∃ i, r = .ok i := by
  cases r with
  | error f => cases hr
  | ok i => exact ⟨i, rfl⟩

/-- Compositions are commutative, associative and idempotent, and an empty graph is neutral on both sides: results
have the same nodes, edges, entry, definitions and key, or both sides fail. With the same entry, none fails. -/
theorem compose_laws {n : Guarded Pdg} {t : Bool} (ha : a.value.Consistent) (hb : b.value.Consistent)
    (hc : c.value.Consistent) (neutral : (Observer.pdg t).neutral = .pdg n.value) :
    Coincide (a.compose b) (b.compose a) ∧
      Coincide ((a.compose b).bind fun i => i.compose c) ((b.compose c).bind fun i => a.compose i) ∧
      Coincide (a.compose a.copy) (.ok a) ∧ Coincide (a.compose n) (.ok a) ∧ Coincide (n.compose a) (.ok a) ∧
      ((∀ g ∈ [a, b, c], ∀ h ∈ [a, b, c], g.value.isNeutral = false → h.value.isNeutral = false →
          g.value.entryId? = h.value.entryId?) →
        (∃ i, a.compose b = .ok i) ∧ ∃ i, (a.compose b).bind (fun i => i.compose c) = .ok i) := by
  have isEmpty : Pdg.empty = n.value := Info.pdg.inj neutral
  have empty : n.value.sketch = none := isEmpty ▸ rfl
  have hn : n.value.Consistent := isEmpty ▸ Pdg.empty_consistent
  have whole : Shows ((Except.ok a).map value) (some a.value.sketch) := ⟨ha, rfl⟩
  refine ⟨?_, ?_, ?_, ?_, ?_, fun entries => ?_⟩
  · refine coincide (compose_shows ha hb) ?_
    rw [Pdg.blend_comm]
    exact compose_shows hb ha
  · refine coincide (compose_left_shows ha hb hc) ?_
    rw [Pdg.blend_assoc]
    exact compose_right_shows ha hb hc
  · have twice := compose_shows (b := a.copy) ha ha
    have idem : blend a.value.sketch a.copy.value.sketch = some a.value.sketch := Pdg.blend_self _
    rw [idem] at twice
    exact coincide twice whole
  · have left := compose_shows ha hn
    rw [empty, Pdg.blend_none] at left
    exact coincide left whole
  · have right := compose_shows hn ha
    rw [empty] at right
    exact coincide right whole
  · have agree : ∀ g ∈ [a, b, c], ∀ h ∈ [a, b, c], Pdg.Agree g.value.sketch h.value.sketch :=
      fun g hg h hh => Pdg.agree_of_entries (entries g hg h hh)
    obtain ⟨x, hx, agrees⟩ := Pdg.blend_succeeds (agree a (by simp) b (by simp))
    obtain ⟨y, hy, -⟩ := Pdg.blend_succeeds (agrees _ (agree a (by simp) c (by simp)) (agree b (by simp) c (by simp)))
    have two := compose_shows ha hb
    have three := compose_left_shows ha hb hc
    rw [hx] at two three
    change Shows _ (blend x c.value.sketch) at three
    rw [hy] at three
    exact ⟨succeeds two, succeeds three⟩

end

section Samples

/-- A graph whose entry controls some statements. -/
def fan (statements : List String) (defined : List (Variable × Definitions)) : Pdg where
  nodes := ⟨.entry "f", none, ⟨(List.range statements.length).map (· + 1), [], []⟩, .empty⟩ ::
    statements.map fun s => ⟨.statement s, none, .empty, ⟨[0], [], []⟩⟩
  entry := some 0
  reaching := ⟨defined⟩

/-- The second statement of `a` is the first of `b`, and no two of the graphs define the same variables. -/
theorem compose_laws_fans :
    let a : Guarded Pdg := ⟨fan ["s", "t"] [(.event ⟨none, "x"⟩, ⟨[2], false⟩)], true⟩
    let b := fresh (fan ["t", "u"] [(.event ⟨none, "x"⟩, ⟨[1], false⟩), (.event ⟨none, "y"⟩, ⟨[2], false⟩)])
    let c : Guarded Pdg := ⟨fan ["u"] [(.event ⟨none, "y"⟩, ⟨[1], true⟩)], true⟩
    Coincide (a.compose b) (b.compose a) ∧
      Coincide ((a.compose b).bind fun i => i.compose c) ((b.compose c).bind fun i => a.compose i) ∧
      Coincide (a.compose a.copy) (.ok a) ∧ Coincide (a.compose ⟨.empty, true⟩) (.ok a) ∧
      Coincide (Guarded.compose ⟨.empty, true⟩ a) (.ok a) ∧
      (∃ i, a.compose b = .ok i) ∧ ∃ i, (a.compose b).bind (fun i => i.compose c) = .ok i := by
  intro a b c
  obtain ⟨comm, assoc, idem, right, left, succeed⟩ := compose_laws (a := a) (b := b) (c := c) (n := ⟨.empty, true⟩)
    (t := true) (by decide) (by decide) (by decide) rfl
  exact ⟨comm, assoc, idem, right, left, succeed (by decide)⟩

end Samples

end Guarded

end DeltaSlice
