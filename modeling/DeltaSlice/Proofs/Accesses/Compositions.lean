import DeltaSlice.Proofs.Accesses.Places

/-!
Compositions of what is learned about accesses. What comes out depends on the contents alone, not on which objects
are frozen, as long as no object that may be changed stands at two places: then compositions are commutative,
associative and idempotent.
-/

namespace DeltaSlice

namespace HeldInfo

theorem Stocked.condition {s : InfoShelf} {x : HeldInfo} (h : x.Stocked s) (p : List Bool) (k : AccessKind)
    (v : Variable) (c : Value) (hc : x.noted? s p k v = some c) : c.IsCondition := by
  cases hn : x.part? p with
  | none =>
      rw [noted?_eq_none hn] at hc
      cases hc
  | some n =>
      obtain ⟨g, hg, conditional⟩ := h p n hn
      rw [noted?_of_part hn hg] at hc
      exact (conditional k).condition hc

namespace Composes

variable {s s' : InfoShelf} {o : Observer} {x y z r : HeldInfo} {p : List Bool}

section

variable (c : Composes s o x y r s') (hx : x.Fits s o) (hy : y.Fits s o)

include c hx hy

theorem fits : r.Fits s' o := by
  refine ⟨c.shaped, fun p l hl => ?_⟩
  obtain ⟨n, m, g, h, hn, hm, hg, hh, became, -⟩ := c.parts p l hl
  exact ⟨_, became, (hx.stocked.conditional hn hg).compose (hy.stocked.conditional hm hh)⟩

/-- The entries of a composition are those of its parts, joined. -/
theorem noted?_eq (p : List Bool) (k : AccessKind) (v : Variable) :
    r.noted? s' p k v = Option.merge Value.or (x.noted? s p k v) (y.noted? s p k v) := by
  cases hl : r.part? p with
  | none =>
      have none : x.part? p = .none := by
        cases hn : x.part? p with
        | none => rfl
        | some n =>
            obtain ⟨l, found⟩ := c.places p n hn
            rw [hl] at found
            cases found
      have none' : y.part? p = .none := by
        cases hm : y.part? p with
        | none => rfl
        | some m =>
            obtain ⟨n, found⟩ := hy.shaped.part? hx.shaped hm
            rw [none] at found
            cases found
      rw [noted?_eq_none hl, noted?_eq_none none, noted?_eq_none none']
      rfl
  | some l =>
      obtain ⟨n, m, g, h, hn, hm, hg, hh, became, -⟩ := c.parts p l hl
      rw [noted?_of_part hl became, noted?_of_part hn hg, noted?_of_part hm hh, Guarded.fresh,
        Simulator.store_compose]
      exact ((hx.stocked.conditional hn hg k).merge (hy.stocked.conditional hm hh k)).2 v

/-- The conditions noted in a composition are the disjunctions of those in its parts. -/
theorem part?_info {i j : ReadWrite} (hi : (x.info s).part? p = some i) (hj : (y.info s).part? p = some j) :
    ∃ l, (r.info s').part? p = some l ∧ ∀ v, l.readOf v = (i.readOf v).or (j.readOf v) ∧
      l.writtenOf v = (i.writtenOf v).or (j.writtenOf v) := by
  rw [HeldInfo.part?_info] at hi
  obtain ⟨n, hn, hi⟩ := Option.map_eq_some_iff.1 hi
  obtain ⟨l, hl⟩ := c.places p n hn
  obtain ⟨n', m, g, h, hn', hm, hg, hh, became, -⟩ := c.parts p l hl
  obtain rfl := Option.some.inj (hn.symm.trans hn')
  obtain rfl : g.value = i := by simpa [hg] using hi
  obtain rfl : h.value = j := Option.some.inj ((part?_info_of_part hm hh).symm.trans hj)
  refine ⟨g.value.compose h.value, part?_info_of_part hl became, fun v => ?_⟩
  have conditional := hx.stocked.conditional hn hg
  have conditional' := hy.stocked.conditional hm hh
  exact ⟨(conditional .reading).lookup_merge (conditional' .reading) v,
    (conditional .writing).lookup_merge (conditional' .writing) v⟩

omit hx in
theorem stays (hz : z.Stocked s) : z.Stocked s' := by
  intro p n hn
  obtain ⟨g, hg, conditional⟩ := hz p n hn
  rcases c.kept n g hg with kept | ⟨-, q, m, h, hn', hm, hh, became⟩
  · exact ⟨g, kept, conditional⟩
  · exact ⟨_, became, conditional.compose (hy.stocked.conditional hm hh)⟩

/-- Another information keeps its entries, except where it shares an object with the first operand. -/
theorem noted?_other (apart : Apart s [x, z]) (hz : z.Stocked s) (p : List Bool) (k : AccessKind) (v : Variable) :
    z.noted? s' p k v = z.noted? s p k v ∨ z.noted? s p k v = x.noted? s p k v ∧
      z.noted? s' p k v = Option.merge Value.or (x.noted? s p k v) (y.noted? s p k v) := by
  cases hn : z.part? p with
  | none => exact .inl (by rw [noted?_eq_none hn, noted?_eq_none hn])
  | some n =>
      obtain ⟨g, hg, -⟩ := hz p n hn
      rcases c.kept n g hg with kept | ⟨thawed, q, m, h, hn', hm, hh, became⟩
      · exact .inl (by rw [noted?_of_part hn hg, noted?_of_part hn kept])
      · obtain rfl := apart.eq_of_thawed (by simp) (by simp) hn' hn hg thawed
        refine .inr ⟨by rw [noted?_of_part hn hg, noted?_of_part hn' hg], ?_⟩
        rw [noted?_of_part hn became, noted?_of_part hn' hg, noted?_of_part hm hh, Guarded.fresh,
          Simulator.store_compose]
        exact ((hx.stocked.conditional hn' hg k).merge (hy.stocked.conditional hm hh k)).2 v

end

variable (c : Composes s o x y r s')

include c

theorem frozen {n : Nat} {g : Guarded ReadWrite} (hg : s[n]? = some g) (frozen : g.frozen = true) :
    s'[n]? = some g := by
  refine (c.kept n g hg).resolve_right ?_
  rintro ⟨thawed, -⟩
  rw [frozen] at thawed
  cases thawed

/-- The result stands apart from what the first operand stood apart from. -/
theorem apart {zs : List HeldInfo} (apart : Apart s (x :: zs)) (stocked : ∀ w ∈ zs, w.Stocked s) :
    Apart s' (r :: zs) := by
  have mixed : ∀ w ∈ zs, ∀ p q l, r.part? p = some l → w.part? q = some l → p = q := by
    intro w hw p q l hl hq
    obtain ⟨n, m, g, h, hn, -, hg, -, -, ⟨rfl, thawed⟩ | new⟩ := c.parts p l hl
    · exact apart.eq_of_thawed List.mem_cons_self (List.mem_cons_of_mem _ hw) hn hq hg thawed
    · exact absurd ((stocked w hw).lt hq) (by omega)
  intro a ha b hb p q l hp hq
  rcases List.mem_cons.1 ha with rfl | ha' <;> rcases List.mem_cons.1 hb with rfl | hb'
  · refine .inl ?_
    obtain ⟨n, m, g, h, hn, -, hg, -, -, ⟨rfl, thawed⟩ | new⟩ := c.parts p l hp
    · obtain ⟨n', m', g', h', hn', -, hg', -, -, ⟨rfl, -⟩ | new⟩ := c.parts q l hq
      · exact apart.eq_of_thawed List.mem_cons_self List.mem_cons_self hn hn' hg thawed
      · exact absurd (List.getElem?_eq_some_iff.1 hg).1 (by omega)
    · exact c.new p q l hp hq new
  · exact .inl (mixed b hb' p q l hp hq)
  · exact .inl (mixed a ha' q p l hq hp).symm
  · refine (apart a (List.mem_cons_of_mem _ ha') b (List.mem_cons_of_mem _ hb') p q l hp hq).imp_right ?_
    rintro ⟨g, hg, frozen⟩
    exact ⟨g, c.frozen hg frozen, frozen⟩

end Composes

section Keys

variable {s s' : InfoShelf} {o : Observer} {x y : HeldInfo}

/-- Informations with the same entries have the same key, whichever shelves hold them. -/
theorem Fits.key_eq (hx : x.Fits s o) (hy : y.Fits s' o)
    (same : ∀ p k v, x.noted? s p k v = y.noted? s' p k v) : ∃ key, x.key? s = .ok key ∧ y.key? s' = .ok key := by
  suffices found : x.hasKey s = true ∧ y.hasKey s' = true ∧ (x.info s).key = (y.info s').key by
    obtain ⟨first, second, same⟩ := found
    exact ⟨_, if_pos first, (if_pos second).trans (congrArg Except.ok same.symm)⟩
  obtain ⟨hx, stocked⟩ := hx
  obtain ⟨hy, stocked'⟩ := hy
  induction hx generalizing y with
  | none =>
      cases hy
      exact ⟨rfl, rfl, rfl⟩
  | readWrite track n =>
      cases hy with
      | readWrite track m =>
          obtain ⟨g, hg, conditional⟩ := stocked [] n rfl
          obtain ⟨h, hh, conditional'⟩ := stocked' [] m rfl
          have stores : ∀ k, (g.value.store k).key = (h.value.store k).key := fun k =>
            (conditional k).key_eq (conditional' k) fun v => by
              have same := same [] k v
              rwa [noted?_of_part rfl hg, noted?_of_part rfl hh] at same
          refine ⟨?_, ?_, ?_⟩
          · simp only [HeldInfo.hasKey, hg, Option.all_some, Bool.and_eq_true]
            exact ⟨(conditional .reading).hasKey, (conditional .writing).hasKey⟩
          · simp only [HeldInfo.hasKey, hh, Option.all_some, Bool.and_eq_true]
            exact ⟨(conditional' .reading).hasKey, (conditional' .writing).hasKey⟩
          · simp only [HeldInfo.info, hg, hh, Option.map_some, Option.getD_some, Info.key, ReadWrite.key]
            rw [show g.value.read.key = h.value.read.key from stores .reading,
              show g.value.written.key = h.value.written.key from stores .writing]
  | pair _ _ first second =>
      cases hy with
      | pair hy hy' =>
          obtain ⟨has, has', keys⟩ := first (fun p => same (false :: p)) stocked.first hy stocked'.first
          obtain ⟨hasNext, hasNext', nextKeys⟩ := second (fun p => same (true :: p)) stocked.second hy' stocked'.second
          refine ⟨Bool.and_eq_true_iff.2 ⟨has, hasNext⟩, Bool.and_eq_true_iff.2 ⟨has', hasNext'⟩, ?_⟩
          simp only [HeldInfo.info, Info.key]
          rw [keys, nextKeys]

/-- Nothing is noted in what is learned from nothing. -/
theorem noted?_neutral (hx : Shaped o x) (neutral : x.info s = o.neutral) (p : List Bool) (k : AccessKind)
    (v : Variable) : x.noted? s p k v = Option.none := by
  have nothing : ∀ i, o.neutral.part? p = some i → i = .empty := by
    clear neutral
    induction hx generalizing p with
    | none =>
        intro i hi
        cases p <;> cases hi
    | readWrite track n =>
        intro i hi
        cases p with
        | nil => exact (Option.some.inj hi).symm
        | cons b p => cases hi
    | pair _ _ first second =>
        intro i hi
        cases p with
        | nil => cases hi
        | cons b p =>
            cases b with
            | false => exact first p i hi
            | true => exact second p i hi
  unfold noted?
  rw [neutral]
  cases hi : o.neutral.part? p with
  | none => rfl
  | some i =>
      obtain rfl := nothing i hi
      cases k <;> rfl

/-- Freezing objects or copying them makes no difference to what they hold. -/
theorem info_congr (values : s'.map Guarded.value = s.map Guarded.value) : x.info s' = x.info s := by
  have same : ∀ n, (s'[n]?).map Guarded.value = (s[n]?).map Guarded.value := fun n => by
    rw [← List.getElem?_map, values, List.getElem?_map]
  induction x with
  | none => rfl
  | readWrite n => exact congrArg (fun i => Info.readWrite (i.getD .empty)) (same n)
  | pair x y first second =>
      unfold HeldInfo.info
      rw [first, second]

theorem Fits.congr (hx : x.Fits s o) (values : s'.map Guarded.value = s.map Guarded.value) : x.Fits s' o := by
  refine ⟨hx.shaped, fun p n hn => ?_⟩
  obtain ⟨g, hg, conditional⟩ := hx.stocked p n hn
  have same : (s'[n]?).map Guarded.value = some g.value := by
    rw [← List.getElem?_map, values, List.getElem?_map, hg]
    rfl
  obtain ⟨g', hg', value⟩ := Option.map_eq_some_iff.1 same
  exact ⟨g', hg', value ▸ conditional⟩

/-- A frozen information is left as it is. -/
theorem Composes.info_frozen {y r z : HeldInfo} (c : Composes s o x y r s') (hz : z.Stocked s)
    (frozen : z.isFrozen s = true) : z.info s' = z.info s ∧ z.key? s' = z.key? s := by
  suffices same : z.info s' = z.info s ∧ z.hasKey s' = z.hasKey s by
    refine ⟨same.1, ?_⟩
    unfold HeldInfo.key?
    rw [same.1, same.2]
  induction z with
  | none => exact ⟨rfl, rfl⟩
  | readWrite n =>
      obtain ⟨g, hg, -⟩ := hz [] n rfl
      have kept : s'[n]? = s[n]? := by
        rw [HeldInfo.isFrozen, hg] at frozen
        rw [hg, c.frozen hg frozen]
      simp only [HeldInfo.info, HeldInfo.hasKey, kept, and_self]
  | pair z w first second =>
      obtain ⟨frozen, frozen'⟩ := Bool.and_eq_true_iff.1 frozen
      obtain ⟨info, key⟩ := first hz.first frozen
      obtain ⟨info', key'⟩ := second hz.second frozen'
      simp only [HeldInfo.info, HeldInfo.hasKey, info, info', key, key', and_self]

end Keys

/-- The composition of two informations, with the shelf that it leaves behind. -/
def composed (s : InfoShelf) (x y : HeldInfo) : Except Fault (HeldInfo × InfoShelf) :=
  (x.compose s y).1.map fun r => (r, (x.compose s y).2)

/-- Both give an information, and these have the same key. -/
def Coincide (u w : Except Fault (HeldInfo × InfoShelf)) : Prop :=
  ∃ x s y s' key, u = .ok (x, s) ∧ w = .ok (y, s') ∧ x.key? s = .ok key ∧ y.key? s' = .ok key

/-- The result is an information with the given entries. -/
def Shows (o : Observer) (u : Except Fault (HeldInfo × InfoShelf))
    (content : List Bool → AccessKind → Variable → Option Value) : Prop :=
  ∃ x s, u = .ok (x, s) ∧ x.Fits s o ∧ ∀ p k v, x.noted? s p k v = content p k v

theorem Shows.coincide {o : Observer} {u w : Except Fault (HeldInfo × InfoShelf)}
    {content content' : List Bool → AccessKind → Variable → Option Value} (hu : Shows o u content)
    (hw : Shows o w content') (same : ∀ p k v, content p k v = content' p k v) : Coincide u w := by
  obtain ⟨x, s, rfl, hx, entries⟩ := hu
  obtain ⟨y, s', rfl, hy, entries'⟩ := hw
  obtain ⟨key, hkey, hkey'⟩ := hx.key_eq hy fun p k v => by rw [entries, entries', same]
  exact ⟨x, s, y, s', key, rfl, rfl, hkey, hkey'⟩

section Laws

variable {s : InfoShelf} {o : Observer} {a b c : HeldInfo}

theorem Fits.shows (h : a.Fits s o) : Shows o (.ok (a, s)) (a.noted? s) := ⟨a, s, rfl, h, fun _ _ _ => rfl⟩

theorem composed_composes (ha : a.Fits s o) (hb : b.Fits s o) (apart : Apart s [a, b]) :
    ∃ r s', composed s a b = .ok (r, s') ∧ Composes s o a b r s' := by
  obtain ⟨r, s', run, composes⟩ := compose_composes ha hb apart
  refine ⟨r, s', ?_, composes⟩
  unfold composed
  rw [run]
  rfl

theorem composed_shows (ha : a.Fits s o) (hb : b.Fits s o) (apart : Apart s [a, b]) :
    Shows o (composed s a b) fun p k v => Option.merge Value.or (a.noted? s p k v) (b.noted? s p k v) := by
  obtain ⟨r, s', run, composes⟩ := composed_composes ha hb apart
  exact ⟨r, s', run, composes.fits ha hb, composes.noted?_eq ha hb⟩

variable (ha : a.Fits s o) (hb : b.Fits s o) (hc : c.Fits s o) (apart : Apart s [a, b, c])

include ha hb hc apart

theorem composed_left_shows : Shows o ((composed s a b).bind fun (r, s) => composed s r c) fun p k v =>
    Option.merge Value.or (Option.merge Value.or (a.noted? s p k v) (b.noted? s p k v)) (c.noted? s p k v) := by
  obtain ⟨r, s₁, run, first⟩ := composed_composes ha hb (apart.subset (by simp))
  have outer : Apart s [a, c] := apart.subset (by simp)
  obtain ⟨r', s₂, run', second⟩ := composed_composes (first.fits ha hb) ⟨hc.shaped, first.stays hb hc.stocked⟩
    (first.apart outer (by simpa using hc.stocked))
  refine ⟨r', s₂, ?_, second.fits (first.fits ha hb) ⟨hc.shaped, first.stays hb hc.stocked⟩, fun p k v => ?_⟩
  · rw [run]
    exact run'
  · rw [second.noted?_eq (first.fits ha hb) ⟨hc.shaped, first.stays hb hc.stocked⟩, first.noted?_eq ha hb]
    rcases first.noted?_other ha hb (apart.subset (by simp)) hc.stocked p k v with same | ⟨shared, same⟩
    · rw [same]
    · -- The third operand shares the object that the first composition changed.
      have twice := Value.merge_self ((first.fits ha hb).stocked.condition p k v)
      rw [first.noted?_eq ha hb] at twice
      dsimp only
      rw [same, twice, shared, Value.merge_comm (Option.merge _ _ _) (a.noted? s p k v), ← Value.merge_assoc,
        Value.merge_self (ha.stocked.condition p k v)]

theorem composed_right_shows : Shows o ((composed s b c).bind fun (r, s) => composed s a r) fun p k v =>
    Option.merge Value.or (a.noted? s p k v) (Option.merge Value.or (b.noted? s p k v) (c.noted? s p k v)) := by
  obtain ⟨r, s₁, run, first⟩ := composed_composes hb hc (apart.subset (by simp))
  have hr := first.fits hb hc
  have ha' : a.Fits s₁ o := ⟨ha.shaped, first.stays hc ha.stocked⟩
  have apart' : Apart s₁ [r, a] := first.apart (apart.subset (by simp)) (by simpa using ha.stocked)
  obtain ⟨r', s₂, run', second⟩ := composed_composes ha' hr (apart'.subset (by simp))
  refine ⟨r', s₂, ?_, second.fits ha' hr, fun p k v => ?_⟩
  · rw [run]
    exact run'
  · rw [second.noted?_eq ha' hr, first.noted?_eq hb hc]
    rcases first.noted?_other hb hc (apart.subset (by simp)) ha.stocked p k v with same | ⟨shared, same⟩
    · rw [same]
    · have twice := Value.merge_self (hr.stocked.condition p k v)
      rw [first.noted?_eq hb hc] at twice
      dsimp only
      rw [same, twice, shared, ← Value.merge_assoc, Value.merge_self (hb.stocked.condition p k v)]

end Laws

/-- Compositions are commutative, associative and idempotent, and what is learned from nothing is neutral on both
sides, up to keys and whichever objects are frozen; conditions are joined by disjunction in every part, and frozen
informations stay as they are. -/
theorem compositions_agree {s t : InfoShelf} {o : Observer} {a b c d n : HeldInfo}
    (fits : ∀ x ∈ [a, b, c, d, n], x.Fits s o) (values : t.map Guarded.value = s.map Guarded.value)
    (apart : Apart s [a, b, c, d, n]) (apart' : Apart t [a, b, c, d, n]) (copy : d.info s = a.info s)
    (neutral : n.info s = o.neutral) :
    Coincide (composed s a b) (composed t b a) ∧
      Coincide ((composed s a b).bind fun (r, s) => composed s r c)
        ((composed t b c).bind fun (r, t) => composed t a r) ∧
      Coincide (composed s a d) (.ok (a, t)) ∧ Coincide (composed s a n) (.ok (a, t)) ∧
      Coincide (composed s n a) (.ok (a, t)) ∧
      ∀ r s', composed s a b = .ok (r, s') →
        (∀ p i j, (a.info s).part? p = some i → (b.info s).part? p = some j →
          ∃ l, (r.info s').part? p = some l ∧ ∀ v, l.readOf v = (i.readOf v).or (j.readOf v) ∧
            l.writtenOf v = (i.writtenOf v).or (j.writtenOf v)) ∧
        ∀ x ∈ [a, b, c, d, n], x.isFrozen s = true → x.info s' = x.info s ∧ x.key? s' = x.key? s := by
  have ha := fits a (by simp)
  have hb := fits b (by simp)
  have hc := fits c (by simp)
  have hd := fits d (by simp)
  have hn := fits n (by simp)
  have same : ∀ x : HeldInfo, x.noted? t = x.noted? s := fun x => by
    unfold noted?
    rw [info_congr values]
  have whole : Shows o (.ok (a, t)) (a.noted? s) := same a ▸ (ha.congr values).shows
  refine ⟨?_, ?_, ?_, ?_, ?_, fun r s' run => ?_⟩
  · refine (composed_shows ha hb (apart.subset (by simp))).coincide
      (composed_shows (hb.congr values) (ha.congr values) (apart'.subset (by simp))) fun p k v => ?_
    rw [same, same, Value.merge_comm]
  · refine (composed_left_shows ha hb hc (apart.subset (by simp))).coincide
      (composed_right_shows (ha.congr values) (hb.congr values) (hc.congr values) (apart'.subset (by simp)))
      fun p k v => ?_
    rw [same, same, same, Value.merge_assoc]
  · refine (composed_shows ha hd (apart.subset (by simp))).coincide whole fun p k v => ?_
    have copied : d.noted? s p k v = a.noted? s p k v := by
      unfold noted?
      rw [copy]
    rw [copied, Value.merge_self (ha.stocked.condition p k v)]
  · refine (composed_shows ha hn (apart.subset (by simp))).coincide whole fun p k v => ?_
    rw [noted?_neutral hn.shaped neutral, Option.merge_none_right]
  · refine (composed_shows hn ha (apart.subset (by simp))).coincide whole fun p k v => ?_
    rw [noted?_neutral hn.shaped neutral, Option.merge_none_left]
  · obtain ⟨r', s₁, run', composes⟩ := composed_composes ha hb (apart.subset (by simp))
    obtain ⟨rfl, rfl⟩ := Prod.mk.inj (Except.ok.inj (run'.symm.trans run))
    exact ⟨fun p i j => composes.part?_info ha hb, fun x hx => composes.info_frozen (fits x hx).stocked⟩

section Samples

/-- The event whose trigger the objects of the samples speak of. -/
def sampled : Variable := .event ⟨Option.none, "x"⟩

/-- Conditions of one access each, except for the last object. -/
def objects (frozen : Bool) : InfoShelf :=
  [⟨⟨⟨[(sampled, .unknown)]⟩, .empty⟩, frozen⟩, ⟨⟨.empty, ⟨[(sampled, .bool true)]⟩⟩, true⟩,
    ⟨⟨⟨[(sampled, .bool true)]⟩, ⟨[(sampled, .bool false)]⟩⟩, frozen⟩, ⟨.empty, true⟩]

/-- Nested pairs that share objects; the first object may be changed in one of the shelves. -/
theorem compositions_agree_nested :
    let a := pair (readWrite 0) (pair none (readWrite 1))
    let b := pair (readWrite 1) (pair none (readWrite 2))
    let n := pair (readWrite 3) (pair none (readWrite 3))
    let s := objects false
    let t := objects true
    Coincide (composed s a b) (composed t b a) ∧
      Coincide ((composed s a b).bind fun (r, s) => composed s r a)
        ((composed t b a).bind fun (r, t) => composed t a r) ∧
      Coincide (composed s a a) (.ok (a, t)) ∧ Coincide (composed s a n) (.ok (a, t)) ∧
      Coincide (composed s n a) (.ok (a, t)) ∧
      ∀ r s', composed s a b = .ok (r, s') →
        (∀ p i j, (a.info s).part? p = some i → (b.info s).part? p = some j →
          ∃ l, (r.info s').part? p = some l ∧ ∀ v, l.readOf v = (i.readOf v).or (j.readOf v) ∧
            l.writtenOf v = (i.writtenOf v).or (j.writtenOf v)) ∧
        ∀ x ∈ [a, b, a, a, n], x.isFrozen s = true → x.info s' = x.info s ∧ x.key? s' = x.key? s := by
  intro a b n s t
  let o : Observer := .pair (.readWrite fun _ => true) (.pair .none (.readWrite fun _ => true))
  have shaped : ∀ i j, Shaped o (pair (readWrite i) (pair none (readWrite j))) := fun i j =>
    .pair (.readWrite _ i) (.pair .none (.readWrite _ j))
  have fits : ∀ x ∈ [a, b, a, a, n], x.Fits s o := by
    refine List.forall_mem_cons.2 ⟨⟨shaped 0 1, stocked_of_places (by decide)⟩, ?_⟩
    refine List.forall_mem_cons.2 ⟨⟨shaped 1 2, stocked_of_places (by decide)⟩, ?_⟩
    refine List.forall_mem_cons.2 ⟨⟨shaped 0 1, stocked_of_places (by decide)⟩, ?_⟩
    refine List.forall_mem_cons.2 ⟨⟨shaped 0 1, stocked_of_places (by decide)⟩, ?_⟩
    exact List.forall_mem_singleton.2 ⟨shaped 3 3, stocked_of_places (by decide)⟩
  exact compositions_agree fits rfl (apart_of_places (by decide)) (apart_of_places (by decide)) rfl rfl

/-- An object that may be changed stands in both parts of the first operand: what the first part takes over shows
in the second one too, unless the object is frozen. -/
theorem composition_shows_shared :
    let a := pair (readWrite 0) (readWrite 0)
    let b := pair (readWrite 1) (readWrite 2)
    let s := fun frozen => [⟨.empty, frozen⟩, .fresh ⟨.empty, ⟨[(sampled, .bool true)]⟩⟩, .fresh .empty]
    (∀ frozen, ∀ x ∈ [a, b], x.Fits (s frozen) (.pair (.readWrite fun _ => true) (.readWrite fun _ => true))) ∧
      ∀ frozen, ∃ r s', composed (s frozen) a b = .ok (r, s') ∧
        ((r.info s').part? [true]).map (·.writtenOf sampled) = some (.bool !frozen) ∧
        (((a.info (s frozen)).part? [true]).bind fun i => ((b.info (s frozen)).part? [true]).map fun j =>
          (i.writtenOf sampled).or (j.writtenOf sampled)) = some (.bool false) := by
  intro a b s
  refine ⟨fun frozen x hx => ?_, fun frozen => ?_⟩
  · have shaped : ∀ i j, Shaped (.pair (.readWrite fun _ => true) (.readWrite fun _ => true))
        (pair (readWrite i) (readWrite j)) := fun i j => .pair (.readWrite _ i) (.readWrite _ j)
    rcases List.mem_pair.1 hx with rfl | rfl
    · exact ⟨shaped 0 0, stocked_of_places (by cases frozen <;> decide)⟩
    · exact ⟨shaped 1 2, stocked_of_places (by cases frozen <;> decide)⟩
  · cases frozen with
    | false => exact ⟨_, _, rfl, by decide, by decide⟩
    | true => exact ⟨_, _, rfl, by decide, by decide⟩

end Samples

end HeldInfo

end DeltaSlice
