import DeltaSlice.Proofs.Accesses.Joins
import DeltaSlice.Workspace.Infos

/-!
Compositions of informations under construction, place by place. An object that may be changed takes over the
composition of what stands at its place; a frozen one is left alone and a new object holds the result. Pairs are
composed part after part, so their parts must not share an object that may be changed.
-/

namespace DeltaSlice

/-- The read and write conditions at a place; a place says at every pair whether to go on with its second part. -/
def Info.part? : Info → List Bool → Option ReadWrite
  | readWrite i, [] => some i
  | pair x y, second :: p => if second then y.part? p else x.part? p
  | _, _ => Option.none

namespace HeldInfo

/-- The number of the object at a place. -/
def part? : HeldInfo → List Bool → Option Nat
  | readWrite n, [] => some n
  | pair x y, second :: p => if second then y.part? p else x.part? p
  | _, _ => Option.none

/-- Built for an observer that learns nothing, accesses, or pairs of these. -/
inductive Shaped : Observer → HeldInfo → Prop
  | none : Shaped .none .none
  | readWrite (track : Variable → Bool) (n : Nat) : Shaped (.readWrite track) (.readWrite n)
  | pair {o o' : Observer} {x y : HeldInfo} : Shaped o x → Shaped o' y → Shaped (.pair o o') (.pair x y)

/-- All parts are objects of the shelf that hold conditions. -/
def Stocked (s : InfoShelf) (x : HeldInfo) : Prop :=
  ∀ p n, x.part? p = some n → ∃ g, s[n]? = some g ∧ g.value.Conditional

structure Fits (s : InfoShelf) (o : Observer) (x : HeldInfo) : Prop where
  shaped : Shaped o x
  stocked : x.Stocked s

/-- No object that may be changed stands at different places. -/
def Apart (s : InfoShelf) (xs : List HeldInfo) : Prop :=
  ∀ x ∈ xs, ∀ y ∈ xs, ∀ p q n, x.part? p = some n → y.part? q = some n → p = q ∨
    ∃ g, s[n]? = some g ∧ g.frozen = true

/-- The condition noted for an access at a place. -/
def noted? (s : InfoShelf) (x : HeldInfo) (p : List Bool) (k : AccessKind) (v : Variable) : Option Value :=
  ((x.info s).part? p).bind fun i => (i.store k).get? v

section Places

variable {s s' : InfoShelf} {o o' : Observer} {x y z w : HeldInfo} {p q : List Bool} {n m : Nat}
  {xs ys : List HeldInfo} {g : Guarded ReadWrite}

@[simp] theorem part?_none : (none).part? p = Option.none := by
  unfold part?
  rfl

@[simp] theorem part?_readWrite : (readWrite n).part? p = if p = [] then some n else Option.none := by
  cases p <;> rfl

@[simp] theorem part?_pair_nil : (pair x y).part? [] = Option.none := rfl

/-- A place in a pair lies in one of its parts. -/
theorem part?_pair_cases (h : (pair x y).part? p = some n) :
    (∃ q, p = false :: q ∧ x.part? q = some n) ∨ ∃ q, p = true :: q ∧ y.part? q = some n := by
  cases p with
  | nil => cases h
  | cons second q =>
      cases second with
      | false => exact .inl ⟨q, rfl, h⟩
      | true => exact .inr ⟨q, rfl, h⟩

theorem Stocked.first (h : (pair x y).Stocked s) : x.Stocked s := fun p n hn => h (false :: p) n hn

theorem Stocked.second (h : (pair x y).Stocked s) : y.Stocked s := fun p n hn => h (true :: p) n hn

theorem Stocked.lt (h : x.Stocked s) (hn : x.part? p = some n) : n < s.length := by
  obtain ⟨g, hg, -⟩ := h p n hn
  exact (List.getElem?_eq_some_iff.1 hg).1

theorem Stocked.conditional (h : x.Stocked s) (hn : x.part? p = some n) (hg : s[n]? = some g) :
    g.value.Conditional := by
  obtain ⟨g', hg', conditional⟩ := h p n hn
  rwa [Option.some.inj (hg.symm.trans hg')]

theorem Apart.subset (h : Apart s xs) (sub : ys ⊆ xs) : Apart s ys :=
  fun x hx y hy => h x (sub hx) y (sub hy)

/-- Places that differ hold different objects that may be changed. -/
theorem Apart.eq_of_thawed (h : Apart s xs) (hx : x ∈ xs) (hy : y ∈ xs) (hp : x.part? p = some n)
    (hq : y.part? q = some n) (hg : s[n]? = some g) (thawed : g.frozen = false) : p = q := by
  refine (h x hx y hy p q n hp hq).resolve_right ?_
  rintro ⟨g', hg', frozen⟩
  obtain rfl := Option.some.inj (hg.symm.trans hg')
  rw [thawed] at frozen
  cases frozen

/-- What stands at a place is the content of the object there. -/
theorem part?_info (s : InfoShelf) (x : HeldInfo) (p : List Bool) :
    (x.info s).part? p = (x.part? p).map fun n => ((s[n]?).map (·.value)).getD .empty := by
  induction x generalizing p with
  | none => cases p <;> rfl
  | readWrite n => cases p <;> rfl
  | pair x y first second =>
      cases p with
      | nil => rfl
      | cons b p =>
          cases b with
          | false => exact first p
          | true => exact second p

theorem part?_info_of_part (hn : x.part? p = some n) (hg : s[n]? = some g) : (x.info s).part? p = some g.value := by
  rw [part?_info, hn, Option.map_some, hg]
  rfl

theorem noted?_of_part (hn : x.part? p = some n) (hg : s[n]? = some g) (k : AccessKind) (v : Variable) :
    x.noted? s p k v = (g.value.store k).get? v := by
  rw [noted?, part?_info_of_part hn hg]
  rfl

theorem noted?_eq_none (hn : x.part? p = Option.none) (k : AccessKind) (v : Variable) :
    x.noted? s p k v = Option.none := by
  rw [noted?, part?_info, hn]
  rfl

end Places

/-- What a composition of `x` and `y` gives: an object at every place that holds the composition of the objects
there, which is the one of `x` if it may be changed, and a new one otherwise. Other objects are kept. -/
structure Composes (s : InfoShelf) (o : Observer) (x y r : HeldInfo) (s' : InfoShelf) : Prop where
  shaped : Shaped o r
  length : s.length ≤ s'.length
  kept : ∀ n g, s[n]? = some g → s'[n]? = some g ∨ g.frozen = false ∧ ∃ p m h, x.part? p = some n ∧
    y.part? p = some m ∧ s[m]? = some h ∧ s'[n]? = some (.fresh (g.value.compose h.value))
  parts : ∀ p l, r.part? p = some l → ∃ n m g h, x.part? p = some n ∧ y.part? p = some m ∧ s[n]? = some g ∧
    s[m]? = some h ∧ s'[l]? = some (.fresh (g.value.compose h.value)) ∧
      (l = n ∧ g.frozen = false ∨ s.length ≤ l)
  places : ∀ p n, x.part? p = some n → ∃ l, r.part? p = some l
  new : ∀ p q l, r.part? p = some l → r.part? q = some l → s.length ≤ l → p = q

section Checks

/-- All places with the numbers of their objects. -/
def places : HeldInfo → List (List Bool × Nat)
  | none => []
  | readWrite n => [([], n)]
  | pair x y => x.places.map (fun u => (false :: u.1, u.2)) ++ y.places.map fun u => (true :: u.1, u.2)

variable {s : InfoShelf} {x : HeldInfo} {xs : List HeldInfo} {p : List Bool} {n : Nat}

theorem mem_places (hn : x.part? p = some n) : (p, n) ∈ x.places := by
  induction x generalizing p with
  | none => simp at hn
  | readWrite m =>
      rw [part?_readWrite] at hn
      split at hn
      · simp_all [places]
      · cases hn
  | pair x y first second =>
      refine List.mem_append.2 ?_
      rcases part?_pair_cases hn with ⟨q, rfl, hq⟩ | ⟨q, rfl, hq⟩
      · exact .inl (List.mem_map.2 ⟨(q, n), first hq, rfl⟩)
      · exact .inr (List.mem_map.2 ⟨(q, n), second hq, rfl⟩)

theorem stocked_of_places (h : ∀ u ∈ x.places, (s[u.2]?).any fun g => g.value.Conditional) : x.Stocked s := by
  intro p n hn
  obtain ⟨g, hg, conditional⟩ := (Option.any_eq_true _ _).1 (h _ (mem_places hn))
  exact ⟨g, hg, of_decide_eq_true conditional⟩

theorem apart_of_places (h : ∀ x ∈ xs, ∀ y ∈ xs, ∀ u ∈ x.places, ∀ w ∈ y.places, u.2 = w.2 →
    u.1 = w.1 ∨ (s[u.2]?).any (·.frozen) = true) : Apart s xs := by
  intro x hx y hy p q n hp hq
  refine (h x hx y hy _ (mem_places hp) _ (mem_places hq) rfl).imp_right fun frozen => ?_
  exact (Option.any_eq_true _ _).1 frozen

end Checks

section Pairs

variable {s : InfoShelf} {o : Observer} {x x' y y' : HeldInfo} {p : List Bool} {n : Nat}

/-- Built alike, informations have the same places. -/
theorem Shaped.part? (hx : Shaped o x) (hy : Shaped o y) (hn : x.part? p = some n) : ∃ m, y.part? p = some m := by
  induction hx generalizing p y with
  | none => simp at hn
  | readWrite track k =>
      cases hy with
      | readWrite track m =>
          rw [part?_readWrite] at hn
          split at hn
          · rename_i here
            exact ⟨m, by rw [part?_readWrite, if_pos here]⟩
          · cases hn
  | pair _ _ first second =>
      cases hy with
      | pair hz hz' =>
          rcases part?_pair_cases hn with ⟨q, rfl, hq⟩ | ⟨q, rfl, hq⟩
          · have found := first hz hq
            exact found
          · have found := second hz' hq
            exact found

theorem Apart.firsts (h : Apart s [pair x x', pair y y']) : Apart s [x, y] := by
  have whole : ∀ a ∈ [x, y], ∃ b, pair a b ∈ [pair x x', pair y y'] := by simp
  intro a ha b hb p q n hp hq
  obtain ⟨a', ha⟩ := whole a ha
  obtain ⟨b', hb⟩ := whole b hb
  exact (h _ ha _ hb (false :: p) (false :: q) n hp hq).imp_left fun same => (List.cons.inj same).2

theorem Apart.seconds (h : Apart s [pair x x', pair y y']) : Apart s [x', y'] := by
  have whole : ∀ b ∈ [x', y'], ∃ a, pair a b ∈ [pair x x', pair y y'] := by simp
  intro a ha b hb p q n hp hq
  obtain ⟨a', ha⟩ := whole a ha
  obtain ⟨b', hb⟩ := whole b hb
  exact (h _ ha _ hb (true :: p) (true :: q) n hp hq).imp_left fun same => (List.cons.inj same).2

/-- What the first and the second parts have in common is frozen. -/
theorem Apart.across (h : Apart s [pair x x', pair y y']) {a b : HeldInfo} (ha : a ∈ [x, y]) (hb : b ∈ [x', y'])
    {p q : List Bool} (hp : a.part? p = some n) (hq : b.part? q = some n) {g : Guarded ReadWrite}
    (hg : s[n]? = some g) : g.frozen = true := by
  obtain ⟨a', ha⟩ : ∃ b, pair a b ∈ [pair x x', pair y y'] := by
    rcases List.mem_pair.1 ha with rfl | rfl
    · exact ⟨x', by simp⟩
    · exact ⟨y', by simp⟩
  obtain ⟨b', hb⟩ : ∃ a, pair a b ∈ [pair x x', pair y y'] := by
    rcases List.mem_pair.1 hb with rfl | rfl
    · exact ⟨x, by simp⟩
    · exact ⟨y, by simp⟩
  rcases h _ ha _ hb (false :: p) (true :: q) n hp hq with same | ⟨g', hg', frozen⟩
  · cases same
  · rwa [Option.some.inj (hg.symm.trans hg')]

end Pairs

section Single

variable {s : InfoShelf} {n m : Nat} {g h : Guarded ReadWrite}

/-- The composition of two objects. -/
theorem readWrite_composes (track : Variable → Bool) (hg : s[n]? = some g) (hh : s[m]? = some h) :
    ∃ r s', (readWrite n).compose s (readWrite m) = (.ok r, s') ∧
      Composes s (.readWrite track) (readWrite n) (readWrite m) r s' := by
  have lt := (List.getElem?_eq_some_iff.1 hg).1
  have unique : ∀ {l : Nat} {p q : List Bool} {i : Nat}, (readWrite l).part? p = some i →
      (readWrite l).part? q = some i → p = q := by
    intro l p q i hp hq
    rw [part?_readWrite] at hp hq
    split at hp
    · split at hq
      · rename_i hp' hq'
        rw [hp', hq']
      · cases hq
    · cases hp
  have here : ∀ {l i : Nat} {p : List Bool}, (readWrite l).part? p = some i → p = [] ∧ l = i := by
    intro l i p hp
    rw [part?_readWrite] at hp
    split at hp
    · exact ⟨‹_›, Option.some.inj hp⟩
    · cases hp
  have places : ∀ {k l i : Nat} {p : List Bool}, (readWrite l).part? p = some i →
      ∃ j, (readWrite k).part? p = some j := by
    intro k l i p hp
    obtain ⟨rfl, -⟩ := here hp
    exact ⟨k, rfl⟩
  unfold HeldInfo.compose
  rw [hg, hh]
  dsimp only
  cases frozen : g.frozen with
  | true =>
      refine ⟨_, _, rfl, .readWrite track _, by simp, fun i a ha => .inl ?_, fun p l hl => ?_, fun p i => places,
        fun p q l hp hq _ => unique hp hq⟩
      · rw [List.getElem?_append_left (List.getElem?_eq_some_iff.1 ha).1]
        exact ha
      · obtain ⟨rfl, rfl⟩ := here hl
        exact ⟨n, m, g, h, rfl, rfl, hg, hh, by simp, .inr (Nat.le_refl _)⟩
  | false =>
      have taken : g.takeOver (g.value.compose h.value) = .fresh (g.value.compose h.value) := by
        rw [Guarded.takeOver, frozen]
        rfl
      refine ⟨_, _, rfl, .readWrite track _, by simp, fun i a ha => ?_, fun p l hl => ?_, fun p i => places,
        fun p q l hp hq _ => unique hp hq⟩
      · by_cases same : n = i
        · subst same
          obtain rfl := Option.some.inj (hg.symm.trans ha)
          exact .inr ⟨frozen, [], m, h, rfl, rfl, hh, by simp [lt, taken]⟩
        · refine .inl ?_
          rw [List.getElem?_set_ne same]
          exact ha
      · obtain ⟨rfl, rfl⟩ := here hl
        exact ⟨_, m, g, h, rfl, rfl, hg, hh, by simp [lt, taken], .inl ⟨rfl, frozen⟩⟩

end Single

section Pairing

variable {s s₁ s₂ : InfoShelf} {o o' : Observer} {x x' y y' r r' : HeldInfo}

/-- The first composition leaves the second parts alone. -/
theorem Composes.kept_second (c : Composes s o x y r s₁) (apart : Apart s [pair x x', pair y y']) {b : HeldInfo}
    (hb : b ∈ [x', y']) {q : List Bool} {n : Nat} {g : Guarded ReadWrite} (hq : b.part? q = some n)
    (hg : s[n]? = some g) : s₁[n]? = some g := by
  refine (c.kept n g hg).resolve_right ?_
  rintro ⟨thawed, p, m, h, hp, -⟩
  rw [apart.across (by simp) hb hp hq hg] at thawed
  cases thawed

/-- Compositions of the first parts and then of the second ones make up the composition of pairs. -/
theorem Composes.pair (c : Composes s o x y r s₁) (c' : Composes s₁ o' x' y' r' s₂)
    (apart : Apart s [.pair x x', .pair y y']) (hx' : x'.Stocked s) (hy' : y'.Stocked s) :
    Composes s (.pair o o') (.pair x x') (.pair y y') (.pair r r') s₂ := by
  -- What stands in a second part was not touched by the first composition.
  have before : ∀ b ∈ [x', y'], b.Stocked s → ∀ {q n g}, b.part? q = some n → s₁[n]? = some g → s[n]? = some g := by
    intro b hb stocked q n g hq hg
    obtain ⟨g', hg', -⟩ := stocked q n hq
    rwa [← Option.some.inj ((c.kept_second apart hb hq hg').symm.trans hg)]
  have beforeX : ∀ {q n g}, x'.part? q = some n → s₁[n]? = some g → s[n]? = some g := before x' (by simp) hx'
  have beforeY : ∀ {q n g}, y'.part? q = some n → s₁[n]? = some g → s[n]? = some g := before y' (by simp) hy'
  refine ⟨.pair c.shaped c'.shaped, c.length.trans c'.length, fun n g hg => ?_, fun p l hl => ?_,
    fun p n hn => ?_, fun p q l hp hq new => ?_⟩
  · rcases c.kept n g hg with kept | ⟨thawed, p, m, h, hp, hm, hh, became⟩
    · refine (c'.kept n g kept).imp_right ?_
      rintro ⟨thawed, p, m, h, hp, hm, hh, became⟩
      exact ⟨thawed, true :: p, m, h, hp, hm, beforeY hm hh, became⟩
    · refine .inr ⟨thawed, false :: p, m, h, hp, hm, hh, (c'.kept n _ became).resolve_right ?_⟩
      rintro ⟨-, q, _, _, hq, -⟩
      rw [apart.across (by simp) (by simp) hp hq hg] at thawed
      cases thawed
  · rcases part?_pair_cases hl with ⟨q, rfl, hq⟩ | ⟨q, rfl, hq⟩
    · obtain ⟨n, m, g, h, hn, hm, hg, hh, became, whose⟩ := c.parts q l hq
      refine ⟨n, m, g, h, hn, hm, hg, hh, (c'.kept l _ became).resolve_right ?_, whose⟩
      rintro ⟨-, q', _, _, hq', -⟩
      rcases whose with ⟨rfl, thawed⟩ | new
      · rw [apart.across (by simp) (by simp) hn hq' hg] at thawed
        cases thawed
      · exact absurd (hx'.lt hq') (by omega)
    · obtain ⟨n, m, g, h, hn, hm, hg, hh, became, whose⟩ := c'.parts q l hq
      exact ⟨n, m, g, h, hn, hm, beforeX hn hg, beforeY hm hh, became, whose.imp_right c.length.trans⟩
  · rcases part?_pair_cases hn with ⟨q, rfl, hq⟩ | ⟨q, rfl, hq⟩
    · exact c.places q n hq
    · exact c'.places q n hq
  · have first : ∀ {p}, r.part? p = some l → l < s₁.length := by
      intro p hp
      obtain ⟨_, _, _, _, -, -, -, -, became, -⟩ := c.parts p l hp
      exact (List.getElem?_eq_some_iff.1 became).1
    have second : ∀ {q}, r'.part? q = some l → s₁.length ≤ l := by
      intro q hq
      obtain ⟨n, _, _, _, hn, -, -, -, -, ⟨rfl, -⟩ | new'⟩ := c'.parts q l hq
      · exact absurd (hx'.lt hn) (by omega)
      · exact new'
    rcases part?_pair_cases hp with ⟨p, rfl, hp⟩ | ⟨p, rfl, hp⟩ <;>
      rcases part?_pair_cases hq with ⟨q, rfl, hq⟩ | ⟨q, rfl, hq⟩
    · rw [c.new p q l hp hq new]
    · exact absurd (first hp) (by have := second hq; omega)
    · exact absurd (first hq) (by have := second hp; omega)
    · rw [c'.new p q l hp hq (second hp)]

end Pairing

/-- Compositions of informations that are built alike, part by part. -/
theorem compose_composes {s : InfoShelf} {o : Observer} {x y : HeldInfo} (hx : x.Fits s o) (hy : y.Fits s o)
    (apart : Apart s [x, y]) : ∃ r s', x.compose s y = (.ok r, s') ∧ Composes s o x y r s' := by
  obtain ⟨hx, stocked⟩ := hx
  obtain ⟨hy, stocked'⟩ := hy
  induction hx generalizing s y with
  | none =>
      cases hy
      exact ⟨none, s, rfl, .none, Nat.le_refl _, fun _ _ hg => .inl hg, by simp, by simp, by simp⟩
  | readWrite track n =>
      cases hy with
      | readWrite track m =>
          obtain ⟨g, hg, -⟩ := stocked [] n rfl
          obtain ⟨h, hh, -⟩ := stocked' [] m rfl
          exact readWrite_composes track hg hh
  | @pair o o' x x' hx hx' first second =>
      cases hy with
      | @pair _ _ y y' hy hy' =>
          obtain ⟨r, s₁, run, c⟩ := first apart.firsts stocked.first hy stocked'.first
          have stays : ∀ b ∈ [x', y'], b.Stocked s → b.Stocked s₁ := by
            intro b hb stocked q n hq
            obtain ⟨g, hg, conditional⟩ := stocked q n hq
            exact ⟨g, c.kept_second apart hb hq hg, conditional⟩
          have apart' : Apart s₁ [x', y'] := by
            intro a ha b hb p q n hp hq
            refine (apart.seconds a ha b hb p q n hp hq).imp_right ?_
            rintro ⟨g, hg, frozen⟩
            exact ⟨g, c.kept_second apart ha hp hg, frozen⟩
          obtain ⟨r', s₂, run', c'⟩ := second apart' (stays x' (by simp) stocked.second) hy'
            (stays y' (by simp) stocked'.second)
          refine ⟨.pair r r', s₂, ?_, c.pair c' apart stocked.second stocked'.second⟩
          unfold HeldInfo.compose
          rw [run]
          dsimp only
          rw [run']

end HeldInfo

end DeltaSlice
