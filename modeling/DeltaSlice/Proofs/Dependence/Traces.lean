import DeltaSlice.Proofs.Dependence.Acts
import Mathlib.Data.List.Induction
import Mathlib.Data.Set.Lattice

/-!
Data flow along a single sequence of accesses. A variable is reached by its last write, unless it was
forgotten since; performing the accesses one by one on what a graph says about data computes just
that.
-/

namespace DeltaSlice

namespace Dependence

open Pdg

/-- The act writes the variable or forgets it. -/
def Act.Changes (x : Act) (v : Variable) : Prop :=
  (∃ a, x = .write v a) ∨ ∃ what : Forgetting, x = .forget what ∧ what.drops v = true

/-- The node `a` made the last write of `v`, and `v` was not forgotten since. -/
def Defines (trace : List Act) (v : Variable) (a : String) : Prop :=
  ∃ before after, trace = before ++ .write v a :: after ∧ ∀ x ∈ after, ¬ x.Changes v

/-- There was no write of `v` since the start or since `v` was last forgotten. -/
def Untouched (trace : List Act) (v : Variable) : Prop :=
  ∃ before after, trace = before ++ after ∧
    (before = [] ∨ ∃ earlier what, before = earlier ++ [.forget what] ∧ what.drops v = true) ∧
    ∀ x ∈ after, ¬ x.Changes v

/-- What is said about data: data edges and reaching definitions. -/
def IsFlow : Fact → Prop
  | .edge k _ _ => k = .data
  | .reaches .. => True
  | .node _ => False

def flows (X : Set Fact) : Set Fact := {f | f ∈ X ∧ IsFlow f}

/-- The effect of an act on what is said about data. -/
def Act.carry (X : Set Fact) : Act → Set Fact
  | make _ => X
  | read v a => X ∪ {f | ∃ d, .reaches v d ∈ X ∧ f = .edge .data (sourceOf v d) (.statement a)}
  | write v a => {f | (f ∈ X ∧ ¬ f.Tells v) ∨ f = .reaches v (some (.statement a))}
  | forget what => {f | (f ∈ X ∧ ∀ v, what.drops v = true → ¬ f.Tells v) ∨
      ∃ v, what.drops v = true ∧ f = .reaches v none}

theorem flows_apply (X : Set Fact) (x : Act) : flows (x.apply X) = x.carry (flows X) := by
  ext f
  cases x with
  | make a =>
      simp only [flows, Act.apply, Act.carry, Set.mem_union, Set.mem_singleton_iff,
        Set.mem_ofPred_eq]
      constructor
      · intro h
        cases h.1 with
        | inl hf => exact ⟨hf, h.2⟩
        | inr hf =>
            subst hf
            exact h.2.elim
      · intro h
        exact ⟨.inl h.1, h.2⟩
  | read v a =>
      simp only [flows, Act.apply, Act.carry, readFacts, Set.mem_union, Set.mem_ofPred_eq]
      constructor
      · intro h
        cases h.1 with
        | inl hf => exact .inl ⟨hf, h.2⟩
        | inr hf =>
            cases hf with
            | inl hf =>
                have := hf.2 ▸ h.2
                exact this.elim
            | inr hf =>
                obtain ⟨d, hd, hf⟩ := hf
                exact .inr ⟨d, ⟨hd, trivial⟩, hf⟩
      · intro h
        cases h with
        | inl hf => exact ⟨.inl hf.1, hf.2⟩
        | inr hf =>
            obtain ⟨d, hd, rfl⟩ := hf
            exact ⟨.inr (.inr ⟨d, hd.1, rfl⟩), rfl⟩
  | write v a =>
      simp only [flows, Act.apply, Act.carry, Set.mem_ofPred_eq]
      constructor
      · intro h
        cases h.1 with
        | inl hf => exact .inl ⟨⟨hf.1, h.2⟩, hf.2⟩
        | inr hf => exact .inr hf
      · intro h
        cases h with
        | inl hf => exact ⟨.inl ⟨hf.1.1, hf.2⟩, hf.1.2⟩
        | inr hf => exact ⟨.inr hf, hf ▸ trivial⟩
  | forget what =>
      simp only [flows, Act.apply, Act.carry, Set.mem_ofPred_eq]
      constructor
      · intro h
        cases h.1 with
        | inl hf => exact .inl ⟨⟨hf.1, h.2⟩, hf.2⟩
        | inr hf => exact .inr hf
      · intro h
        cases h with
        | inl hf => exact ⟨.inl ⟨hf.1.1, hf.2⟩, hf.1.2⟩
        | inr hf =>
            obtain ⟨v, hv, rfl⟩ := hf
            exact ⟨.inr ⟨v, hv, rfl⟩, trivial⟩

theorem flows_foldl (X : Set Fact) (xs : List Act) :
    flows (xs.foldl Act.apply X) = xs.foldl Act.carry (flows X) := by
  induction xs generalizing X with
  | nil => rfl
  | cons x xs ih => rw [List.foldl_cons, List.foldl_cons, ih, flows_apply]

/-- Nodes that are only asked for play no part. -/
theorem carry_accesses (X : Set Fact) (xs : List Act) :
    xs.foldl Act.carry X = (xs.filter Act.isAccess).foldl Act.carry X := by
  induction xs generalizing X with
  | nil => rfl
  | cons x xs ih =>
      cases x with
      | make a => exact ih X
      | read v a | write v a | forget what => exact ih _

theorem carry_union (x : Act) (F : Set (Set Fact)) (hF : F.Nonempty) :
    x.carry (⋃₀ F) = ⋃₀ ((fun X => x.carry X) '' F) := by
  obtain ⟨X₀, hX₀⟩ := hF
  ext f
  simp only [Set.sUnion_image, Set.mem_iUnion, exists_prop]
  cases x with
  | make a => exact Set.mem_sUnion
  | read v a =>
      simp only [Act.carry, Set.mem_union, Set.mem_sUnion, Set.mem_ofPred_eq]
      grind
  | write v a =>
      simp only [Act.carry, Set.mem_sUnion, Set.mem_ofPred_eq]
      grind
  | forget what =>
      simp only [Act.carry, Set.mem_sUnion, Set.mem_ofPred_eq]
      grind

theorem foldl_carry_union (xs : List Act) (F : Set (Set Fact)) (hF : F.Nonempty) :
    xs.foldl Act.carry (⋃₀ F) = ⋃₀ ((fun X => xs.foldl Act.carry X) '' F) := by
  induction xs generalizing F with
  | nil => simp
  | cons x xs ih =>
      rw [List.foldl_cons, carry_union x F hF, ih _ (hF.image _), Set.image_image]
      rfl

section Last

variable {trace : List Act} {v : Variable} {x : Act}

@[simp] theorem changes_make {a : String} : ¬ (Act.make a).Changes v := by
  simp [Act.Changes]

@[simp] theorem changes_read {w : Variable} {a : String} : ¬ (Act.read w a).Changes v := by
  simp [Act.Changes]

@[simp] theorem changes_write {w : Variable} {a : String} :
    (Act.write w a).Changes v ↔ w = v := by
  simp [Act.Changes]

@[simp] theorem changes_forget {what : Forgetting} :
    (Act.forget what).Changes v ↔ what.drops v = true := by
  simp [Act.Changes]

theorem defines_nil {a : String} : ¬ Defines [] v a := by
  intro h
  obtain ⟨before, after, h, -⟩ := h
  simp at h

theorem defines_snoc {a : String} :
    Defines (trace ++ [x]) v a ↔ x = .write v a ∨ (¬ x.Changes v ∧ Defines trace v a) := by
  constructor
  · intro h
    obtain ⟨before, after, heq, hafter⟩ := h
    induction after using List.reverseRecOn with
    | nil =>
        have := List.append_inj_right' heq rfl
        exact .inl (List.singleton_inj.1 this)
    | append_singleton after y _ =>
        rw [← List.cons_append, ← List.append_assoc] at heq
        obtain ⟨hpre, hlast⟩ := List.append_inj' heq rfl
        obtain rfl := List.singleton_inj.1 hlast
        refine .inr ⟨hafter x (by simp), before, after, hpre, ?_⟩
        intro y hy
        exact hafter y (by simp [hy])
  · intro h
    cases h with
    | inl h =>
        subst h
        exact ⟨trace, [], rfl, by simp⟩
    | inr h =>
        obtain ⟨hx, before, after, rfl, hafter⟩ := h
        refine ⟨before, after ++ [x], by simp, ?_⟩
        intro y hy
        cases List.mem_append.1 hy with
        | inl hy => exact hafter y hy
        | inr hy => exact List.mem_singleton.1 hy ▸ hx

theorem untouched_nil : Untouched [] v := ⟨[], [], rfl, .inl rfl, by simp⟩

theorem untouched_snoc : Untouched (trace ++ [x]) v ↔
    (∃ what : Forgetting, x = .forget what ∧ what.drops v = true) ∨
      (¬ x.Changes v ∧ Untouched trace v) := by
  constructor
  · intro h
    obtain ⟨before, after, heq, hbefore, hafter⟩ := h
    induction after using List.reverseRecOn with
    | nil =>
        rw [List.append_nil] at heq
        cases hbefore with
        | inl hnil => simp [hnil] at heq
        | inr hlast =>
            obtain ⟨earlier, what, rfl, hdrops⟩ := hlast
            have := List.append_inj_right' heq rfl
            exact .inl ⟨what, List.singleton_inj.1 this, hdrops⟩
    | append_singleton after y _ =>
        rw [← List.append_assoc] at heq
        obtain ⟨hpre, hlast⟩ := List.append_inj' heq rfl
        obtain rfl := List.singleton_inj.1 hlast
        refine .inr ⟨hafter x (by simp), before, after, hpre, hbefore, ?_⟩
        intro y hy
        exact hafter y (by simp [hy])
  · intro h
    cases h with
    | inl h =>
        obtain ⟨what, rfl, hdrops⟩ := h
        exact ⟨trace ++ [.forget what], [], by simp, .inr ⟨trace, what, rfl, hdrops⟩, by simp⟩
    | inr h =>
        obtain ⟨hx, before, after, rfl, hbefore, hafter⟩ := h
        refine ⟨before, after ++ [x], by simp, hbefore, ?_⟩
        intro y hy
        cases List.mem_append.1 hy with
        | inl hy => exact hafter y hy
        | inr hy => exact List.mem_singleton.1 hy ▸ hx

end Last

/-- Before any access every variable comes from before the transition. -/
def fresh : Set Fact := {f | ∃ v, f = .reaches v none}

/-- The definition `d` of `v` is the one that reaches the end of the trace. -/
def Reaches (trace : List Act) (v : Variable) : Option NodeId → Prop
  | some b => ∃ a, b = .statement a ∧ Defines trace v a
  | none => Untouched trace v

/-- The act makes `d` the definition of `v`. -/
def Act.Sets (x : Act) (v : Variable) (d : Option NodeId) : Prop :=
  (∃ a, x = .write v a ∧ d = some (.statement a)) ∨
    ∃ what : Forgetting, x = .forget what ∧ what.drops v = true ∧ d = none

theorem reaches_snoc (trace : List Act) (x : Act) (v : Variable) (d : Option NodeId) :
    Reaches (trace ++ [x]) v d ↔ x.Sets v d ∨ (¬ x.Changes v ∧ Reaches trace v d) := by
  cases d with
  | none => simp [Reaches, untouched_snoc, Act.Sets]
  | some b =>
      simp only [Reaches, defines_snoc, Act.Sets, Option.some.injEq, reduceCtorEq, and_false,
        exists_false, or_false]
      constructor
      · intro h
        obtain ⟨a, rfl, h⟩ := h
        cases h with
        | inl h => exact .inl ⟨a, h, rfl⟩
        | inr h => exact .inr ⟨h.1, a, rfl, h.2⟩
      · intro h
        cases h with
        | inl h =>
            obtain ⟨a, hx, rfl⟩ := h
            exact ⟨a, rfl, .inl hx⟩
        | inr h =>
            obtain ⟨hx, a, rfl, h⟩ := h
            exact ⟨a, rfl, .inr ⟨hx, h⟩⟩

theorem carry_reaches (X : Set Fact) (x : Act) (v : Variable) (d : Option NodeId) :
    .reaches v d ∈ x.carry X ↔ x.Sets v d ∨ (¬ x.Changes v ∧ .reaches v d ∈ X) := by
  cases x with
  | make a => simp [Act.carry, Act.Sets]
  | read w a => simp [Act.carry, Act.Sets]
  | write w a =>
      simp only [Act.carry, Act.Sets, Set.mem_ofPred_eq, tells_reaches, Fact.reaches.injEq,
        Act.write.injEq, reduceCtorEq, false_and, exists_false, or_false, changes_write]
      grind
  | forget what =>
      simp only [Act.carry, Act.Sets, Set.mem_ofPred_eq, tells_reaches, Fact.reaches.injEq,
        Act.forget.injEq, reduceCtorEq, false_and, exists_false, false_or, changes_forget]
      grind

theorem reaches_iff (trace : List Act) (v : Variable) (d : Option NodeId) :
    .reaches v d ∈ trace.foldl Act.carry fresh ↔ Reaches trace v d := by
  induction trace using List.reverseRecOn with
  | nil =>
      cases d with
      | none => exact iff_of_true ⟨v, rfl⟩ untouched_nil
      | some b => simp [fresh, Reaches, defines_nil]
  | append_singleton trace x ih =>
      rw [List.foldl_append, List.foldl_cons, List.foldl_nil, carry_reaches, reaches_snoc, ih]

/-- The node `b` reads a variable with the definition `d`. -/
def ReadsFrom (trace : List Act) (v : Variable) (d : Option NodeId) (b : String) : Prop :=
  ∃ before after, trace = before ++ .read v b :: after ∧ Reaches before v d

theorem readsFrom_snoc (trace : List Act) (x : Act) (v : Variable) (d : Option NodeId)
    (b : String) : ReadsFrom (trace ++ [x]) v d b ↔
      ReadsFrom trace v d b ∨ (x = .read v b ∧ Reaches trace v d) := by
  constructor
  · intro h
    obtain ⟨before, after, heq, hreach⟩ := h
    induction after using List.reverseRecOn with
    | nil =>
        obtain ⟨hpre, hlast⟩ := List.append_inj' heq rfl
        exact .inr ⟨List.singleton_inj.1 hlast, hpre ▸ hreach⟩
    | append_singleton after y _ =>
        rw [← List.cons_append, ← List.append_assoc] at heq
        obtain ⟨hpre, -⟩ := List.append_inj' heq rfl
        exact .inl ⟨before, after, hpre, hreach⟩
  · intro h
    cases h with
    | inl h =>
        obtain ⟨before, after, rfl, hreach⟩ := h
        exact ⟨before, after ++ [x], by simp, hreach⟩
    | inr h => exact ⟨trace, [], by rw [h.1], h.2⟩

theorem carry_edge (X : Set Fact) (x : Act) (k : EdgeKind) (a b : NodeId) :
    .edge k a b ∈ x.carry X ↔ .edge k a b ∈ X ∨
      ∃ v d n, x = .read v n ∧ .reaches v d ∈ X ∧ k = .data ∧ a = sourceOf v d ∧
        b = .statement n := by
  cases x with
  | make n => simp [Act.carry]
  | read v n =>
      simp only [Act.carry, Set.mem_union, Set.mem_ofPred_eq, Fact.edge.injEq, Act.read.injEq]
      grind
  | write v n => simp [Act.carry]
  | forget what => simp [Act.carry]

/-- The data edges after a trace: one for every read and each definition that reaches it. -/
theorem edge_iff (trace : List Act) (k : EdgeKind) (a b : NodeId) :
    .edge k a b ∈ trace.foldl Act.carry fresh ↔
      k = .data ∧ ∃ v d n, a = sourceOf v d ∧ b = .statement n ∧ ReadsFrom trace v d n := by
  induction trace using List.reverseRecOn with
  | nil => simp [fresh, ReadsFrom]
  | append_singleton trace x ih =>
      rw [List.foldl_append, List.foldl_cons, List.foldl_nil, carry_edge, ih]
      simp only [readsFrom_snoc, reaches_iff]
      grind

theorem sourceOf_eq_statement {v : Variable} {d : Option NodeId} {a : String} :
    sourceOf v d = .statement a ↔ d = some (.statement a) := by
  cases d <;> simp [sourceOf]

theorem readsFrom_statement (trace : List Act) (a b : String) :
    (∃ v d n, .statement a = sourceOf v d ∧ NodeId.statement b = .statement n ∧
      ReadsFrom trace v d n) ↔
      ∃ v before after, trace = before ++ .read v b :: after ∧ Defines before v a := by
  constructor
  · intro h
    obtain ⟨v, d, n, ha, hb, before, after, heq, hreach⟩ := h
    obtain rfl := sourceOf_eq_statement.1 ha.symm
    obtain rfl := NodeId.statement.inj hb
    obtain ⟨a', ha', hdef⟩ := hreach
    obtain rfl := NodeId.statement.inj ha'
    exact ⟨v, before, after, heq, hdef⟩
  · intro h
    obtain ⟨v, before, after, heq, hdef⟩ := h
    exact ⟨v, some (.statement a), b, rfl, rfl, before, after, heq, a, rfl, hdef⟩

theorem readsFrom_input (trace : List Act) (v : Variable) (b : String) :
    (∃ w d n, .input v = sourceOf w d ∧ NodeId.statement b = .statement n ∧
      ReadsFrom trace w d n) ↔
      ∃ before after, trace = before ++ .read v b :: after ∧ Untouched before v := by
  constructor
  · intro h
    obtain ⟨w, d, n, hv, hb, before, after, heq, hreach⟩ := h
    obtain rfl := NodeId.statement.inj hb
    cases d with
    | none =>
        obtain rfl := NodeId.input.inj hv
        exact ⟨before, after, heq, hreach⟩
    | some c =>
        obtain ⟨a, rfl, -⟩ := hreach
        cases hv
  · intro h
    obtain ⟨before, after, heq, huntouched⟩ := h
    exact ⟨v, none, b, rfl, rfl, before, after, heq, huntouched⟩

section Written

variable {v : Variable} {a b : String} {trace : List Act}

/-- What the last of some acts to change a variable writes. -/
theorem defines_append (before : List Act) {xs : List Act} (hwrite : .write v a ∈ xs)
    (honly : ∀ x ∈ xs, x.Changes v → x = .write v a) : Defines (before ++ xs) v a := by
  induction xs using List.reverseRecOn with
  | nil => cases hwrite
  | append_singleton xs x ih =>
      rw [← List.append_assoc, defines_snoc]
      by_cases hx : x = .write v a
      · exact .inl hx
      · refine .inr ⟨fun hc => hx (honly x (by simp) hc), ih ?_ ?_⟩
        · simpa [eq_comm, hx] using hwrite
        · intro y hy
          exact honly y (by simp [hy])

theorem defines_append_of_unchanged {xs : List Act} (h : Defines trace v a)
    (hxs : ∀ x ∈ xs, ¬ x.Changes v) : Defines (trace ++ xs) v a := by
  obtain ⟨before, after, rfl, hafter⟩ := h
  refine ⟨before, after ++ xs, by simp, ?_⟩
  intro x hx
  exact (List.mem_append.1 hx).elim (hafter x) (hxs x)

theorem edge_mem_foldl {k : EdgeKind} {x y : NodeId} (xs : List Act) {X : Set Fact}
    (h : .edge k x y ∈ X) : .edge k x y ∈ xs.foldl Act.carry X := by
  induction xs generalizing X with
  | nil => exact h
  | cons x xs ih => exact ih ((carry_edge _ _ _ _ _).2 (.inl h))

/-- What was written last is the only definition that reaches, whatever was said at the start. -/
theorem reaches_of_defines (X : Set Fact) (h : Defines trace v a) (d : Option NodeId) :
    .reaches v d ∈ trace.foldl Act.carry X ↔ d = some (.statement a) := by
  induction trace using List.reverseRecOn with
  | nil => exact absurd h defines_nil
  | append_singleton trace x ih =>
      rw [List.foldl_append, List.foldl_cons, List.foldl_nil, carry_reaches]
      cases defines_snoc.1 h with
      | inl hx =>
          subst hx
          simp [Act.Sets]
      | inr hx =>
          have hsets : ¬ x.Sets v d := fun hs => hx.1 (hs.imp
            (fun ⟨a, hwrite, _⟩ => ⟨a, hwrite⟩) fun ⟨what, hforget, hdrops, _⟩ => ⟨what, hforget, hdrops⟩)
          simp [hsets, hx.1, ih hx.2]

/-- A read of what was written before gives a data edge, whatever was said at the start. -/
theorem edge_of_defines (X : Set Fact) {before after : List Act} (h : Defines before v a) :
    .edge .data (.statement a) (.statement b) ∈ (before ++ .read v b :: after).foldl Act.carry X := by
  rw [List.foldl_append, List.foldl_cons]
  refine edge_mem_foldl after ((carry_edge _ _ _ _ _).2 (.inr ?_))
  exact ⟨v, some (.statement a), b, rfl, (reaches_of_defines X h _).2 rfl, rfl, rfl, rfl⟩

theorem untouched_of_reaches {X : Set Fact} (h : .reaches v none ∈ trace.foldl Act.carry X) :
    Untouched trace v := by
  induction trace using List.reverseRecOn with
  | nil => exact untouched_nil
  | append_singleton trace x ih =>
      rw [List.foldl_append, List.foldl_cons, List.foldl_nil, carry_reaches] at h
      rw [untouched_snoc]
      rcases h with (⟨a, -, hd⟩ | ⟨what, hx, hdrops, -⟩) | ⟨hx, h⟩
      · cases hd
      · exact .inl ⟨what, hx, hdrops⟩
      · exact .inr ⟨hx, ih h⟩

/-- All definitions are statements. -/
def Statements (X : Set Fact) : Prop := ∀ v c, .reaches v (some c) ∈ X → ∃ a, c = .statement a

theorem Statements.carried {X : Set Fact} (h : Statements X) (xs : List Act) :
    Statements (xs.foldl Act.carry X) := by
  induction xs generalizing X with
  | nil => exact h
  | cons x xs ih =>
      refine ih fun v c hc => ?_
      rcases (carry_reaches _ _ _ _).1 hc with (⟨a, -, ha⟩ | ⟨_, -, -, hnone⟩) | ⟨-, hc⟩
      · exact ⟨a, Option.some.inj ha⟩
      · cases hnone
      · exact h v c hc

/-- A data edge from an input node was there at the start, or comes from a read with no definition on
the trace. -/
theorem edge_input_cases {X : Set Fact} (hX : Statements X)
    (h : .edge .data (.input v) (.statement b) ∈ trace.foldl Act.carry X) :
    .edge .data (.input v) (.statement b) ∈ X ∨
      ∃ before after, trace = before ++ .read v b :: after ∧ Untouched before v := by
  induction trace using List.reverseRecOn with
  | nil => exact .inl h
  | append_singleton trace x ih =>
      rw [List.foldl_append, List.foldl_cons, List.foldl_nil, carry_edge] at h
      rcases h with h | ⟨w, d, n, rfl, hreach, -, hv, hb⟩
      · refine (ih h).imp_right ?_
        rintro ⟨before, after, rfl, hbefore⟩
        exact ⟨before, after ++ [x], by simp, hbefore⟩
      · obtain rfl := NodeId.statement.inj hb
        cases d with
        | none =>
            obtain rfl := NodeId.input.inj hv
            exact .inr ⟨trace, [], rfl, untouched_of_reaches hreach⟩
        | some c =>
            obtain ⟨a, rfl⟩ := hX.carried trace w c hreach
            cases hv

end Written

end Dependence

end DeltaSlice
