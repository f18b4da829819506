import DeltaSlice.Proofs.Step.Disciplines
import DeltaSlice.Proofs.Termination.Finite

/-!
The values that code can come up with. Event lists are told from each other by numbers, of which there is no
end; without these numbers one operation makes finitely many values from finitely many, so what can stand at
a height is finite.
-/

namespace DeltaSlice

namespace Value

/-- The value without the number of its event list. -/
def unnumbered : Value → Value
  | known (.events _ l) => known (.events 0 l)
  | x => x

variable {x y : Value}

@[simp] theorem unnumbered_unknown : unknown.unnumbered = unknown := rfl

@[simp] theorem unnumbered_lit (l : Literal) : (lit l).unnumbered = lit l := rfl

@[simp] theorem unnumbered_bool (b : Bool) : (bool b).unnumbered = bool b := rfl

@[simp] theorem unnumbered_int (n : Int64) : (int n).unnumbered = int n := rfl

/-- A value is an event list, or it has no number. -/
theorem unnumbered_cases (x : Value) : (∃ n l, x = known (.events n l)) ∨ x.unnumbered = x := by
  cases x with
  | unknown => exact .inr rfl
  | known p =>
      cases p with
      | events n l => exact .inl ⟨n, l, rfl⟩
      | _ => exact .inr rfl

theorem key_unnumbered (x : Value) : x.unnumbered.key = x.key := by
  rcases x.unnumbered_cases with ⟨n, l, rfl⟩ | same
  · rfl
  · rw [same]

theorem asEvent?_unnumbered (x : Value) : x.unnumbered.asEvent? = x.asEvent? := by
  rcases x.unnumbered_cases with ⟨n, l, rfl⟩ | same
  · rfl
  · rw [same]

/-- What gives an instance is that instance. -/
theorem eq_of_asInstance? {i : Instance} (h : x.asInstance? = some i) : x = lit (.inst i) := by
  unfold asInstance? at h
  split at h
  · exact Option.some.inj h ▸ rfl
  · cases h

theorem eq_of_asEvent? {e : Event} (h : x.asEvent? = some e) : x = lit (.event e) := by
  unfold asEvent? at h
  split at h
  · exact Option.some.inj h ▸ rfl
  · cases h

/-- A truth value, or nothing that is known. -/
def IsLogical (x : Value) : Prop := x = unknown ∨ ∃ b, x = bool b

theorem isLogical_and (x y : Value) : (x.and y).IsLogical := by
  unfold Value.and
  split
  · exact .inr ⟨_, rfl⟩
  · split
    · exact .inr ⟨_, rfl⟩
    · exact .inl rfl

theorem isLogical_or (x y : Value) : (x.or y).IsLogical := by
  unfold Value.or
  split
  · exact .inr ⟨_, rfl⟩
  · split
    · exact .inr ⟨_, rfl⟩
    · exact .inl rfl

/-- Operations do not look at the numbers of event lists, but for comparisons, which give truth values. -/
theorem apply_unnumbered (op : BinaryOp) (x y : Value) :
    (apply op x y).IsLogical ∨ (apply op x y).unnumbered = apply op x.unnumbered y.unnumbered := by
  have compared : ∀ {c : Prop} [Decidable c] {b : Bool}, (if c then bool b else unknown).IsLogical := by
    intro c _ b
    split
    · exact .inr ⟨_, rfl⟩
    · exact .inl rfl
  by_cases logical : op = .and ∨ op = .or ∨ op = .eq ∨ op = .ne
  · refine .inl ?_
    rcases logical with rfl | rfl | rfl | rfl
    · exact isLogical_and x y
    · exact isLogical_or x y
    · exact compared
    · exact compared
  · simp only [not_or] at logical
    obtain ⟨noAnd, noOr, noEq, noNe⟩ := logical
    have none : ∀ n l (z : Value), apply op (known (.events n l)) z = unknown ∧
        apply op z (known (.events n l)) = unknown := by
      intro n l z
      have right : ∀ p, apply op (known p) (known (.events n l)) = unknown := by
        intro p
        cases op <;> first | contradiction | cases p <;> first | rfl | (rename_i k; cases k <;> rfl)
      cases z with
      | unknown => cases op <;> first | contradiction | exact ⟨rfl, rfl⟩
      | known p => exact ⟨by cases op <;> first | contradiction | rfl, right p⟩
    rcases x.unnumbered_cases with ⟨n, l, rfl⟩ | sameX
    · exact .inl (.inl (none n l y).1)
    · rcases y.unnumbered_cases with ⟨n, l, rfl⟩ | sameY
      · exact .inl (.inl (none n l x).2)
      · refine .inr ?_
        rw [sameX, sameY]
        rcases Value.IsSimple.apply op x y with unknown | ⟨l, literal, -⟩
        · rw [unknown]
          rfl
        · rw [literal]
          rfl

theorem applyUnary_unnumbered (op : UnaryOp) (x : Value) :
    (applyUnary op x).unnumbered = applyUnary op x.unnumbered := by
  have plain : (applyUnary op x).unnumbered = applyUnary op x := by
    rcases Value.IsSimple.applyUnary op x with unknown | ⟨l, literal, -⟩
    · rw [unknown]
      rfl
    · rw [literal]
      rfl
  rw [plain]
  rcases x.unnumbered_cases with ⟨n, l, rfl⟩ | same
  · cases op <;> rfl
  · rw [same]

end Value

theorem Simulator.eventList?_unnumbered (choice : Bool) (x y : Value) :
    eventList? choice x.unnumbered y.unnumbered = eventList? choice x y := by
  unfold eventList?
  rw [y.asEvent?_unnumbered]
  rcases x.unnumbered_cases with ⟨n, l, rfl⟩ | same
  · cases y.asEvent? <;> rfl
  · rw [same]

namespace System

variable {sys : System} {X Y : Set Value} {x y : Value}

/-- The values that one operation of the code makes from others, without numbers. -/
def results (sys : System) (X : Set Value) : Set Value :=
  {z | ∃ x ∈ X, ∃ y ∈ X, (∃ id op e, .unary id op e ∈ sys.code ∧ z = .applyUnary op x) ∨
    (∃ id op e e', .binary id op e e' ∈ sys.code ∧ z = .apply op x y) ∨
    ∃ choice l, Simulator.eventList? choice x y = some l ∧ z = .known (.events 0 l)}

theorem results_finite (finite : X.Finite) : (sys.results X).Finite := by
  have unary : Function.Injective fun w : Nat × UnaryOp × Expr => Expr.unary w.1 w.2.1 w.2.2 := by
    rintro ⟨id, op, e⟩ ⟨id', op', e'⟩ same
    simpa using same
  have binary : Function.Injective fun w : Nat × BinaryOp × Expr × Expr =>
      Expr.binary w.1 w.2.1 w.2.2.1 w.2.2.2 := by
    rintro ⟨id, op, e, f⟩ ⟨id', op', e', f'⟩ same
    simpa using same
  have pairs := finite.prod finite
  have unaries := ((sys.code_finite.preimage unary.injOn).prod finite).image fun w => Value.applyUnary w.1.2.1 w.2
  have binaries := ((sys.code_finite.preimage binary.injOn).prod pairs).image
    fun w => Value.apply w.1.2.1 w.2.1 w.2.2
  have booleans : (Set.univ : Set Bool).Finite := Set.finite_univ
  have lists := ((booleans.prod pairs).image fun w => Simulator.eventList? w.1 w.2.1 w.2.2).preimage
    (Option.some_injective _).injOn
  refine (unaries.union (binaries.union (lists.image fun l => Value.known (.events 0 l)))).subset ?_
  rintro z ⟨x, hx, y, hy, ⟨id, op, e, he, rfl⟩ | ⟨id, op, e, e', he, rfl⟩ | ⟨choice, l, hl, rfl⟩⟩
  · exact .inl ⟨((id, op, e), x), ⟨he, hx⟩, rfl⟩
  · exact .inr (.inl ⟨((id, op, e, e'), x, y), ⟨he, hx, hy⟩, rfl⟩)
  · exact .inr (.inr ⟨l, ⟨(choice, x, y), ⟨trivial, hx, hy⟩, hl⟩, rfl⟩)

/-- The values that so many operations in a row make from those at hand. -/
def stage (sys : System) (X : Set Value) : Nat → Set Value
  | 0 => X
  | n + 1 => sys.stage X n ∪ sys.results (sys.stage X n)

theorem stage_finite (finite : X.Finite) (n : Nat) : (sys.stage X n).Finite := by
  induction n with
  | zero => exact finite
  | succ n ih => exact ih.union (results_finite ih)

theorem stage_mono {m n : Nat} (h : m ≤ n) : sys.stage X m ⊆ sys.stage X n := by
  induction h with
  | refl => exact subset_rfl
  | step _ ih => exact ih.trans Set.subset_union_left

theorem base_subset_stage (n : Nat) : X ⊆ sys.stage X n := stage_mono (Nat.zero_le n)

/-- No operation makes targets of assignments or instances. -/
theorem mem_base_of_stage {n : Nat} (h : x ∈ sys.stage X n)
    (given : (∃ i, x = .lit (.inst i)) ∨ ∃ v, x = .known (.target v)) : x ∈ X := by
  induction n with
  | zero => exact h
  | succ n ih =>
      refine h.elim ih ?_
      rintro ⟨y, -, z, -, ⟨id, op, e, -, rfl⟩ | ⟨id, op, e, e', -, rfl⟩ | ⟨choice, l, -, rfl⟩⟩
      · exfalso
        rcases given with ⟨i, same⟩ | ⟨v, same⟩
        · have none : (Value.applyUnary op y).asInstance? = none := Value.asInstance?_applyUnary
          rw [same] at none
          cases none
        · rcases Value.IsSimple.applyUnary op y with simple | ⟨l, simple, -⟩
          · cases simple.symm.trans same
          · cases simple.symm.trans same
      · exfalso
        rcases given with ⟨i, same⟩ | ⟨v, same⟩
        · have none : (Value.apply op y z).asInstance? = none := Value.asInstance?_apply
          rw [same] at none
          cases none
        · rcases Value.IsSimple.apply op y z with simple | ⟨l, simple, -⟩
          · cases simple.symm.trans same
          · cases simple.symm.trans same
      · rcases given with ⟨i, same⟩ | ⟨v, same⟩
        · cases same
        · cases same

end System

/-- Delays are numbers of one word. -/
theorem Delay.finite : (Set.univ : Set Delay).Finite := by
  have all := (Set.finite_univ (α := Int64)).image Delay.time
  refine (all.insert .delta).subset fun d _ => ?_
  cases d with
  | delta => exact .inl rfl
  | time n => exact .inr ⟨n, trivial, rfl⟩

/-- What is at hand while code runs: values to begin with, the call stacks that may come up, and the length of lists
to begin with. -/
structure Stock where
  values : Set Value
  calls : Set (List Routine)
  width : Nat

namespace Stock

variable (K : Stock) (sys : System)

/-- The instances that the code speaks of, or that are at hand. -/
def instances : Set Instance := {i | .lit (.inst i) ∈ K.values ∨ ∃ id, .const id (.inst i) ∈ sys.code}

/-- The variables that a name in the code may mean. -/
def variablesOf (d : Decl) : Set Variable :=
  (fun i => .ofOwner (.inst i) d) '' K.instances sys ∪ {.ofOwner .unknown d} ∪
    (fun c => .ofFrame c (.decl d)) '' K.calls

/-- What the leaves of the code give. -/
def leaves (e : Expr) : Set Value :=
  match e with
  | .const _ l => {.lit l}
  | .event _ name => (fun i => .lit (.event ⟨some i, name⟩)) '' K.instances sys
  | .var _ d => (fun v => .known (.target v)) '' K.variablesOf sys d
  | _ => ∅

/-- The values from which all others are made. -/
def base : Set Value :=
  K.values ∪ {.unknown, .bool true, .bool false} ∪ ⋃ e ∈ sys.code, K.leaves sys e

/-- The values that may stand as results below a location. -/
noncomputable def below (l : Location) : Set Value := sys.stage (K.base sys) (sys.height l)

/-- All values that come up. -/
noncomputable def all : Set Value := sys.stage (K.base sys) sys.top

/-- The events that come up. -/
def events : Set Event := {e | .lit (.event e) ∈ K.all sys}

/-- What processes may wait for. -/
def waits : Set (Option Blocker) :=
  {w | ∀ l, w = some (.events l) → l.events.length ≤ K.width ∧ ∀ e ∈ l.events, e ∈ K.events sys}

/-- The variables that the code may access: those that are referred to, and parameters. -/
def places : Set Variable :=
  {v | .known (.target v) ∈ K.all sys} ∪ {v | ∃ c ∈ K.calls, ∃ r ∈ c, ∃ d ∈ r.params, v = .ofFrame c (.decl d)}

/-- There is only so much at hand. -/
structure Finite : Prop where
  values : K.values.Finite
  calls : K.calls.Finite

variable {K sys} {l l' : Location} {i : Instance} {x : Value}

namespace Finite

theorem instances (finite : K.Finite) : (K.instances sys).Finite := by
  have given : Function.Injective fun i => Value.lit (.inst i) := by
    intro i j same
    simpa [Value.lit] using same
  have named : Function.Injective fun w : Nat × Instance => Expr.const w.1 (.inst w.2) := by
    rintro ⟨id, i⟩ ⟨id', i'⟩ same
    simpa using same
  have constants := (sys.code_finite.preimage named.injOn).image Prod.snd
  refine ((finite.values.preimage given.injOn).union constants).subset ?_
  rintro i (hi | ⟨id, hi⟩)
  · exact .inl hi
  · exact .inr ⟨(id, i), hi, rfl⟩

theorem variablesOf (finite : K.Finite) (d : Decl) : (K.variablesOf sys d).Finite :=
  ((finite.instances.image _).union (Set.finite_singleton _)).union (finite.calls.image _)

theorem base (finite : K.Finite) : (K.base sys).Finite := by
  refine (finite.values.union (by simp)).union (sys.code_finite.biUnion fun e _ => ?_)
  cases e with
  | const id l => exact Set.finite_singleton _
  | event id name => exact finite.instances.image _
  | var id d => exact (finite.variablesOf d).image _
  | _ => exact Set.finite_empty

theorem all (finite : K.Finite) : (K.all sys).Finite := System.stage_finite finite.base _

theorem events (finite : K.Finite) : (K.events sys).Finite := by
  have given : Function.Injective fun e => Value.lit (.event e) := by
    intro e e' same
    simpa [Value.lit] using same
  exact finite.all.preimage given.injOn

theorem waits (finite : K.Finite) : (K.waits sys).Finite := by
  have events : (K.events sys).Finite := finite.events
  have lists := finite_lists events K.width
  have timeouts := (Delay.finite.image some).insert none
  have listed := (lists.prod ((Set.finite_univ (α := Bool)).prod timeouts)).image
    fun w => some (Blocker.events ⟨w.1, w.2.1, w.2.2⟩)
  have delayed := Delay.finite.image fun d => some (Blocker.delay d)
  refine ((listed.union delayed).union (Set.toFinite {none, some .terminated})).subset ?_
  intro w hw
  cases w with
  | none => exact .inr (.inl rfl)
  | some b =>
      cases b with
      | terminated => exact .inr (.inr rfl)
      | delay d => exact .inl (.inr ⟨d, trivial, rfl⟩)
      | events l =>
          refine .inl (.inl ⟨(l.events, l.choice, l.timeout), ⟨hw l rfl, trivial, ?_⟩, rfl⟩)
          cases l.timeout with
          | none => exact .inl rfl
          | some d => exact .inr ⟨d, trivial, rfl⟩

theorem places (finite : K.Finite) : (K.places sys).Finite := by
  have given : Function.Injective fun v => Value.known (.target v) := by
    intro v v' same
    simpa using same
  refine (finite.all.preimage given.injOn).union ?_
  refine (finite.calls.biUnion fun c _ => (List.finite_toSet c).biUnion fun r _ =>
    (List.finite_toSet r.params).image fun d => Variable.ofFrame c (.decl d)).subset ?_
  rintro v ⟨c, hc, r, hr, d, hd, rfl⟩
  exact Set.mem_biUnion hc (Set.mem_biUnion hr ⟨d, hd, rfl⟩)

end Finite

theorem below_subset_all : K.below sys l ⊆ K.all sys := System.stage_mono (sys.height_lt_top l).le

theorem below_mono (h : sys.height l ≤ sys.height l') : K.below sys l ⊆ K.below sys l' := System.stage_mono h

theorem base_subset_below : K.base sys ⊆ K.below sys l := System.base_subset_stage _

theorem values_subset_all : K.values ⊆ K.all sys := fun _ hx =>
  System.base_subset_stage _ (.inl (.inl hx))

theorem unknown_mem_base : Value.unknown ∈ K.base sys := .inl (.inr (by simp))

theorem bool_mem_base (b : Bool) : Value.bool b ∈ K.base sys := .inl (.inr (by cases b <;> simp))

theorem leaf_mem_base {e : Expr} (he : sys.at? l = some e) (hx : x ∈ K.leaves sys e) : x ∈ K.base sys :=
  .inr (Set.mem_biUnion (⟨l, he⟩ : e ∈ sys.code) hx)

/-- Instances come from nowhere else. -/
theorem mem_instances (h : .lit (.inst i) ∈ K.all sys) : i ∈ K.instances sys := by
  rcases System.mem_base_of_stage h (.inl ⟨i, rfl⟩) with (given | truth) | leaf
  · exact .inl given
  · simp [Value.lit, Value.bool] at truth
  · obtain ⟨e, he, leaf⟩ := Set.mem_iUnion₂.1 leaf
    cases e with
    | const id l =>
        obtain rfl : Literal.inst i = l := by simpa [leaves, Value.lit] using leaf
        exact .inr ⟨id, he⟩
    | event id name => simp [leaves, Value.lit] at leaf
    | var id d => simp [leaves, Value.lit] at leaf
    | _ => cases leaf

theorem reference_mem {id : Nat} {d : Decl} {v : Variable} (he : sys.at? l = some (.var id d))
    (hv : v ∈ K.variablesOf sys d) : v ∈ K.places sys :=
  .inl (System.base_subset_stage _ (leaf_mem_base he ⟨v, hv, rfl⟩))

theorem mem_instances_of_value (h : x.unnumbered ∈ K.all sys) (hi : x.asInstance? = some i) :
    i ∈ K.instances sys := by
  rw [Value.eq_of_asInstance? hi] at h
  exact mem_instances h

end Stock

end DeltaSlice
