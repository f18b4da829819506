import DeltaSlice.Simulator.SmallStep

/-!
The order of information. A value covers another one if it is unknown or if they are the same, where
the number of an event list counts for nothing. Every operator on values is monotone in this order;
comparing two event lists is the exception, since it asks for their numbers.
-/

namespace DeltaSlice

/-- The payload without the number of an event list. -/
def Payload.bare : Payload → Payload
  | events _ l => events 0 l
  | p => p

namespace Value

/-- The value without the number of an event list. -/
def bare : Value → Value
  | unknown => unknown
  | known p => known p.bare

/-- `x` is `y`, or says nothing about it. -/
def Covers (x y : Value) : Prop := x = unknown ∨ x.bare = y.bare

def isList : Value → Bool
  | known (.events ..) => true
  | _ => false

theorem isFalse_of_isTrue {x : Value} (h : x.isTrue = true) : x.isFalse = false := by
  have hx : x.asBool? = some true := by simpa [isTrue] using h
  simp [isFalse, hx]

namespace Covers

variable {x y x' y' : Value}

theorem refl (x : Value) : x.Covers x := .inr rfl

theorem unknown (y : Value) : Value.unknown.Covers y := .inl rfl

/-- A known value covers itself only, and an event list those with the same content. -/
theorem cases (h : x.Covers y) : x = .unknown ∨ (x = y ∧ x.isList = false ∧ x.isKnown = true) ∨
    ∃ n m l, x = .known (.events n l) ∧ y = .known (.events m l) := by
  rcases h with rfl | h
  · exact .inl rfl
  · cases x with
    | unknown => exact .inl rfl
    | known p =>
        cases y with
        | unknown => cases h
        | known q =>
            have same : p.bare = q.bare := by
              injection h
            cases p <;> cases q <;> simp_all [Payload.bare, isList, isKnown]

/-- What is seen of a value that is no event list is seen of every value that it covers. -/
theorem view {α : Type} (h : x.Covers y) (f : Value → Option α) (unknown : f .unknown = none)
    (list : ∀ n l, f (.known (.events n l)) = none) : f x = none ∨ f x = f y := by
  rcases h.cases with rfl | ⟨rfl, -⟩ | ⟨n, _, l, rfl, -⟩
  · exact .inl unknown
  · exact .inr rfl
  · exact .inl (list n l)

theorem asInstance? (h : x.Covers y) : x.asInstance? = none ∨ x.asInstance? = y.asInstance? :=
  h.view _ rfl fun _ _ => rfl

theorem asEvent? (h : x.Covers y) : x.asEvent? = none ∨ x.asEvent? = y.asEvent? :=
  h.view _ rfl fun _ _ => rfl

theorem asInt? (h : x.Covers y) : x.asInt? = none ∨ x.asInt? = y.asInt? :=
  h.view _ rfl fun _ _ => rfl

theorem asUnit? (h : x.Covers y) : x.asUnit? = none ∨ x.asUnit? = y.asUnit? :=
  h.view _ rfl fun _ _ => rfl

theorem asBool? (h : x.Covers y) : x.asBool? = none ∨ x.asBool? = y.asBool? :=
  h.view _ rfl fun _ _ => rfl

/-- A condition that is decided is decided in the same way when more is known. -/
theorem truth? (h : x.Covers y) : x.truth? = none ∨ x.truth? = y.truth? :=
  h.view _ rfl fun _ _ => rfl

theorem asBool?_eq (h : x.Covers y) {b : Bool} (hx : x.asBool? = some b) : y.asBool? = some b := by
  rcases h.asBool? with none | same
  · rw [hx] at none
    cases none
  · rw [← same, hx]

theorem isTrue (h : x.Covers y) (hx : x.isTrue = true) : y.isTrue = true := by
  unfold Value.isTrue at hx ⊢
  exact decide_eq_true (h.asBool?_eq (of_decide_eq_true hx))

theorem isFalse (h : x.Covers y) (hx : x.isFalse = true) : y.isFalse = true := by
  unfold Value.isFalse at hx ⊢
  exact decide_eq_true (h.asBool?_eq (of_decide_eq_true hx))

theorem and (hx : x.Covers x') (hy : y.Covers y') : (x.and y).Covers (x'.and y') := by
  unfold Value.and
  split
  · rename_i decided
    have : (x'.isFalse || y'.isFalse) = true := by
      rw [Bool.or_eq_true] at decided ⊢
      exact decided.imp hx.isFalse hy.isFalse
    rw [if_pos this]
    exact .refl _
  · split
    · rename_i decided
      obtain ⟨left, right⟩ := Bool.and_eq_true_iff.1 decided
      have left := hx.isTrue left
      have right := hy.isTrue right
      rw [isFalse_of_isTrue left, isFalse_of_isTrue right, left, right]
      exact .refl _
    · exact .unknown _

theorem or (hx : x.Covers x') (hy : y.Covers y') : (x.or y).Covers (x'.or y') := by
  unfold Value.or
  split
  · rename_i decided
    have : (x'.isTrue || y'.isTrue) = true := by
      rw [Bool.or_eq_true] at decided ⊢
      exact decided.imp hx.isTrue hy.isTrue
    rw [if_pos this]
    exact .refl _
  · split
    · rename_i decided
      obtain ⟨left, right⟩ := Bool.and_eq_true_iff.1 decided
      have left := hx.isFalse left
      have right := hy.isFalse right
      have notTrue : ∀ {z : Value}, z.isFalse = true → z.isTrue = false := by
        intro z hz
        cases hz' : z.isTrue with
        | false => rfl
        | true => rw [isFalse_of_isTrue hz'] at hz; cases hz
      rw [notTrue left, notTrue right, left, right]
      exact .refl _
    · exact .unknown _

theorem not (h : x.Covers y) : x.not.Covers y.not := by
  unfold Value.not
  rcases h.asBool? with none | same
  · rw [none]
    exact .unknown _
  · rw [same]
    exact .refl _

/-- Comparing is monotone, unless it compares two event lists. -/
theorem same (hx : x.Covers x') (hy : y.Covers y') (plain : (x'.isList && y'.isList) = false)
    (f : Bool → Value) :
    (if x.isKnown && y.isKnown then f (x = y) else .unknown).Covers
      (if x'.isKnown && y'.isKnown then f (x' = y') else .unknown) := by
  rcases hx.cases with rfl | ⟨rfl, -⟩ | ⟨n, n', l, rfl, rfl⟩
  · exact .unknown _
  · rcases hy.cases with rfl | ⟨rfl, -⟩ | ⟨m, m', k, rfl, rfl⟩
    · rw [if_neg (by simp [isKnown])]
      exact .unknown _
    · exact .refl _
    · have list : x.isList = false := by simpa [isList] using plain
      have apart : ∀ m, x ≠ .known (.events m k) := by
        rintro m rfl
        cases list
      simp only [apart, decide_false]
      exact .refl _
  · rcases hy.cases with rfl | ⟨rfl, -⟩ | ⟨m, m', k, rfl, rfl⟩
    · rw [if_neg (by simp [isKnown])]
      exact .unknown _
    · have list : y.isList = false := by simpa [isList] using plain
      have apart : ∀ n, Value.known (.events n l) ≠ y := by
        rintro n rfl
        cases list
      simp only [apart, decide_false]
      exact .refl _
    · cases plain

/-- Arithmetic needs two numbers or two texts. -/
theorem arithmetic {op : BinaryOp} (hx : x.Covers x') (hy : y.Covers y')
    (hop : op ≠ .and ∧ op ≠ .or ∧ op ≠ .eq ∧ op ≠ .ne) :
    (apply op x y).Covers (apply op x' y') := by
  obtain ⟨hand, hor, heq, hne⟩ := hop
  have blank : ∀ {z w : Value}, (z = .unknown ∨ z.isList = true) ∨ (w = .unknown ∨ w.isList = true) →
      apply op z w = .unknown := by
    intro z w h
    unfold Value.apply
    split
    · exact absurd rfl hand
    · exact absurd rfl hor
    · exact absurd rfl heq
    · exact absurd rfl hne
    · split
      · simp [isList] at h
      · simp [isList] at h
      · rfl
  rcases hx.cases with rfl | ⟨rfl, -⟩ | ⟨n, n', l, rfl, rfl⟩
  · exact .inl (blank (.inl (.inl rfl)))
  · rcases hy.cases with rfl | ⟨rfl, -⟩ | ⟨m, m', k, rfl, rfl⟩
    · exact .inl (blank (.inr (.inl rfl)))
    · exact .refl _
    · exact .inl (blank (.inr (.inr rfl)))
  · exact .inl (blank (.inl (.inr rfl)))

theorem apply_lists {op : BinaryOp} (hop : op = .both ∨ op = .either) :
    Value.apply op x y = .unknown := by
  rcases hop with rfl | rfl
  all_goals
    simp only [Value.apply]
    split <;> rfl

theorem apply {op : BinaryOp} (hx : x.Covers x') (hy : y.Covers y')
    (plain : op = .eq ∨ op = .ne → (x'.isList && y'.isList) = false) :
    (Value.apply op x y).Covers (Value.apply op x' y') := by
  by_cases hand : op = .and
  · subst hand
    exact hx.and hy
  by_cases hor : op = .or
  · subst hor
    exact hx.or hy
  by_cases heq : op = .eq
  · subst heq
    exact hx.same hy (plain (.inl rfl)) bool
  by_cases hne : op = .ne
  · subst hne
    simpa only [Value.apply, ne_eq, decide_not] using
      hx.same hy (plain (.inr rfl)) fun b => bool !b
  exact hx.arithmetic hy ⟨hand, hor, heq, hne⟩

theorem applyUnary (h : x.Covers y) (op : UnaryOp) :
    (Value.applyUnary op x).Covers (Value.applyUnary op y) := by
  cases op with
  | not => exact h.not
  | neg =>
      unfold Value.applyUnary
      rcases h.asInt? with none | same
      · simp only [none]
        exact .unknown _
      · simp only [same]
        exact .refl _
  | other _ => exact .unknown _

end Covers

end Value

namespace Simulator

variable {x y x' y' : Value}

theorem eventList?_covers (hx : x.Covers x') (hy : y.Covers y') (choice : Bool) :
    eventList? choice x y = none ∨ eventList? choice x y = eventList? choice x' y' := by
  unfold eventList?
  rcases hy.asEvent? with none | same
  · rw [none]
    exact .inl (by split <;> simp_all)
  · rw [same]
    rcases hx.cases with rfl | ⟨rfl, -⟩ | ⟨n, m, l, rfl, rfl⟩
    · exact .inl rfl
    · exact .inr rfl
    · cases y'.asEvent? with
      | none => exact .inl rfl
      | some e => exact .inr rfl

theorem waitFor?_bare (p : Payload) : waitFor? p.bare = waitFor? p := by
  cases p <;> rfl

theorem waitWithin?_bare (d : Delay) (p : Payload) : waitWithin? d p.bare = waitWithin? d p := by
  cases p <;> rfl

theorem amountOf?_bare (p q : Payload) : amountOf? p.bare q.bare = amountOf? p q := by
  cases p with
  | literal l =>
      cases q with
      | literal _ | target _ => rfl
      | events n k => cases l <;> rfl
  | target _ | events _ _ => rfl

/-- The numbers of event lists play no part in what a wait stands for. -/
theorem blocker?_bare (p : Process) (args : List Payload) :
    blocker? p (args.map Payload.bare) = blocker? p args := by
  match args with
  | [] => rfl
  | [x] => exact waitFor?_bare x
  | [x, y] =>
      simp only [List.map_cons, List.map_nil, blocker?, amountOf?_bare, waitWithin?_bare]
      cases x <;> rfl
  | [x, y, z] => simp only [List.map_cons, List.map_nil, blocker?, amountOf?_bare, waitWithin?_bare]
  | _ :: _ :: _ :: _ :: _ => rfl

end Simulator

end DeltaSlice
