import DeltaSlice.Run

/-!
What it means that a composed computation succeeds: each of its parts did. Later proofs take
computations apart by these rules and never unfold them.
-/

namespace DeltaSlice

namespace Success

variable {ε ε' α β σ : Type}

theorem bind_iff {x : Except ε α} {f : α → Except ε β} {b : β} :
    (x >>= f) = .ok b ↔ ∃ a, x = .ok a ∧ f a = .ok b := by
  cases x with
  | error e => simp [bind, Except.bind]
  | ok a => simp [bind, Except.bind]

theorem bind_method_iff {x : Except ε α} {f : α → Except ε β} {b : β} :
    x.bind f = .ok b ↔ ∃ a, x = .ok a ∧ f a = .ok b := bind_iff

theorem map_iff {x : Except ε α} {f : α → β} {b : β} :
    x.map f = .ok b ↔ ∃ a, x = .ok a ∧ f a = b := by
  cases x with
  | error e => simp [Except.map]
  | ok a => simp [Except.map]

theorem mapError_iff {x : Except ε α} {f : ε → ε'} {a : α} :
    x.mapError f = .ok a ↔ x = .ok a := by
  cases x with
  | error e =>
      change Except.error (f e) = .ok a ↔ _
      simp
  | ok b =>
      change Except.ok b = .ok a ↔ _
      simp

/-- The computation succeeds with a result that passes a check. -/
def yields (x : Except ε α) (c : α → Bool) : Bool :=
  match x with
  | .ok a => c a
  | .error _ => false

theorem exists_of_yields {x : Except ε α} {c : α → Bool} (h : yields x c = true) :
    ∃ a, x = .ok a ∧ c a = true := by
  cases x with
  | error e => cases h
  | ok a => exact ⟨a, rfl, h⟩

/-- What a fold of steps that all succeed establishes, from what each step does to the part of the
list that was folded before. -/
theorem foldlM_induction {f : σ → α → Except ε σ} (P : List α → σ → Prop) {l : List α} {a b : σ}
    (start : P [] a)
    (step : ∀ pre x c d, P pre c → x ∈ l → f c x = .ok d → P (pre ++ [x]) d)
    (h : l.foldlM f a = .ok b) : P l b := by
  have general : ∀ (rest pre : List α) (c : σ), pre ++ rest = l → P pre c →
      rest.foldlM f c = .ok b → P l b := by
    intro rest
    induction rest with
    | nil =>
        intro pre c whole hc hb
        have : c = b := by simpa [pure, Except.pure] using hb
        simpa [← whole, ← this] using hc
    | cons x rest ih =>
        intro pre c whole hc hb
        rw [List.foldlM_cons] at hb
        obtain ⟨d, hd, hb⟩ := bind_iff.1 hb
        refine ih (pre ++ [x]) d (by simpa using whole) ?_ hb
        exact step pre x c d hc (by simp [← whole]) hd
  exact general l [] a rfl start h

end Success

namespace Run

variable {κ α β : Type}

@[simp] theorem result_ofFault (x : Except Fault α) :
    (ofFault x : Run κ α).result = x.mapError .broken := rfl

theorem bind_result_iff {x : Run κ α} {f : α → Run κ β} {b : β} :
    (x >>= f).result = .ok b ↔ ∃ a, x.result = .ok a ∧ (f a).result = .ok b := by
  rw [result_bind]
  exact Success.bind_iff

theorem pure_result_iff {a b : α} : (pure a : Run κ α).result = .ok b ↔ a = b := by
  rw [result_pure]
  exact ⟨fun h => by injection h, fun h => by rw [h]⟩

theorem ofFault_result_iff {x : Except Fault α} {a : α} :
    (ofFault x : Run κ α).result = .ok a ↔ x = .ok a := Success.mapError_iff

end Run

end DeltaSlice

/-!
Computations that do not break. They may fail or run out of steps, and otherwise they give something
with the property that what follows relies on.
-/

namespace DeltaSlice

/-- A computation does not break, and what it gives, if anything, has a property. -/
def Unbroken {α : Type} (P : α → Prop) (x : Except Halt α) : Prop :=
  match x with
  | .ok a => P a
  | .error (.broken _) => False
  | .error _ => True

/-- A computation gives something with a property. -/
def Succeeds {α : Type} (P : α → Prop) (x : Except Fault α) : Prop := ∃ a, x = .ok a ∧ P a

variable {α β κ σ : Type} {P : α → Prop} {Q : β → Prop}

namespace Unbroken

theorem ok {a : α} (h : P a) : Unbroken P (.ok a) := h

theorem failed {f : Failure} : Unbroken P (.error (.failed f)) := trivial

theorem result {x : Except Halt α} {a : α} (h : Unbroken P x) (hx : x = .ok a) : P a := by
  rw [hx] at h
  exact h

theorem ne_broken {x : Except Halt α} (h : Unbroken P x) (f : Fault) : x ≠ .error (.broken f) := by
  rintro rfl
  exact h

theorem mono {P' : α → Prop} {x : Except Halt α} (h : Unbroken P x) (weaker : ∀ a, x = .ok a → P a → P' a) :
    Unbroken P' x := by
  cases x with
  | ok a => exact weaker a rfl h
  | error e =>
      cases e with
      | broken f => exact h
      | failed f | exhausted => trivial

theorem bind {x : Except Halt α} {f : α → Except Halt β} (h : Unbroken P x)
    (next : ∀ a, P a → Unbroken Q (f a)) : Unbroken Q (x >>= f) := by
  cases x with
  | ok a => exact next a h
  | error e =>
      cases e with
      | broken f => exact h
      | failed f | exhausted => trivial

theorem map {x : Except Halt α} {f : α → β} (h : Unbroken P x) (next : ∀ a, P a → Q (f a)) :
    Unbroken Q (x.map f) := by
  cases x with
  | ok a => exact next a h
  | error e =>
      cases e with
      | broken f => exact h
      | failed f | exhausted => trivial

/-- One part of a run after the other. -/
theorem run_bind {x : Run κ α} {f : α → Run κ β} (h : Unbroken P x.result)
    (next : ∀ a, P a → Unbroken Q (f a).result) : Unbroken Q (x >>= f).result := by
  rw [Run.result_bind]
  exact h.bind next

end Unbroken

namespace Succeeds

theorem ok {a : α} (h : P a) : Succeeds P (.ok a) := ⟨a, rfl, h⟩

theorem mono {P' : α → Prop} {x : Except Fault α} (h : Succeeds P x) (weaker : ∀ a, x = .ok a → P a → P' a) :
    Succeeds P' x := by
  obtain ⟨a, rfl, ha⟩ := h
  exact ⟨a, rfl, weaker a rfl ha⟩

theorem bind {x : Except Fault α} {f : α → Except Fault β} (h : Succeeds P x)
    (next : ∀ a, P a → Succeeds Q (f a)) : Succeeds Q (x.bind f) := by
  obtain ⟨a, rfl, ha⟩ := h
  exact next a ha

theorem map {x : Except Fault α} {f : α → β} (h : Succeeds P x) (next : ∀ a, P a → Q (f a)) :
    Succeeds Q (x.map f) := by
  obtain ⟨a, rfl, ha⟩ := h
  exact ⟨f a, rfl, next a ha⟩

/-- A series of steps, each of which relies on what those before it established. -/
theorem foldlM_along {I : List α → σ → Prop} {f : σ → α → Except Fault σ} {l : List α} {a : σ}
    (start : I [] a)
    (step : ∀ pre x post, pre ++ x :: post = l → ∀ b, I pre b → Succeeds (I (pre ++ [x])) (f b x)) :
    Succeeds (I l) (l.foldlM f a) := by
  have general : ∀ (post pre : List α) (b : σ), pre ++ post = l → I pre b →
      Succeeds (I l) (post.foldlM f b) := by
    intro post
    induction post with
    | nil =>
        intro pre b whole hb
        rw [← whole, List.append_nil]
        exact .ok hb
    | cons x post ih =>
        intro pre b whole hb
        rw [List.foldlM_cons]
        obtain ⟨c, hc, hI⟩ := step pre x post whole b hb
        rw [hc]
        exact ih (pre ++ [x]) c (by simpa using whole) hI
  exact general l [] a rfl start

/-- A series of steps that keep a property. -/
theorem foldlM {I : σ → Prop} {f : σ → α → Except Fault σ} {l : List α} {a : σ} (start : I a)
    (step : ∀ x ∈ l, ∀ b, I b → Succeeds I (f b x)) : Succeeds I (l.foldlM f a) :=
  foldlM_along (I := fun _ => I) start fun _ x _ whole => step x (by simp [← whole])

theorem filterMapM {f : α → Except Fault (Option β)} {l : List α}
    (h : ∀ a ∈ l, Succeeds (fun _ => True) (f a)) : Succeeds (fun _ => True) (l.filterMapM f) := by
  induction l with
  | nil => exact .ok trivial
  | cons a l ih =>
      obtain ⟨⟨b, hb, -⟩, rest⟩ := List.forall_mem_cons.1 h
      obtain ⟨bs, hbs, -⟩ := ih rest
      rw [List.filterMapM_cons, hb]
      cases b with
      | none => exact ⟨bs, hbs, trivial⟩
      | some b =>
          change Succeeds _ ((l.filterMapM f).bind fun bs => .ok (b :: bs))
          exact (show Succeeds (fun _ => True) (l.filterMapM f) from ⟨bs, hbs, trivial⟩).bind fun _ _ => .ok trivial

theorem unbroken {x : Except Fault α} (h : Succeeds P x) : Unbroken P (x.mapError .broken) := by
  obtain ⟨a, rfl, ha⟩ := h
  exact ha

end Succeeds

end DeltaSlice
