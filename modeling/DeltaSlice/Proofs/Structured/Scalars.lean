import DeltaSlice.Proofs.Structured.Moves
import DeltaSlice.Proofs.Table

/-!
Memories of numbers and truth values. Structured evaluation gets no other values out of them.
-/

namespace DeltaSlice

namespace Value

theorem applyInt_scalar (op : BinaryOp) (a b : Int64) : (applyInt op a b).isScalar = true := by
  unfold applyInt
  split <;> first | rfl | (split <;> rfl)

theorem applyUnary_scalar (op : UnaryOp) (x : Value) : (applyUnary op x).isScalar = true := by
  unfold applyUnary not
  split
  · split <;> rfl
  · split <;> rfl
  · rfl

theorem apply_scalar (op : BinaryOp) {x : Value} (hx : x.isScalar = true) (y : Value) :
    (apply op x y).isScalar = true := by
  unfold apply
  split
  · unfold and
    split
    · rfl
    · split <;> rfl
  · unfold or
    split
    · rfl
    · split <;> rfl
  · split <;> rfl
  · split <;> rfl
  · split
    · exact applyInt_scalar _ _ _
    · cases hx
    · rfl

end Value

namespace Structured

/-- All values are numbers, truth values or not known. -/
structure Memory.Scalar (m : Memory) : Prop where
  globals : ∀ v x, m.globals.get? v = some x → x.isScalar = true
  locals : ∀ d x, m.locals.get? d = some x → x.isScalar = true

def Outcome.Scalar (o : Outcome) : Prop := ∀ v, o.value? = some v → v.isScalar = true

def Task.Scalar : Task → Prop
  | .term _ v => v.isScalar = true
  | .terms _ vs => ∀ v ∈ vs, v.isScalar = true
  | .stmt _ o | .stmts _ o | .rounds _ _ _ _ o | .pass _ _ _ (some o) => o.Scalar
  | .pass _ _ _ none => True

namespace Memory

variable {m m' : Memory} {this : Instance} {d : Decl} {v : Value}

theorem Scalar.get? (hm : m.Scalar) (h : m.get? this d = some v) : v.isScalar = true := by
  unfold Memory.get? at h
  split at h
  · cases hv : m.globals.get? (.ofOwner (.inst this) d) with
    | none =>
        rw [hv] at h
        obtain rfl := Option.some.inj h
        rfl
    | some x =>
        rw [hv] at h
        obtain rfl := Option.some.inj h
        exact hm.globals _ _ hv
  · exact hm.locals _ _ h

theorem Scalar.set (hm : m.Scalar) (hv : v.isScalar = true) : (m.set this d v).Scalar := by
  have stored : ∀ {κ : Type} [DecidableEq κ] {t : Table κ Value} {k : κ},
      (∀ k x, t.get? k = some x → x.isScalar = true) →
      ∀ j x, (t.insert k v).get? j = some x → x.isScalar = true := by
    intro κ _ t k ht j x hx
    rw [Table.get?_insert] at hx
    split at hx
    · obtain rfl := Option.some.inj hx
      exact hv
    · exact ht j x hx
  unfold Memory.set
  split
  · exact ⟨stored hm.globals, hm.locals⟩
  · exact ⟨hm.globals, stored hm.locals⟩

theorem bind_scalar {t : Table Decl Value} (ht : ∀ d x, t.get? d = some x → x.isScalar = true)
    {ds : List Decl} {vs : List Value} (hvs : ∀ v ∈ vs, v.isScalar = true) (d : Decl) (x : Value)
    (hx : (bind t ds vs).get? d = some x) : x.isScalar = true := by
  induction ds generalizing t vs with
  | nil => exact ht d x hx
  | cons d' ds ih =>
      cases vs with
      | nil => exact ht d x hx
      | cons v vs =>
          refine ih (fun j y hy => ?_) (fun v hv => hvs v (by simp [hv])) hx
          rw [Table.get?_insert] at hy
          split at hy
          · obtain rfl := Option.some.inj hy
            exact hvs v (by simp)
          · exact ht j y hy

theorem Scalar.call (hm : m.Scalar) (r : Routine) {vs : List Value}
    (hvs : ∀ v ∈ vs, v.isScalar = true) : (m.call r vs).Scalar :=
  ⟨hm.globals, bind_scalar (by simp) hvs⟩

theorem Scalar.back (hm : m.Scalar) (h : m'.Scalar) : (m.back m').Scalar := ⟨h.globals, hm.locals⟩

end Memory

theorem Outcome.ofLoop_scalar {o o' : Outcome} {label : String} (h : o.Scalar)
    (left : o.ofLoop label = some o') : o'.Scalar := by
  cases o with
  | normal => cases left
  | exit l =>
      obtain rfl := Option.some.inj left
      intro v hv
      split at hv
      · obtain rfl := Option.some.inj hv
        rfl
      · cases hv
  | next l =>
      simp only [Outcome.ofLoop] at left
      split at left
      · cases left
      · obtain rfl := Option.some.inj left
        exact h
  | ret v =>
      obtain rfl := Option.some.inj left
      exact h

theorem Runs.scalar {sys : System} {this : Instance} {task : Task} {m m' : Memory}
    (h : Runs sys this task m m') (hm : m.Scalar) : m'.Scalar ∧ task.Scalar := by
  have unknown : ∀ {o : Outcome}, (∀ v, o.value? = some v → v = .unknown) → o.Scalar :=
    fun h v hv => by rw [h v hv]; rfl
  induction h with
  | int | bool => exact ⟨hm, rfl⟩
  | var value => exact ⟨hm, hm.get? value⟩
  | unary operand ih => exact ⟨(ih hm).1, Value.applyUnary_scalar _ _⟩
  | bracket inner ih => exact ih hm
  | binary operator left right ihl ihr =>
      obtain ⟨hm, hv⟩ := ihl hm
      exact ⟨(ihr hm).1, Value.apply_scalar _ hv _⟩
  | assign value ih => exact ⟨(ih hm).1.set (ih hm).2, (ih hm).2⟩
  | call arguments body result iha ihb =>
      obtain ⟨hm, hvs⟩ := iha hm
      obtain ⟨hm', ho⟩ := ihb (hm.call _ hvs)
      exact ⟨hm.back hm', ho _ result⟩
  | noTerms => exact ⟨hm, by simp [Task.Scalar]⟩
  | moreTerms first others ihf iho =>
      obtain ⟨hm, hv⟩ := ihf hm
      obtain ⟨hm, hvs⟩ := iho hm
      exact ⟨hm, List.forall_mem_cons.2 ⟨hv, hvs⟩⟩
  | expression value ih => exact ⟨(ih hm).1, unknown (by simp [Outcome.value?])⟩
  | block list ih => exact ih hm
  | branch condition determined taken ihc iht => exact iht (ihc hm).1
  | whileLoop loop ih => exact ih hm
  | doLoop first loop ihf ihl => exact ihl (ihf hm).1
  | doOnce first ih => exact ih hm
  | forLoop start loop ihs ihl => exact ihl (ihs hm).1
  | exit | next | ret | noStmts => exact ⟨hm, unknown (by simp [Outcome.value?])⟩
  | retValue value ih =>
      refine ⟨(ih hm).1, fun w hw => ?_⟩
      obtain rfl := Option.some.inj hw
      exact (ih hm).2
  | moreStmts first others ihf iho => exact iho (ihf hm).1
  | leave first left ih => exact ih hm
  | passed inner more rest ihi ihr => exact ⟨(ihr (ihi hm).1).1, trivial⟩
  | broken inner left ih => exact ⟨(ih hm).1, Outcome.ofLoop_scalar (ih hm).2 left⟩
  | done condition fails ih => exact ⟨(ih hm).1, unknown (by simp [Outcome.value?])⟩
  | again condition holds round loop ihc ihr ihl => exact ihl (ihr (ihc hm).1).1
  | last condition holds round ihc ihr => exact ihr (ihc hm).1

end Structured

end DeltaSlice
