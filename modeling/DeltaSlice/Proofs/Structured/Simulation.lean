import DeltaSlice.Proofs.Structured.Control
import DeltaSlice.Proofs.Structured.Scalars

/-!
Small steps do what structured evaluation does. Whatever piece of code runs, small steps lead from where
it is entered to where it is left, and then the variables have the values that it gave them.
-/

namespace DeltaSlice

namespace Structured

open Setting

/-- The frame with the call stack `stack` holds the values of the local variables. -/
def Agrees (m : Memory) (stack : List Routine) (L : Store) : Prop :=
  ∀ d v, m.locals.get? d = some v → L.get? (.ofFrame stack (.decl d)) = some v

/-- Nothing was changed in frames less deep than `n`. -/
def Kept (n : Nat) (L L' : Store) : Prop :=
  ∀ scope k name, k < n → L'.get? (.frame scope k name) = L.get? (.frame scope k name)

structure After (m : Memory) (stack : List Routine) (L L' : Store) : Prop where
  agrees : Agrees m stack L'
  kept : Kept stack.length L L'

/-- The call stack of a frame of `r` above the frames of its callers. -/
def callStack (r : Routine) (F : List Frame) : List Routine := r :: F.map (·.location.routine)

namespace Kept

variable {n n' : Nat} {L L' L'' : Store}

theorem refl (n : Nat) (L : Store) : Kept n L L := fun _ _ _ _ => rfl

theorem trans (h : Kept n L L') (h' : Kept n L' L'') : Kept n L L'' :=
  fun scope k name hk => (h' scope k name hk).trans (h scope k name hk)

theorem mono (h : Kept n L L') (le : n' ≤ n) : Kept n' L L' :=
  fun scope k name hk => h scope k name (by omega)

theorem insert (stack : List Routine) (name : LocalName) (v : Value) :
    Kept stack.length L (L.insert (.ofFrame stack name) v) := by
  intro scope k name' hk
  rw [Table.get?_insert, if_neg]
  intro heq
  have : k = stack.length := by injection heq
  omega

theorem erase (stack : List Routine) (name : LocalName) :
    Kept stack.length L (L.erase (.ofFrame stack name)) := by
  intro scope k name' hk
  have hne : Variable.frame scope k name' ≠ .ofFrame stack name := by
    intro heq
    have : k = stack.length := by injection heq
    omega
  have := Table.get?_keep (t := L) (k := .frame scope k name') fun w => decide (w ≠ .ofFrame stack name)
  rwa [decide_eq_true hne, if_pos rfl] at this

theorem bindLocals (stack : List Routine) (ds : List Decl) (vs : List Value) :
    Kept stack.length L (bindLocals stack L ds vs) := by
  induction ds generalizing L vs with
  | nil => exact refl _ _
  | cons d ds ih =>
      cases vs with
      | nil => exact refl _ _
      | cons v vs => exact (insert stack _ v).trans (ih vs)

theorem dropLocals (stack : List Routine) (ds : List Decl) :
    Kept stack.length L (dropLocals stack L ds) := by
  induction ds generalizing L with
  | nil => exact refl _ _
  | cons d ds ih => exact (erase stack _).trans ih

/-- What deeper frames do leaves the variables of a frame alone. -/
theorem agrees {m : Memory} {stack : List Routine} (h : Kept n L L') (deep : stack.length < n)
    (ha : Agrees m stack L) : Agrees m stack L' :=
  fun d v hv => (h _ _ _ deep).trans (ha d v hv)

end Kept

namespace After

variable {m m' m'' : Memory} {stack : List Routine} {L L' L'' : Store}

theorem refl (h : Agrees m stack L) : After m stack L L := ⟨h, .refl _ _⟩

theorem trans (h : After m stack L L') (h' : After m' stack L' L'') : After m' stack L L'' :=
  ⟨h'.agrees, h.kept.trans h'.kept⟩

end After

theorem agrees_bind {m : Memory} {stack : List Routine} {L : Store} {t : Table Decl Value}
    {ds : List Decl} {vs : List Value}
    (h : ∀ d v, t.get? d = some v → L.get? (.ofFrame stack (.decl d)) = some v) :
    Agrees { m with locals := Memory.bind t ds vs } stack (bindLocals stack L ds vs) := by
  induction ds generalizing t L vs with
  | nil => exact h
  | cons d ds ih =>
      cases vs with
      | nil => exact h
      | cons v vs =>
          refine ih fun d' v' hv' => ?_
          rw [Table.get?_insert] at hv' ⊢
          by_cases hd : d' = d
          · subst hd
            simpa using hv'
          · have hne : Variable.ofFrame stack (.decl d') ≠ .ofFrame stack (.decl d) := by
              simpa [Variable.ofFrame] using hd
            rw [if_neg hd] at hv'
            rw [if_neg hne]
            exact h d' v' hv'

section Variables

variable {S : Setting} {m : Memory} {r : Routine} {F : List Frame} {L : Store} {d : Decl}
  {v : Value}

theorem lookup_named (h : Agrees m (callStack r F) L) (hv : m.get? S.proc.inst d = some v) :
    lookup (S.named r F d) L m.globals = v := by
  unfold lookup
  rw [named_isLocal]
  unfold Memory.get? at hv
  unfold named
  cases hd : d.isGlobal with
  | true =>
      rw [hd] at hv
      simpa using hv
  | false =>
      rw [hd] at hv
      simp only [Bool.false_eq_true, if_false, Bool.not_false, if_true] at hv ⊢
      rw [show L.get? (.ofFrame (r :: F.map (·.location.routine)) (.decl d)) = some v from h d v hv]
      rfl

theorem written_named (h : Agrees m (callStack r F) L) (v : Value) :
    (written (S.named r F d) v L m.globals).2 = (m.set S.proc.inst d v).globals ∧
      After (m.set S.proc.inst d v) (callStack r F) L
        (written (S.named r F d) v L m.globals).1 := by
  unfold written
  rw [named_isLocal]
  unfold named Memory.set
  cases hd : d.isGlobal with
  | true => exact ⟨rfl, h, .refl _ _⟩
  | false =>
      refine ⟨rfl, fun d' v' hv' => ?_, .insert _ _ _⟩
      simp only [Bool.false_eq_true, if_false, Bool.not_false, if_true] at hv' ⊢
      rw [Table.get?_insert] at hv' ⊢
      by_cases heq : d' = d
      · subst heq
        simpa [callStack] using hv'
      · have hne : Variable.ofFrame (callStack r F) (.decl d') ≠
            .ofFrame (r :: F.map (·.location.routine)) (.decl d) := by
          simpa [callStack, Variable.ofFrame] using heq
        rw [if_neg heq] at hv'
        rw [if_neg hne]
        exact h d' v' hv'

end Variables

/-- Where code that was entered at child `i` below `path` is when it is left like this. -/
def Arrives (S : Setting) (r : Routine) (path : Path) (i : Nat) (B : List Level) :
    Outcome → Frame → Prop
  | .normal, f => ∃ l, f = S.frame r path i (l :: B)
  | .exit label, f => ∃ l, S.Parked true label r path (l :: B) f
  | .next label, f => ∃ l, S.Parked false label r path (l :: B) f
  | .ret v, f => S.Returns f v

namespace Arrives

variable {S : Setting} {r : Routine} {path : Path} {i i' : Nat} {l : Level} {B : List Level}
  {o : Outcome} {f : Frame} {e : Expr}

/-- Only the normal end of a statement is at the statement. -/
theorem elsewhere (h : Arrives S r path i B o f) (left : o ≠ .normal) :
    Arrives S r path i' B o f := by
  cases o with
  | normal => exact absurd rfl left
  | exit | next | ret => exact h

/-- Above a node that is no loop, the way out is the same. -/
theorem up (h : Arrives S r (i :: path) i' (l :: B) o f) (he : S.sys.at? ⟨r, i :: path⟩ = some e)
    (other : ∀ label exits, e.isTarget label exits = false) (left : o ≠ .normal) :
    Arrives S r path i B o f := by
  cases o with
  | normal => exact absurd rfl left
  | exit label | next label =>
      obtain ⟨l', parked⟩ := h
      exact ⟨l, parked.up he (other _ _)⟩
  | ret v => exact h

end Arrives

/-- What small steps have to do for a piece of code that takes one memory to another. -/
def Simulated (S : Setting) (m m' : Memory) : Task → Prop
  | .term e v => ∀ ⦃r : Routine⦄ ⦃i : Nat⦄ ⦃path : Path⦄ ⦃l B F L⦄,
    S.sys.at? ⟨r, i :: path⟩ = some e → S.sys.Free ⟨r, i :: path⟩ → Agrees m (callStack r F) L →
    ∃ L', S.Reaches (S.point r (i :: path) (-1) ([] :: l :: B) F L m.globals)
        (S.point r path i (S.keep r i path v l :: B) F L' m'.globals) ∧
      After m' (callStack r F) L L'
  | .terms es vs => ∀ ⦃r : Routine⦄ ⦃k : Nat⦄ ⦃path : Path⦄ ⦃used l B F L⦄,
    S.Segment r path k used es → es ≠ [] → Agrees m (callStack r F) L →
    ∃ L' l', S.Reaches (S.point r (k :: path) (-1) ([] :: l :: B) F L m.globals)
        (S.point r path (k + es.length - 1 : Nat) (l' :: B) F L' m'.globals) ∧
      After m' (callStack r F) L L' ∧
      (used = true → (∀ j, j < k → Level.get l' j = l.get j) ∧
        ∀ j v, vs[j]? = some v → Level.get l' (k + j) = v)
  | .stmt e o => ∀ ⦃r : Routine⦄ ⦃i : Nat⦄ ⦃path : Path⦄ ⦃l B F L⦄,
    S.sys.at? ⟨r, i :: path⟩ = some e → S.sys.Free ⟨r, i :: path⟩ →
    S.sys.isUsed ⟨r, i :: path⟩ = false → Agrees m (callStack r F) L →
    ∃ L' f, S.Reaches (S.point r (i :: path) (-1) ([] :: l :: B) F L m.globals)
        (.run f F L' m'.globals) ∧
      After m' (callStack r F) L L' ∧ Arrives S r path i B o f
  | .stmts es o => ∀ ⦃r : Routine⦄ ⦃k : Nat⦄ ⦃path : Path⦄ ⦃l B F L⦄,
    S.Segment r path k false es → es ≠ [] → Agrees m (callStack r F) L →
    ∃ L' f, S.Reaches (S.point r (k :: path) (-1) ([] :: l :: B) F L m.globals)
        (.run f F L' m'.globals) ∧
      After m' (callStack r F) L L' ∧ Arrives S r path (k + es.length - 1) B o f
  | .pass label body posts none => ∀ ⦃r : Routine⦄ ⦃path : Path⦄ ⦃e : Expr⦄ ⦃w : Loop⦄ ⦃l B F L⦄,
    S.LoopAt r path e w → w.label = label → w.body = body → w.posts = posts →
    Agrees m (callStack r F) L →
    ∃ L' l', S.Reaches (S.point r ((if w.parts = [] then w.test else w.test + 1 : Nat) :: path) (-1)
        ([] :: l :: B) F L m.globals)
        (S.point r (w.test :: path) (-1) ([] :: l' :: B) F L' m'.globals) ∧
      After m' (callStack r F) L L'
  | .pass label body posts (some o) => ∀ ⦃r : Routine⦄ ⦃i : Nat⦄ ⦃path : Path⦄ ⦃e : Expr⦄ ⦃w : Loop⦄
      ⦃U l B F L⦄,
    S.LoopAt r (i :: path) e w → w.label = label → w.body = body → w.posts = posts →
    Agrees m (callStack r F) L →
    ∃ L' f, S.Reaches (S.point r ((if w.parts = [] then w.test else w.test + 1 : Nat) :: i :: path)
        (-1) ([] :: U :: l :: B) F L m.globals) (.run f F L' m'.globals) ∧
      After m' (callStack r F) L L' ∧ Arrives S r path i B o f
  | .rounds label c body posts o => ∀ ⦃r : Routine⦄ ⦃i : Nat⦄ ⦃path : Path⦄ ⦃e : Expr⦄ ⦃w : Loop⦄
      ⦃U l B F L⦄,
    S.LoopAt r (i :: path) e w → w = ⟨label, w.test, c, body, posts⟩ →
    S.sys.isUsed ⟨r, i :: path⟩ = false → Agrees m (callStack r F) L →
    ∃ L' f, S.Reaches (S.point r (w.test :: i :: path) (-1) ([] :: U :: l :: B) F L m.globals)
        (.run f F L' m'.globals) ∧
      After m' (callStack r F) L L' ∧ Arrives S r path i B o f

end Structured

end DeltaSlice
