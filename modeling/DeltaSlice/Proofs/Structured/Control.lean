import DeltaSlice.Proofs.Structured.Moves

/-!
Moves of the control structures: lists of statements, branches, loops, exits, repetitions and the
return from a routine.
-/

namespace DeltaSlice

namespace Structured.Setting

/-- The children from the `k`-th on, as far as `es` goes, are evaluated one after the other. -/
structure Segment (S : Setting) (r : Routine) (path : Path) (k : Nat) (used : Bool)
    (es : List Expr) : Prop where
  at? : ∀ j x, es[j]? = some x → S.sys.at? ⟨r, (k + j : Nat) :: path⟩ = some x
  free : ∀ j, j < es.length → S.sys.Free ⟨r, (k + j : Nat) :: path⟩
  used : ∀ j, j < es.length → S.sys.isUsed ⟨r, (k + j : Nat) :: path⟩ = used
  next : ∀ j, j + 1 < es.length → S.Enters r path (k + j : Nat) (k + j + 1)

namespace Segment

variable {S : Setting} {r : Routine} {path : Path} {k : Nat} {used : Bool} {e : Expr} {es es' : List Expr}

theorem head (h : S.Segment r path k used (e :: es)) : S.sys.at? ⟨r, k :: path⟩ = some e :=
  h.at? 0 e rfl

theorem head_free (h : S.Segment r path k used (e :: es)) : S.sys.Free ⟨r, k :: path⟩ :=
  h.free 0 (by simp)

theorem head_used (h : S.Segment r path k used (e :: es)) : S.sys.isUsed ⟨r, k :: path⟩ = used :=
  h.used 0 (by simp)

theorem tail (h : S.Segment r path k used (e :: es)) : S.Segment r path (k + 1) used es where
  at? j x hx := by
    have := h.at? (j + 1) x hx
    rwa [← Nat.add_assoc, Nat.add_right_comm] at this
  free j hj := by
    have := h.free (j + 1) (by simpa using hj)
    rwa [← Nat.add_assoc, Nat.add_right_comm] at this
  used j hj := by
    have := h.used (j + 1) (by simpa using hj)
    rwa [← Nat.add_assoc, Nat.add_right_comm] at this
  next j hj := by
    have := h.next (j + 1) (by simpa using hj)
    rwa [← Nat.add_assoc, Nat.add_right_comm] at this

theorem left (h : S.Segment r path k used (es ++ es')) : S.Segment r path k used es where
  at? j x hx := by
    obtain ⟨hj, -⟩ := List.getElem?_eq_some_iff.1 hx
    exact h.at? j x (by rw [List.getElem?_append_left hj, hx])
  free j hj := h.free j (by simp; omega)
  used j hj := h.used j (by simp; omega)
  next j hj := h.next j (by simp; omega)

theorem right (h : S.Segment r path k used (es ++ es')) :
    S.Segment r path (k + es.length) used es' := by
  induction es generalizing k with
  | nil => simpa using h
  | cons e es ih =>
      have := ih h.tail
      rwa [Nat.add_assoc, Nat.add_comm 1] at this

/-- The children of a node that does nothing else with them. -/
theorem of_children (he : S.sys.at? ⟨r, path⟩ = some e) (hes : ∀ j x, es[j]? = some x →
      elementAt? e.children (k + j : Nat) = some x)
    (free : ∀ j, j < es.length → S.sys.Free ⟨r, (k + j : Nat) :: path⟩)
    (uses : ∀ j, j < es.length → e.usesChild (k + j : Nat) = used)
    (next : ∀ j, j + 1 < es.length → S.Enters r path (k + j : Nat) (k + j + 1)) :
    S.Segment r path k used es where
  at? j x hx := by rw [System.at?_cons he, hes j x hx]
  free := free
  used j hj := by rw [System.isUsed_child he, uses j hj]
  next := next

end Segment

variable {S : Setting} {r : Routine} {path : Path} {i k : Nat} {j : Int} {U l : Level}
  {B : List Level} {F : List Frame} {L G L' G' : Store} {e : Expr} {v : Value} {t : Transition}
  {id : Nat}

theorem keep_used (h : S.sys.isUsed ⟨r, i :: path⟩ = true) (v : Value) (l : Level) :
    S.keep r i path v l = l.set i (some v) := by simp [keep, h]

/-! Bodies and branches. -/

theorem body_first (h : S.sys.body r ≠ []) : S.Enters r [] (-1) 0 := by
  intro l B F L G
  refine goes_of_body rfl fun t ht => ?_
  have hlen := List.length_pos_iff.2 h
  unfold Simulator.bodyStep
  rw [if_pos (by simp only [frame]; exact (by omega : (-1 : Int) < (S.sys.body r).length - 1))]
  exact .one (ht.enter 0)

theorem body_segment (r : Routine) : S.Segment r [] 0 false (S.sys.body r) where
  at? j x hx := by simpa [System.at?, Path.resolve?, Path.scope?, elementAt?_natCast] using hx
  free _ _ := System.free_body
  used _ _ := rfl
  next j hj := by
    intro l B F L G
    refine goes_of_body rfl fun t ht => ?_
    unfold Simulator.bodyStep
    rw [if_pos (by
      simp only [frame]
      exact (by omega : ((0 + j : Nat) : Int) < (S.sys.body r).length - 1))]
    exact .one (ht.enter _)

section Branches

variable {c : Expr} {yes no : List Expr}

theorem branch_first (he : S.sys.at? ⟨r, path⟩ = some (.branch id c yes no)) :
    S.Enters r path (-1) 0 :=
  fun _ _ _ _ _ => goes_of_expr he fun _ ht => .one (ht.enter 0)

theorem branch_enters (he : S.sys.at? ⟨r, path⟩ = some (.branch id c yes no)) (b : Bool)
    (h : (if b then yes else no) ≠ []) :
    S.EntersIf r path 0 b (if b then 1 else yes.length + 1) := by
  intro l B F L G hb
  refine goes_of_expr he fun t ht => ?_
  have truth : ((S.frame r path (0 : Nat) (l :: B)).value 0 0).truth? = some b := hb
  simp only [Simulator.exprStep, Simulator.branchStep]
  rw [if_neg (by simp [frame]), if_pos (by simp [frame])]
  cases b with
  | true =>
      simp only [truth]
      rw [if_neg (by simpa using h)]
      exact .one ((ht.mapConditions _).enter 1)
  | false =>
      simp only [truth]
      rw [if_neg (by simpa using h)]
      exact .one ((ht.mapConditions _).enter _)

theorem branch_skips (he : S.sys.at? ⟨r, i :: path⟩ = some (.branch id c yes no)) (b : Bool)
    (h : (if b then yes else no) = []) : S.LeavesIf r i path 0 b := by
  intro U l B F L G hb
  refine goes_of_expr he fun t ht => ?_
  have truth : ((S.frame r (i :: path) (0 : Nat) (U :: l :: B)).value 0 0).truth? = some b := hb
  simp only [Simulator.exprStep, Simulator.branchStep]
  rw [if_neg (by simp [frame]), if_pos (by simp [frame])]
  cases b with
  | true =>
      simp only [truth]
      rw [if_pos (by simpa using h)]
      exact .one (((ht.mapConditions _).mapConditions _).left _)
  | false =>
      simp only [truth]
      rw [if_pos (by simpa using h)]
      exact .one (ht.left _)

/-- Between two statements of the same list. -/
theorem branch_next (he : S.sys.at? ⟨r, path⟩ = some (.branch id c yes no)) (pos : 0 < i)
    (inside : i ≠ yes.length) (before : i < yes.length + no.length) : S.Enters r path i (i + 1) := by
  intro l B F L G
  refine goes_of_expr he fun t ht => ?_
  simp only [Simulator.exprStep, Simulator.branchStep]
  rw [if_neg (by simp only [frame]; omega), if_neg (by simp only [frame]; omega)]
  split
  · rw [if_neg (by simp only [frame]; omega)]
    exact .one (ht.enter _)
  · rw [if_neg (by simp only [frame]; omega)]
    exact .one (ht.enter _)

theorem branch_segment (he : S.sys.at? ⟨r, path⟩ = some (.branch id c yes no)) (b : Bool) :
    S.Segment r path (if b then 1 else yes.length + 1) false (if b then yes else no) := by
  have free : ∀ k : Nat, S.sys.Free ⟨r, k :: path⟩ :=
    fun k => System.free_child he (by simp) (by simp)
  cases b with
  | true =>
      refine .of_children he (fun j x hx => ?_) (fun _ _ => free _) (fun j _ => ?_) fun j hj => ?_
      · obtain ⟨hj, -⟩ := List.getElem?_eq_some_iff.1 hx
        simp only [if_true] at hj hx ⊢
        rw [elementAt?_natCast, Expr.children, Nat.add_comm, List.getElem?_cons_succ,
          List.getElem?_append_left hj, hx]
      · simp only [if_true, Expr.usesChild, decide_eq_false_iff_not]
        omega
      · simp only [if_true] at hj ⊢
        exact branch_next he (by omega) (by omega) (by omega)
  | false =>
      refine .of_children he (fun j x hx => ?_) (fun _ _ => free _) (fun j _ => ?_) fun j hj => ?_
      · simp only [Bool.false_eq_true, if_false] at hx ⊢
        rw [elementAt?_natCast, Expr.children, Nat.add_right_comm, List.getElem?_cons_succ,
          List.getElem?_append_right (by omega), Nat.add_sub_cancel_left, hx]
      · simp only [Bool.false_eq_true, if_false, Expr.usesChild, decide_eq_false_iff_not]
        omega
      · simp only [Bool.false_eq_true, if_false] at hj ⊢
        exact branch_next he (by omega) (by omega) (by omega)

/-- Behind the last statement of the list that was chosen. -/
theorem branch_last (he : S.sys.at? ⟨r, i :: path⟩ = some (.branch id c yes no)) (b : Bool)
    (h : (if b then yes else no) ≠ []) :
    S.Leaves r i path ((if b then 0 else yes.length) + (if b then yes else no).length : Nat) := by
  intro U l B F L G
  refine goes_of_expr he fun t ht => ?_
  have hlen := List.length_pos_iff.2 h
  simp only [Simulator.exprStep, Simulator.branchStep]
  cases b with
  | true =>
      simp only [if_true] at hlen ⊢
      rw [if_neg (by simp only [frame]; omega), if_neg (by simp only [frame]; omega),
        if_pos (by simp only [frame]; omega), if_pos (by simp [frame])]
      exact .one ((ht.mapConditions _).left _)
  | false =>
      simp only [Bool.false_eq_true, if_false] at hlen ⊢
      rw [if_neg (by simp only [frame]; omega), if_neg (by simp only [frame]; omega),
        if_neg (by simp only [frame]; omega), if_pos (by simp only [frame]; omega)]
      exact .repeating ((ht.mapConditions _).left _)

end Branches

end Structured.Setting

namespace Structured

/-- The parts of a loop: its label, its condition and the index of that, its body, and what is
evaluated after the body. -/
structure Loop where
  label : String
  test : Nat
  cond : Expr
  body : List Expr
  posts : List Expr

/-- What is evaluated once in every round in which the condition holds. -/
def Loop.parts (w : Loop) : List Expr := w.body ++ w.posts

end Structured

open Structured in
def Expr.loop? : Expr → Option Loop
  | .whileLoop _ label c body | .doLoop _ label c body => some ⟨label, 0, c, body, []⟩
  | .forLoop _ label _ c post body => some ⟨label, 1, c, body, [post]⟩
  | _ => none

namespace Structured.Setting

variable {S : Setting} {r : Routine} {path : Path} {i k : Nat} {j : Int} {U l : Level}
  {B : List Level} {F : List Frame} {L G L' G' : Store} {e : Expr} {v : Value} {t : Transition}
  {id : Nat}

/-- How control passes through a loop. -/
structure LoopAt (S : Setting) (r : Routine) (path : Path) (e : Expr) (w : Loop) : Prop where
  at? : S.sys.at? ⟨r, path⟩ = some e
  loop : e.loop? = some w
  cond : S.sys.at? ⟨r, w.test :: path⟩ = some w.cond
  free : S.sys.Free ⟨r, w.test :: path⟩
  used : S.sys.isUsed ⟨r, w.test :: path⟩ = true
  parts : S.Segment r path (w.test + 1) false w.parts
  holds : S.EntersIf r path w.test true (if w.parts = [] then w.test else w.test + 1)
  fails : ∀ (i : Nat) (up : Path), path = (i : Int) :: up → S.LeavesIf r i up w.test false
  back : w.parts ≠ [] → S.Enters r path (w.test + w.parts.length : Nat) w.test

section Loops

variable {label : String} {c : Expr} {body : List Expr} {first : Bool}
  (he : S.sys.at? ⟨r, path⟩ = some e)
  (plain : ∀ t ps f, S.sim.exprStep t ps f e = pure (S.sim.loopStep t f e body first))

include he plain in
theorem loop_holds : S.EntersIf r path 0 true (if body = [] then 0 else 1) := by
  intro l B F L G hb
  refine goes_of_expr he fun t ht => ?_
  have truth : ((S.frame r path (0 : Nat) (l :: B)).value 0 0).truth? = some true := hb
  rw [plain, Run.result_pure, Simulator.loopStep, if_neg (by simp [frame]), if_pos (by simp [frame])]
  simp only [truth]
  have := ht.enter (if body.isEmpty then 0 else 1)
  cases body <;> exact .repeating this

include plain in
theorem loop_over (he : S.sys.at? ⟨r, i :: path⟩ = some e) : S.LeavesIf r i path 0 false := by
  intro U l B F L G hb
  refine goes_of_expr he fun t ht => ?_
  have truth : ((S.frame r (i :: path) (0 : Nat) (U :: l :: B)).value 0 0).truth? = some false := hb
  rw [plain, Run.result_pure, Simulator.loopStep, if_neg (by simp [frame]), if_pos (by simp [frame])]
  simp only [truth]
  exact .one ((ht.mapConditions _).left _)

include he plain in
theorem loop_next (pos : 0 < i) (before : i < body.length) : S.Enters r path i (i + 1) := by
  intro l B F L G
  refine goes_of_expr he fun t ht => ?_
  rw [plain, Run.result_pure, Simulator.loopStep, if_neg (by simp only [frame]; omega),
    if_neg (by simp only [frame]; omega), if_neg (by simp only [frame]; omega)]
  exact .one (ht.enter _)

include he plain in
theorem loop_back (h : body ≠ []) : S.Enters r path body.length 0 := by
  intro l B F L G
  refine goes_of_expr he fun t ht => ?_
  have hlen := List.length_pos_iff.2 h
  rw [plain, Run.result_pure, Simulator.loopStep, if_neg (by simp only [frame]; omega),
    if_neg (by simp only [frame]; omega), if_pos (by simp [frame])]
  exact .repeating (ht.enter 0)

include he plain in
theorem loopAt (loop : e.loop? = some ⟨label, 0, c, body, []⟩) (children : e.children = c :: body)
    (uses : ∀ j, e.usesChild j = decide (j = 0)) (other : ∀ k : Nat, S.sys.Free ⟨r, k :: path⟩) :
    S.LoopAt r path e ⟨label, 0, c, body, []⟩ where
  at? := he
  loop := loop
  cond := by rw [System.at?_cons he, children]; rfl
  free := other 0
  used := by rw [System.isUsed_child he, uses]; rfl
  parts := by
    refine .of_children he (fun j x hx => ?_) (fun _ _ => other _) (fun j _ => ?_) fun j hj => ?_
    · rw [elementAt?_natCast, children, Nat.zero_add, Nat.add_comm, List.getElem?_cons_succ]
      simpa [Loop.parts] using hx
    · rw [uses, decide_eq_false_iff_not]
      omega
    · have : 0 + 1 + j < body.length := by simpa [Loop.parts, Nat.add_comm] using hj
      exact loop_next he plain (by omega) this
  holds := by simpa [Loop.parts] using loop_holds he plain
  fails i up hpath := loop_over plain (hpath ▸ he)
  back h := by simpa [Loop.parts] using loop_back he plain (by simpa [Loop.parts] using h)

end Loops

section ForLoops

variable {label : String} {init c post : Expr} {body : List Expr}

theorem for_first (he : S.sys.at? ⟨r, path⟩ = some (.forLoop id label init c post body)) :
    S.Enters r path (-1) 0 :=
  fun _ _ _ _ _ => goes_of_expr he fun _ ht => .one ((ht.mapConditions _).enter 0)

theorem for_test (he : S.sys.at? ⟨r, path⟩ = some (.forLoop id label init c post body)) :
    S.Enters r path (0 : Nat) 1 :=
  fun _ _ _ _ _ => goes_of_expr he fun _ ht => .repeating (ht.enter 1)

theorem for_holds (he : S.sys.at? ⟨r, path⟩ = some (.forLoop id label init c post body)) :
    S.EntersIf r path 1 true 2 := by
  intro l B F L G hb
  refine goes_of_expr he fun t ht => ?_
  have truth : ((S.frame r path (1 : Nat) (l :: B)).value 0 1).truth? = some true := hb
  simp only [Simulator.exprStep, Simulator.forStep]
  rw [if_neg (by simp [frame]), if_neg (by simp [frame]), if_pos (by simp [frame])]
  simp only [truth]
  exact .one (ht.enter 2)

theorem for_over (he : S.sys.at? ⟨r, i :: path⟩ = some (.forLoop id label init c post body)) :
    S.LeavesIf r i path 1 false := by
  intro U l B F L G hb
  refine goes_of_expr he fun t ht => ?_
  have truth : ((S.frame r (i :: path) (1 : Nat) (U :: l :: B)).value 0 1).truth? = some false := hb
  simp only [Simulator.exprStep, Simulator.forStep]
  rw [if_neg (by simp [frame]), if_neg (by simp [frame]), if_pos (by simp [frame])]
  simp only [truth]
  exact .one ((ht.mapConditions _).left _)

theorem for_next (he : S.sys.at? ⟨r, path⟩ = some (.forLoop id label init c post body)) (pos : 1 < i)
    (inside : i ≠ body.length + 2) : S.Enters r path i (i + 1) := by
  intro l B F L G
  refine goes_of_expr he fun t ht => ?_
  simp only [Simulator.exprStep, Simulator.forStep]
  rw [if_neg (by simp only [frame]; omega), if_neg (by simp only [frame]; omega),
    if_neg (by simp only [frame]; omega), if_neg (by simp only [frame]; omega)]
  exact .one (ht.enter _)

theorem for_back (he : S.sys.at? ⟨r, path⟩ = some (.forLoop id label init c post body)) :
    S.Enters r path (body.length + 2 : Nat) 1 := by
  intro l B F L G
  refine goes_of_expr he fun t ht => ?_
  simp only [Simulator.exprStep, Simulator.forStep]
  rw [if_neg (by simp only [frame]; omega), if_neg (by simp only [frame]; omega),
    if_neg (by simp only [frame]; omega), if_pos (by simp [frame])]
  exact .repeating (ht.enter 1)

theorem forAt (he : S.sys.at? ⟨r, path⟩ = some (.forLoop id label init c post body)) :
    S.LoopAt r path (.forLoop id label init c post body) ⟨label, 1, c, body, [post]⟩ where
  at? := he
  loop := rfl
  cond := by rw [System.at?_cons he]; rfl
  free := System.free_child he (by simp) (by simp)
  used := by rw [System.isUsed_child he]; rfl
  parts := by
    have free : ∀ k : Nat, S.sys.Free ⟨r, k :: path⟩ :=
      fun k => System.free_child he (by simp) (by simp)
    refine .of_children he (fun j x hx => ?_) (fun _ _ => free _) (fun j _ => ?_) fun j hj => ?_
    · rw [elementAt?_natCast, Expr.children, Nat.add_comm]
      exact hx
    · simp only [Expr.usesChild, decide_eq_false_iff_not]
      omega
    · have : 1 + 1 + j < body.length + 2 := by simpa [Loop.parts, Nat.add_comm] using hj
      change S.Enters r path (1 + 1 + j : Nat) (1 + 1 + j + 1)
      exact for_next he (by omega) (by omega)
  holds := by simpa [Loop.parts] using for_holds he
  fails i up hpath := for_over (hpath ▸ he)
  back _ := by
    have := for_back he
    simpa [Loop.parts, Nat.add_comm, Nat.add_left_comm] using this

end ForLoops

theorem loopAt_of_loop? (he : S.sys.at? ⟨r, path⟩ = some e) {w : Loop} (hw : e.loop? = some w) :
    S.LoopAt r path e w := by
  have free : (∀ id x m, e ≠ .access id x m) → (∀ id x y, e ≠ .binary id .assign x y) →
      ∀ k : Nat, S.sys.Free ⟨r, k :: path⟩ :=
    fun h h' k => System.free_child he h fun id x y heq => absurd heq (h' id x y)
  cases e with
  | whileLoop id label c body =>
      obtain rfl := Option.some.inj hw
      exact loopAt he (fun _ _ _ => rfl) rfl rfl (fun _ => rfl) (free (by simp) (by simp))
  | doLoop id label c body =>
      obtain rfl := Option.some.inj hw
      exact loopAt he (fun _ _ _ => rfl) rfl rfl (fun _ => rfl) (free (by simp) (by simp))
  | forLoop id label init c post body =>
      obtain rfl := Option.some.inj hw
      exact forAt he
  | _ => cases hw

theorem while_first {label : String} {c : Expr} {body : List Expr}
    (he : S.sys.at? ⟨r, path⟩ = some (.whileLoop id label c body)) : S.Enters r path (-1) 0 :=
  fun _ _ _ _ _ => goes_of_expr he fun _ ht => .repeating ((ht.mapConditions _).enter 0)

theorem do_first {label : String} {c : Expr} {body : List Expr}
    (he : S.sys.at? ⟨r, path⟩ = some (.doLoop id label c body)) :
    S.Enters r path (-1) (if body = [] then 0 else 1) := by
  intro l B F L G
  refine goes_of_expr he fun t ht => ?_
  cases body with
  | nil => exact .repeating ((ht.mapConditions _).enter 0)
  | cons x xs => exact .one ((ht.mapConditions _).enter 1)

end Structured.Setting

end DeltaSlice

/-!
Ways out of a statement other than its end: exits and repetitions, which look for their loop up the
path, and returns, which give up the frame whatever its path is.
-/

namespace DeltaSlice

theorem Expr.isTarget_of_loop? {e : Expr} {w : Structured.Loop} (h : e.loop? = some w)
    (label : String) (exits : Bool) :
    e.isTarget label exits = decide (label = "" ∨ label = w.label) := by
  cases e with
  | whileLoop | doLoop | forLoop =>
      obtain rfl := Option.some.inj h
      simp [isTarget]
  | _ => cases h

namespace Structured

/-- The node that leaves a loop, or the one that goes on with it. -/
def jump (exits : Bool) (id : Nat) (label : String) : Expr :=
  if exits then .exit id label else .next id label

namespace Setting

/-- The frame is at such a node somewhere below `path`, where the levels are `ls`, and its loop is not
among the nodes between. -/
inductive Parked (S : Setting) (exits : Bool) (label : String) (r : Routine) (path : Path)
    (B : List Level) : Frame → Prop where
  | mk (id : Nat) (i : Int) (below : Path) (inner : List Level) (len : inner.length = below.length)
      (at? : S.sys.at? ⟨r, below ++ path⟩ = some (jump exits id label))
      (miss : S.sys.target? r label exits 1 (below ++ path).tail =
        S.sys.target? r label exits below.length path) :
      Parked S exits label r path B (S.frame r (below ++ path) i (inner ++ B))

variable {S : Setting} {r : Routine} {path : Path} {i : Nat} {j : Int} {U l : Level}
  {B : List Level} {F : List Frame} {L G : Store} {e : Expr} {v : Value} {f : Frame} {id : Nat}
  {exits : Bool} {label : String}

theorem Parked.start (he : S.sys.at? ⟨r, j :: path⟩ = some (jump exits id label)) :
    S.Parked exits label r path B (S.frame r (j :: path) (-1) ([] :: B)) :=
  .mk id (-1) [j] [[]] rfl he rfl

/-- The search goes on above a node that is not meant. -/
theorem Parked.up (h : S.Parked exits label r (j :: path) (U :: B) f)
    (he : S.sys.at? ⟨r, j :: path⟩ = some e) (other : e.isTarget label exits = false) :
    S.Parked exits label r path B f := by
  cases h with
  | mk id i below inner len at? miss =>
      have hpath : below ++ j :: path = (below ++ [j]) ++ path := by simp
      have hlevels : inner ++ U :: B = (inner ++ [U]) ++ B := by simp
      rw [hpath, hlevels]
      rw [hpath] at at? miss
      refine .mk id i _ _ (by simp [len]) at? (miss.trans ?_)
      rw [System.target?]
      simp only [he, other, Bool.false_eq_true, if_false, List.length_append, List.length_singleton]

theorem Parked.target? (h : S.Parked exits label r path B f) :
    ∃ id i below inner, f = S.frame r (below ++ path) i (inner ++ B) ∧ inner.length = below.length ∧
      S.sys.at? ⟨r, below ++ path⟩ = some (jump exits id label) ∧
      S.sim.program.system.target? f.location.routine label exits 1 f.path.tail =
        S.sys.target? r label exits below.length path := by
  cases h with
  | mk id i below inner len at? miss => exact ⟨id, i, below, inner, rfl, len, at?, miss⟩

theorem pop_frame (below : Path) (inner : List Level) (len : inner.length = below.length) :
    (S.frame r (below ++ path) j (inner ++ B)).pop below.length = S.frame r path j B := by
  simp [frame, Frame.pop, Frame.path, ← len]

section Targets

variable {w : Loop} (hw : e.loop? = some w) (hit : label = "" ∨ label = w.label)
include hw hit

theorem target?_loop (he : S.sys.at? ⟨r, j :: path⟩ = some e) (n : Nat) :
    S.sys.target? r label exits n (j :: path) = some (n, e) := by
  rw [System.target?]
  simp only [he, Expr.isTarget_of_loop? hw, hit, decide_true, if_true]

/-- An exit leaves its loop. -/
theorem Parked.leaves (h : S.Parked true label r (i :: path) (U :: l :: B) f)
    (he : S.sys.at? ⟨r, i :: path⟩ = some e) :
    S.Goes false (.run f F L G) (S.point r path i (l.set i none :: B) F L G) := by
  obtain ⟨id, k, below, inner, rfl, len, at?, target⟩ := h.target?
  rw [target?_loop hw hit he] at target
  refine goes_of_expr at? fun t ht => ?_
  simp only [jump, if_true, Simulator.exprStep, Run.result_of, Simulator.exitStep, target]
  have hindex : (S.frame r (below ++ (i : Int) :: path) k (inner ++ U :: l :: B)).outermost? (below.length + 1) =
      some (i : Int) := by
    simp [frame, Frame.outermost?, Frame.path]
    omega
  simp only [hindex]
  have hpop : (S.frame r (below ++ (i : Int) :: path) k (inner ++ U :: l :: B)).pop
      (below.length + 1) = S.frame r path k (l :: B) := by
    have popped : (S.frame r ((below ++ [(i : Int)]) ++ path) k ((inner ++ [U]) ++ l :: B)).pop
        (below ++ [(i : Int)]).length = S.frame r path k (l :: B) :=
      S.pop_frame (below ++ [(i : Int)]) (inner ++ [U]) (by simp [len])
    simpa using popped
  have popped := (ht.mapConditions (·.dropThrough e.id)).mapTop (·.pop (below.length + 1))
  rw [hpop] at popped
  exact .one (popped.comeFrom i none)

/-- A repetition goes on behind the body of its loop. -/
theorem Parked.repeats (h : S.Parked false label r path B f) (hpath : path ≠ [])
    (he : S.sys.at? ⟨r, path⟩ = some e) :
    S.Goes false (.run f F L G)
      (S.point r path (w.test + w.body.length : Nat) B F L G) := by
  obtain ⟨j, up, rfl⟩ := List.exists_cons_of_ne_nil hpath
  obtain ⟨id, k, below, inner, rfl, len, at?, target⟩ := h.target?
  rw [target?_loop hw hit he] at target
  refine goes_of_expr at? fun t ht => ?_
  simp only [jump, Bool.false_eq_true, if_false, Simulator.exprStep, Run.result_of,
    Simulator.nextStep, target]
  obtain ⟨x, hindex⟩ : ∃ x, (S.frame r (below ++ j :: up) k (inner ++ B)).outermost? below.length = some x := by
    cases below with
    | nil =>
        obtain rfl : jump false id label = e := Option.some.inj (at?.symm.trans he)
        simp [jump, Expr.loop?] at hw
    | cons b below =>
        have deep : ¬ (inner ++ B).length < (b :: below).length := by
          rw [List.length_append, len]
          omega
        refine ⟨_, (if_neg deep).trans (List.getElem?_eq_getElem ?_)⟩
        simp [frame, Frame.path]
  simp only [hindex]
  have moved : S.Shows ((t.mapConditions (·.dropAbove e.id)).mapTop fun f =>
      { f.pop below.length with comingFrom := ((w.test + w.body.length : Nat) : Int) })
      (S.point r (j :: up) (w.test + w.body.length : Nat) B F L G) := by
    have := (ht.mapConditions (·.dropAbove e.id)).mapTop fun f =>
      { f.pop below.length with comingFrom := ((w.test + w.body.length : Nat) : Int) }
    rwa [pop_frame below inner len] at this
  cases e with
  | whileLoop | doLoop | forLoop =>
      obtain rfl := Option.some.inj hw
      refine .one ?_
      simpa [Expr.children, Int.add_comm] using moved
  | _ => cases hw

end Targets

/-! Returns. -/

/-- The next step from the frame returns from its routine with the value. -/
def Returns (S : Setting) (f : Frame) (v : Value) : Prop :=
  ∀ F L G ends c, (∀ t e i, S.Shows t (.run f F L G) →
    S.Gives (.ok (S.sim.returnFrom t e i v)) ends c) → S.Goes ends (.run f F L G) c

theorem returns_body (h : ((S.sys.body r).length : Int) - 1 ≤ j) :
    S.Returns (S.frame r [] j B) .unknown := by
  intro F L G ends c hgives
  refine goes_of_body rfl fun t ht => ?_
  unfold Simulator.bodyStep
  rw [if_neg (by simp only [frame]; exact not_lt.2 h)]
  exact hgives _ _ _ ht

theorem returns_plain (he : S.sys.at? ⟨r, path⟩ = some (.ret id none)) :
    S.Returns (S.frame r path j B) .unknown := by
  intro F L G ends c hgives
  refine goes_of_expr he fun t ht => ?_
  simp only [Simulator.exprStep, Option.isSome_none, Bool.and_false, Bool.false_eq_true, if_false]
  exact hgives _ _ _ ht

theorem returns_value {x : Expr} (he : S.sys.at? ⟨r, path⟩ = some (.ret id (some x))) :
    S.Returns (S.frame r path (0 : Nat) (l :: B)) (l.get 0) := by
  intro F L G ends c hgives
  refine goes_of_expr he fun t ht => ?_
  have : ¬ (((S.frame r path (0 : Nat) (l :: B)).comingFrom = -1 && (some x).isSome) = true) := by
    simp [frame]
  simp only [Simulator.exprStep]
  rw [if_neg this]
  exact hgives _ _ _ ht

theorem ret_first {x : Expr} (he : S.sys.at? ⟨r, path⟩ = some (.ret id (some x))) :
    S.Enters r path (-1) 0 :=
  fun _ _ _ _ _ => goes_of_expr he fun _ ht => .one (ht.enter 0)

/-- The variables of the caller when the parameters of the call have been dropped. -/
def dropLocals (stack : List Routine) (L : Store) (ds : List Decl) : Store :=
  ds.foldl (fun L d => L.erase (.ofFrame stack (.decl d))) L

theorem dropParams_eq (ps : ProcessState) (q : Routine) : Simulator.dropParams ps q =
    { ps with locals := dropLocals (q :: ps.routines) ps.locals q.params } := by
  unfold Simulator.dropParams dropLocals
  generalize q :: ps.routines = stack
  induction q.params generalizing ps with
  | nil => rfl
  | cons d ds ih => exact ih _

/-- A return to the caller, which gets the result behind its arguments. -/
theorem Returns.goes {m : Member} {args : List Expr} (h : S.Returns f v)
    (he : S.sys.at? ⟨r, path⟩ = some (.call id (.member m) args)) :
    S.Goes false (.run f (S.frame r path ((args.length : Int) - 1) (l :: B) :: F) L G)
      (S.point r path args.length (l.set args.length (some v) :: B) F
        (dropLocals (.member m :: r :: F.map (·.location.routine)) L m.params) G) := by
  refine h _ _ _ _ _ fun t e i ht => ?_
  have popped := ht.editPop
  have caller : (t.editRunning ProcessState.editPop).top? =
      some (S.frame r path ((args.length : Int) - 1) (l :: B)) := popped.top?
  have behind : (S.frame r path ((args.length : Int) - 1) (l :: B)).comingFrom + 1 = args.length := by
    simp [frame]
  have hat : S.sim.program.at? (S.frame r path ((args.length : Int) - 1) (l :: B)).location =
    some (.call id (.member m) args) := he
  have given := ((popped.comeFrom args.length (some v)).mapConditions (·.leaveCall)).mapRunning
    (Simulator.dropParams · (.member m))
  rw [dropParams_eq] at given
  unfold Simulator.returnFrom
  simp only [caller, behind, hat]
  exact .one given

/-- A return from the routine with which the process started. -/
theorem Returns.ends (h : S.Returns f v) (awake : S.proc.sensitivity = []) :
    S.Goes true (.run f [] L G) ⟨⟨some .terminated, [], L⟩, G⟩ := by
  refine h _ _ _ _ _ fun t e i ht => ?_
  have popped := ht.editPop
  have empty : (t.editRunning ProcessState.editPop).top? = none := popped.top?
  unfold Simulator.returnFrom
  simp only [empty, Simulator.endOfCode, popped.proc, awake, List.isEmpty_nil, if_true]
  exact ⟨_, _, rfl, rfl, rfl, popped.block _⟩

end Setting

end Structured

end DeltaSlice
