import DeltaSlice.Proofs.Structured.Configurations

/-!
Moves of the code: how each kind of node is entered, how control passes from one of its parts to the
next one, and how it is left. What lies on the levels counts only where a condition is tested.
-/

namespace DeltaSlice

/-- The result of child `i` on a level; without a result it is unknown. -/
def Level.get (l : Level) (i : Nat) : Value := ((elementAt? l i).join).getD .unknown

theorem Level.get_set (l : Level) (i : Nat) (x : Value) : Level.get (l.set i (some x)) i = x := by
  simp [Level.get, Level.slot_set]

theorem Level.get_set_of_ne (l : Level) {i j : Nat} (x : Option Value) (h : j ≠ i) :
    Level.get (l.set i x) j = l.get j := by
  unfold get
  rw [slot_set, if_neg (by omega)]

namespace System

variable {sys : System} {r : Routine} {path : Path} {e : Expr} {i : Int}

/-- The expression at a location is evaluated for its own value: it is neither the target of an
assignment nor the member of an access. -/
structure Free (sys : System) (l : Location) : Prop where
  unassigned : sys.isAssigned l = false
  unqualified : sys.isQualified l = false

theorem above?_child (he : sys.at? ⟨r, path⟩ = some e) : sys.above? ⟨r, i :: path⟩ = some e := he

theorem isUsed_child (he : sys.at? ⟨r, path⟩ = some e) :
    sys.isUsed ⟨r, i :: path⟩ = e.usesChild i := by
  simp [isUsed, above?_child he]

/-- Only an access and an assignment do something else with a child. -/
theorem free_child (he : sys.at? ⟨r, path⟩ = some e) (access : ∀ id x m, e ≠ .access id x m)
    (target : ∀ id x y, e = .binary id .assign x y → i ≠ 0) : sys.Free ⟨r, i :: path⟩ := by
  have above := above?_child (i := i) he
  cases e with
  | access id x m => exact absurd rfl (access id x m)
  | binary id op x y =>
      refine ⟨?_, by simp [isQualified, above]⟩
      simp only [isAssigned, above, Bool.and_eq_false_iff, decide_eq_false_iff_not]
      by_cases hop : op = .assign
      · subst hop
        exact .inr (target id x y rfl)
      · exact .inl hop
  | _ => exact ⟨by simp [isAssigned, above], by simp [isQualified, above]⟩

theorem free_body : sys.Free ⟨r, [i]⟩ := ⟨rfl, rfl⟩

end System

/-- A number, a truth value, or not known. -/
def Value.isScalar : Value → Bool
  | .unknown | .known (.literal (.int _)) | .known (.literal (.bool _)) => true
  | _ => false

theorem Simulator.eventList?_scalar {x : Value} (h : x.isScalar = true) (choice : Bool) (y : Value) :
    eventList? choice x y = none := by
  unfold Value.isScalar at h
  split at h <;> simp_all [eventList?]

namespace Structured.Setting

variable (S : Setting)

/-- A frame of a routine that runs for the instance of the process. -/
def frame (r : Routine) (path : Path) (i : Int) (levels : List Level) : Frame :=
  ⟨⟨r, path⟩, i, levels, .lit (.inst S.proc.inst)⟩

/-- A configuration with this frame on top. -/
def point (r : Routine) (path : Path) (i : Int) (levels : List Level) (F : List Frame)
    (L G : Store) : Config :=
  .run (S.frame r path i levels) F L G

/-- Coming from child `i`, the code enters child `k`. -/
def Enters (r : Routine) (path : Path) (i : Int) (k : Nat) : Prop :=
  ∀ l B F L G, S.Goes false (S.point r path i (l :: B) F L G)
    (S.point r (k :: path) (-1) ([] :: l :: B) F L G)

/-- The same, if child `i` gave a value with the truth `b`. -/
def EntersIf (r : Routine) (path : Path) (i : Nat) (b : Bool) (k : Nat) : Prop :=
  ∀ l B F L G, (Level.get l i).truth? = some b →
    S.Goes false (S.point r path i (l :: B) F L G)
      (S.point r (k :: path) (-1) ([] :: l :: B) F L G)

/-- The level above child `i` once the child was left with a value. -/
def keep (r : Routine) (i : Nat) (path : Path) (v : Value) (l : Level) : Level :=
  if S.sys.isUsed ⟨r, i :: path⟩ then l.set i (some v) else l

/-- Coming from child `j`, the code leaves child `i` of the node above, without a value. -/
def Leaves (r : Routine) (i : Nat) (path : Path) (j : Int) : Prop :=
  ∀ U l B F L G, S.Goes false (S.point r (i :: path) j (U :: l :: B) F L G)
    (S.point r path i (S.keep r i path .unknown l :: B) F L G)

/-- The same, if child `j` gave a value with the truth `b`. -/
def LeavesIf (r : Routine) (i : Nat) (path : Path) (j : Nat) (b : Bool) : Prop :=
  ∀ U l B F L G, (Level.get U j).truth? = some b →
    S.Goes false (S.point r (i :: path) j (U :: l :: B) F L G)
      (S.point r path i (S.keep r i path .unknown l :: B) F L G)

/-- The variable that a reference in the running code names. -/
def named (r : Routine) (F : List Frame) (d : Decl) : Variable :=
  if d.isGlobal then .ofOwner (.inst S.proc.inst) d
  else .ofFrame (r :: F.map (·.location.routine)) (.decl d)

/-- The value of a variable. -/
def lookup (v : Variable) (L G : Store) : Value :=
  (if v.isLocal then L.get? v else G.get? v).getD .unknown

variable {S} {r : Routine} {path : Path} {i k : Nat} {j : Int} {U l : Level} {B : List Level}
  {F : List Frame} {L G L' G' : Store} {e : Expr} {v : Value} {t : Transition} {id : Nat}

theorem finish_frame (v : Value) : S.sys.finish v (S.frame r (i :: path) j (U :: l :: B)) =
    S.frame r path i (S.keep r i path v l :: B) := by
  unfold System.finish Frame.leave keep
  change (if S.sys.isUsed ⟨r, (i : Int) :: path⟩ = true then _ else _) = _
  split <;> rfl

/-- A child has been left with a value. -/
theorem Shows.left (h : S.Shows t (S.point r (i :: path) j (U :: l :: B) F L G)) (v : Value) :
    S.Shows (t.finish S.sim.program.system v)
      (S.point r path i (S.keep r i path v l :: B) F L G) := by
  have := h.finish v
  rwa [finish_frame] at this

section Operators

variable (he : S.sys.at? ⟨r, path⟩ = some e)
  (plain : ∀ t ps f, S.sim.exprStep t ps f e = .of (S.sim.aggregateStep t f e))
include he plain

theorem operator_first (h : e.children ≠ []) : S.Enters r path (-1) 0 := by
  intro l B F L G
  refine goes_of_expr he fun t ht => ?_
  rw [plain, Run.result_of, Simulator.aggregateStep]
  have hlen := List.length_pos_iff.2 h
  rw [if_pos (by simp only [frame]; omega)]
  exact .one (ht.enter 0)

theorem operator_next (h : i + 1 < e.children.length) : S.Enters r path i (i + 1) := by
  intro l B F L G
  refine goes_of_expr he fun t ht => ?_
  rw [plain, Run.result_of, Simulator.aggregateStep]
  rw [if_pos (by simp only [frame]; omega)]
  exact .one (ht.enter (i + 1))

end Operators

/-- When all children have been evaluated, an operator is applied to their values. -/
theorem operator_last (he : S.sys.at? ⟨r, i :: path⟩ = some e)
    (plain : ∀ t ps f, S.sim.exprStep t ps f e = .of (S.sim.aggregateStep t f e))
    (last : (e.children.length : Int) - 1 ≤ j)
    (value : ∀ t, S.Shows t (S.point r (i :: path) j (U :: l :: B) F L G) →
      ∃ u, S.sim.aggregate t (S.frame r (i :: path) j (U :: l :: B)) e = .ok (v, u) ∧
        S.Shows u (S.point r (i :: path) j (U :: l :: B) F L' G')) :
    S.Goes false (S.point r (i :: path) j (U :: l :: B) F L G)
      (S.point r path i (S.keep r i path v l :: B) F L' G') := by
  refine goes_of_expr he fun t ht => ?_
  obtain ⟨u, hu, shows⟩ := value t ht
  rw [plain, Run.result_of, Simulator.aggregateStep, if_neg (by simp only [frame]; omega), hu]
  exact .one (shows.left v)

theorem unary_last {op : UnaryOp} {x : Expr} (he : S.sys.at? ⟨r, i :: path⟩ = some (.unary id op x)) :
    S.Goes false (S.point r (i :: path) (0 : Nat) (U :: l :: B) F L G)
      (S.point r path i (S.keep r i path (.applyUnary op (U.get 0)) l :: B) F L G) :=
  operator_last he (fun _ _ _ => rfl) (by simp [Expr.children]) fun t ht => ⟨t, rfl, ht⟩

theorem bracket_last {x : Expr} (he : S.sys.at? ⟨r, i :: path⟩ = some (.bracket id x)) :
    S.Goes false (S.point r (i :: path) (0 : Nat) (U :: l :: B) F L G)
      (S.point r path i (S.keep r i path (U.get 0) l :: B) F L G) :=
  operator_last he (fun _ _ _ => rfl) (by simp [Expr.children]) fun t ht => ⟨t, rfl, ht⟩

theorem block_last {es : List Expr} (he : S.sys.at? ⟨r, i :: path⟩ = some (.block id es))
    (last : (es.length : Int) - 1 ≤ j) : S.Leaves r i path j :=
  fun _ _ _ _ _ _ => operator_last he (fun _ _ _ => rfl) last fun t ht => ⟨t, rfl, ht⟩

theorem binary_last {op : BinaryOp} {x y : Expr} (hop : op ≠ .assign)
    (he : S.sys.at? ⟨r, i :: path⟩ = some (.binary id op x y)) (scalar : (U.get 0).isScalar = true) :
    S.Goes false (S.point r (i :: path) (1 : Nat) (U :: l :: B) F L G)
      (S.point r path i (S.keep r i path (.apply op (U.get 0) (U.get 1)) l :: B) F L G) := by
  refine operator_last he (fun _ _ _ => rfl) (by simp [Expr.children]) fun t ht => ⟨t, ?_, ht⟩
  have first : (S.frame r (i :: path) (1 : Nat) (U :: l :: B)).value 0 0 = U.get 0 := rfl
  have noList := fun c => Simulator.eventList?_scalar scalar c (U.get 1)
  have second : (S.frame r (i :: path) (1 : Nat) (U :: l :: B)).value 0 1 = U.get 1 := rfl
  unfold Simulator.aggregate
  cases op with
  | assign => exact absurd rfl hop
  | both | either =>
      simp only [first, second, noList, ite_self]
  | _ => rfl

/-! Constants, variables, assignments and calls. -/

theorem const_read {c : Literal} (he : S.sys.at? ⟨r, i :: path⟩ = some (.const id c))
    (hc : c.hasText = true) : S.Goes false (S.point r (i :: path) (-1) (U :: l :: B) F L G)
      (S.point r path i (S.keep r i path (.lit c) l :: B) F L G) := by
  refine goes_of_expr he fun t ht => ?_
  simp only [Simulator.exprStep, hc, Bool.not_true, Bool.and_false, Bool.false_eq_true, if_false]
  exact .one (ht.left _)

theorem named_isLocal (d : Decl) : (S.named r F d).isLocal = !d.isGlobal := by
  unfold named
  split <;> simp_all [Variable.ofOwner, Variable.ofFrame, Variable.isLocal]

theorem named_isQualified (d : Decl) : (S.named r F d).isQualified = true := by
  unfold named Variable.ofOwner Variable.ofFrame
  split
  · split <;> rfl
  · rfl

theorem referenced_frame (unqualified : S.sys.isQualified ⟨r, path⟩ = false) (d : Decl) :
    S.sim.referenced ⟨none, S.frame r path j (l :: B) :: F, L⟩ (S.frame r path j (l :: B)) d =
      S.named r F d := by
  have hq : S.sim.program.system.isQualified (S.frame r path j (l :: B)).location = false :=
    unqualified
  unfold Simulator.referenced named
  simp only [hq, Bool.false_eq_true, if_false]
  rfl

/-- Reading a variable. -/
theorem var_read {d : Decl} (he : S.sys.at? ⟨r, i :: path⟩ = some (.var id d))
    (free : S.sys.Free ⟨r, i :: path⟩) :
    S.Goes false (S.point r (i :: path) (-1) (U :: l :: B) F L G)
      (S.point r path i (S.keep r i path (lookup (S.named r F d) L G) l :: B) F L G) := by
  refine goes_of_expr he fun t ht => ?_
  have hread : S.sim.readVariable t ⟨none, S.frame r (i :: path) (-1) (U :: l :: B) :: F, L⟩
      (S.frame r (i :: path) (-1) (U :: l :: B)) d =
        (lookup (S.named r F d) L G, t.addRead (S.named r F d)) := by
    have unassigned : S.sim.program.system.isAssigned
        (S.frame r (i :: path) (-1) (U :: l :: B)).location = false := free.unassigned
    have values : t.state.global.values = G := by rw [ht.state]; rfl
    unfold Simulator.readVariable
    rw [referenced_frame free.unqualified, unassigned]
    simp only [Bool.false_eq_true, if_false, named_isQualified, S.tracked, Bool.and_self, if_true,
      Simulator.load, lookup, values]
  simp only [Simulator.exprStep, hread]
  exact .one ((ht.addRead _).left _)

/-- The target of an assignment evaluates to the variable. -/
theorem target_read {d : Decl} (he : S.sys.at? ⟨r, i :: path⟩ = some (.var id d))
    (assigned : S.sys.isAssigned ⟨r, i :: path⟩ = true)
    (unqualified : S.sys.isQualified ⟨r, i :: path⟩ = false) :
    S.Goes false (S.point r (i :: path) (-1) (U :: l :: B) F L G)
      (S.point r path i (S.keep r i path (.known (.target (S.named r F d))) l :: B) F L G) := by
  refine goes_of_expr he fun t ht => ?_
  have hread : S.sim.readVariable t ⟨none, S.frame r (i :: path) (-1) (U :: l :: B) :: F, L⟩
      (S.frame r (i :: path) (-1) (U :: l :: B)) d =
        (.known (.target (S.named r F d)), t) := by
    have assigned : S.sim.program.system.isAssigned
        (S.frame r (i :: path) (-1) (U :: l :: B)).location = true := assigned
    unfold Simulator.readVariable
    rw [referenced_frame unqualified, assigned]
    simp only [if_true, named_isQualified]
  simp only [Simulator.exprStep, hread]
  exact .one (ht.left _)

/-- The stores after a variable got a value. -/
def written (v : Variable) (x : Value) (L G : Store) : Store × Store :=
  if v.isLocal then (L.insert v x, G) else (L, G.insert v x)

theorem assign_last {d : Decl} {x y : Expr}
    (he : S.sys.at? ⟨r, i :: path⟩ = some (.binary id .assign x y))
    (target : U.get 0 = .known (.target (S.named r F d))) :
    S.Goes false (S.point r (i :: path) (1 : Nat) (U :: l :: B) F L G)
      (S.point r path i (S.keep r i path (U.get 1) l :: B) F
        (written (S.named r F d) (U.get 1) L G).1 (written (S.named r F d) (U.get 1) L G).2) := by
  refine operator_last he (fun _ _ _ => rfl) (by simp [Expr.children]) fun t ht =>
    ⟨S.sim.store (t.addWritten (S.named r F d)) (S.named r F d) (U.get 1), ?_, ?_⟩
  · have first : (S.frame r (i :: path) (1 : Nat) (U :: l :: B)).value 0 0 = _ := target
    unfold Simulator.aggregate
    simp only [first]
    rfl
  · unfold written
    cases hv : (S.named r F d).isLocal with
    | true => exact (ht.addWritten _).store_local hv _
    | false => exact (ht.addWritten _).store_global hv _

section Calls

variable {m : Member} {args : List Expr} (he : S.sys.at? ⟨r, path⟩ = some (.call id (.member m) args))
include he

theorem argument_first (h : args ≠ []) : S.Enters r path (-1) 0 := by
  intro l B F L G
  refine goes_of_expr he fun t ht => ?_
  have hlen := List.length_pos_iff.2 h
  simp only [Simulator.exprStep, Run.result_of, Simulator.callStep]
  rw [if_pos (by simp only [frame]; omega)]
  exact .one (ht.enter 0)

theorem argument_next (h : i + 1 < args.length) : S.Enters r path i (i + 1) := by
  intro l B F L G
  refine goes_of_expr he fun t ht => ?_
  simp only [Simulator.exprStep, Run.result_of, Simulator.callStep]
  rw [if_pos (by simp only [frame]; omega)]
  exact .one (ht.enter (i + 1))

end Calls

/-- The variables of a call after its parameters got their arguments. -/
def bindLocals (stack : List Routine) : Store → List Decl → List Value → Store
  | L, d :: ds, x :: xs => bindLocals stack (L.insert (.ofFrame stack (.decl d)) x) ds xs
  | L, _, _ => L

theorem Shows.bindParams {f : Frame} (stack : List Routine) (ds : List Decl) (xs : List Value)
    (h : S.Shows t (.run f F L G)) :
    S.Shows (S.sim.bindParams stack t ds xs) (.run f F (bindLocals stack L ds xs) G) := by
  induction ds generalizing t L xs with
  | nil => simpa [Simulator.bindParams, bindLocals] using h
  | cons d ds ih =>
      cases xs with
      | nil =>
          have := ih [] (h.addWritten (.ofFrame stack (.decl d)))
          cases ds <;> simpa [Simulator.bindParams, bindLocals] using this
      | cons x xs => exact ih xs ((h.addWritten _).store_local rfl x)

/-- The call itself: the routine starts with its parameters bound. -/
theorem call_starts {m : Member} {args : List Expr} {vs : List Value}
    (he : S.sys.at? ⟨r, path⟩ = some (.call id (.member m) args))
    (unqualified : S.sys.isQualified ⟨r, path⟩ = false) (hvs : vs.length = args.length)
    (hl : ∀ k v, vs[k]? = some v → l.get k = v) :
    S.Goes false (S.point r path ((args.length : Int) - 1) (l :: B) F L G)
      (S.point (.member m) [] (-1) [[]] (S.frame r path ((args.length : Int) - 1) (l :: B) :: F)
        (bindLocals (.member m :: r :: F.map (·.location.routine)) L m.params vs) G) := by
  refine goes_of_expr he fun t ht => ?_
  have hq : S.sim.program.system.isQualified
      (S.frame r path ((args.length : Int) - 1) (l :: B)).location = false := unqualified
  have hargs : ((List.range args.length).map fun (k : Nat) =>
      (S.frame r path ((args.length : Int) - 1) (l :: B)).value 0 k) = vs := by
    refine List.ext_getElem (by simp [hvs]) fun k _ hk => ?_
    rw [List.getElem_map, List.getElem_range]
    exact hl k vs[k] (List.getElem?_eq_getElem hk)
  simp only [Simulator.exprStep, Run.result_of, Simulator.callStep]
  rw [if_neg (by simp only [frame]; omega), if_neg (by simp only [frame]; omega), hq, hargs]
  simp only [Bool.false_eq_true, if_false]
  exact .one (Shows.bindParams _ _ _ ((ht.mapRunning _).mapConditions _))

/-- When the routine has returned, its result is that of the call. -/
theorem call_last {m : Member} {args : List Expr}
    (he : S.sys.at? ⟨r, i :: path⟩ = some (.call id (.member m) args)) :
    S.Goes false (S.point r (i :: path) args.length (U :: l :: B) F L G)
      (S.point r path i (S.keep r i path (U.get args.length) l :: B) F L G) := by
  refine goes_of_expr he fun t ht => ?_
  simp only [Simulator.exprStep, Run.result_of, Simulator.callStep]
  rw [if_neg (by simp only [frame]; omega), if_pos (by simp only [frame]; omega)]
  exact .one (ht.left _)

end Structured.Setting

end DeltaSlice
