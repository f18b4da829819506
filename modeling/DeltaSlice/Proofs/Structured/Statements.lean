import DeltaSlice.Proofs.Structured.Simulation

/-!
Small steps on expressions do what structured evaluation does, one lemma for each kind of expression.
Calls are left to what is known of the body of the routine.
-/

namespace DeltaSlice

namespace Structured

open Setting

variable {S : Setting} {m m' m'' : Memory} {x y e : Expr} {es : List Expr} {v : Value}
  {vs : List Value} {o : Outcome} {id : Nat}

section Operands

variable {r : Routine} {path : Path} {j : Int} {k : Nat} {l : Level} {B : List Level}
  {F : List Frame} {L : Store}

/-- A child is entered and evaluated, and its value is used. -/
theorem Simulated.operand (h : Simulated S m m' (.term x v)) (enters : S.Enters r path j k)
    (hx : S.sys.at? ⟨r, k :: path⟩ = some x) (free : S.sys.Free ⟨r, k :: path⟩)
    (used : S.sys.isUsed ⟨r, k :: path⟩ = true) (agrees : Agrees m (callStack r F) L) :
    ∃ L', S.Reaches (S.point r path j (l :: B) F L m.globals)
        (S.point r path k (l.set k (some v) :: B) F L' m'.globals) ∧
      After m' (callStack r F) L L' := by
  obtain ⟨L', reaches, after⟩ := h hx free agrees
  rw [keep_used used] at reaches
  exact ⟨L', (enters _ _ _ _ _).then reaches, after⟩

end Operands

theorem simulated_const {c : Literal} (hc : c.hasText = true) :
    Simulated S m m (.term (.const id c) (.lit c)) := by
  intro r i path l B F L he free agrees
  exact ⟨L, (const_read he hc).reaches, .refl agrees⟩

theorem simulated_var {d : Decl} (hv : m.get? S.proc.inst d = some v) :
    Simulated S m m (.term (.var id d) v) := by
  intro r i path l B F L he free agrees
  have read := S.var_read (U := []) (l := l) (B := B) (F := F) (L := L) (G := m.globals) he free
  rw [lookup_named agrees hv] at read
  exact ⟨L, read.reaches, .refl agrees⟩

theorem Simulated.unary {op : UnaryOp} (h : Simulated S m m' (.term x v)) :
    Simulated S m m' (.term (.unary id op x) (.applyUnary op v)) := by
  intro r i path l B F L he free agrees
  obtain ⟨L', reaches, after⟩ := h.operand (l := []) (B := l :: B)
    (operator_first he (fun _ _ _ => rfl) (by simp [Expr.children]))
    (by rw [System.at?_cons he]; rfl) (System.free_child he (by simp) (by simp))
    (by rw [System.isUsed_child he]; rfl) agrees
  have last := S.unary_last (U := Level.set [] 0 (some v)) (l := l) (B := B) (F := F)
    (L := L') (G := m'.globals) he
  rw [Level.get_set] at last
  exact ⟨L', reaches.snoc last, after⟩

theorem Simulated.bracket (h : Simulated S m m' (.term x v)) :
    Simulated S m m' (.term (.bracket id x) v) := by
  intro r i path l B F L he free agrees
  obtain ⟨L', reaches, after⟩ := h.operand (l := []) (B := l :: B)
    (operator_first he (fun _ _ _ => rfl) (by simp [Expr.children]))
    (by rw [System.at?_cons he]; rfl) (System.free_child he (by simp) (by simp))
    (by rw [System.isUsed_child he]; rfl) agrees
  have last := S.bracket_last (U := Level.set [] 0 (some v)) (l := l) (B := B) (F := F)
    (L := L') (G := m'.globals) he
  rw [Level.get_set] at last
  exact ⟨L', reaches.snoc last, after⟩

theorem Simulated.binary {op : BinaryOp} {w : Value} (hop : op ≠ .assign)
    (left : Simulated S m m' (.term x v)) (right : Simulated S m' m'' (.term y w))
    (scalar : v.isScalar = true) :
    Simulated S m m'' (.term (.binary id op x y) (.apply op v w)) := by
  intro r i path l B F L he free agrees
  have other : ∀ k : Nat, S.sys.Free ⟨r, k :: i :: path⟩ :=
    fun k => System.free_child he (by simp) fun _ _ _ heq => by cases heq; exact absurd rfl hop
  have used : ∀ k : Nat, S.sys.isUsed ⟨r, k :: i :: path⟩ = true :=
    fun k => by rw [System.isUsed_child he]; rfl
  obtain ⟨L₁, first, after⟩ := left.operand (l := []) (B := l :: B)
    (operator_first he (fun _ _ _ => rfl) (by simp [Expr.children]))
    (by rw [System.at?_cons he]; rfl) (other 0) (used 0) agrees
  obtain ⟨L₂, second, after'⟩ := right.operand (l := Level.set [] 0 (some v)) (B := l :: B)
    (operator_next (i := 0) he (fun _ _ _ => rfl) (by simp [Expr.children]))
    (by rw [System.at?_cons he]; rfl) (other 1) (used 1) after.agrees
  have first_get : Level.get (Level.set (Level.set [] 0 (some v)) 1 (some w)) 0 = v := by
    rw [Level.get_set_of_ne _ _ (by decide), Level.get_set]
  have last := S.binary_last (U := Level.set (Level.set [] 0 (some v)) 1 (some w)) (l := l) (B := B)
    (F := F) (L := L₂) (G := m''.globals) hop he (by rw [first_get, scalar])
  rw [first_get, Level.get_set] at last
  exact ⟨L₂, (first.trans second).snoc last, after.trans after'⟩

theorem Simulated.assign {i' : Nat} {d : Decl} (h : Simulated S m m' (.term y v)) :
    Simulated S m (m'.set S.proc.inst d v) (.term (.binary id .assign (.var i' d) y) v) := by
  intro r i path l B F L he free agrees
  have hx : S.sys.at? ⟨r, (0 : Nat) :: (i : Int) :: path⟩ = some (.var i' d) := by
    rw [System.at?_cons he]
    rfl
  have used : ∀ k : Nat, S.sys.isUsed ⟨r, k :: i :: path⟩ = true :=
    fun k => by rw [System.isUsed_child he]; rfl
  have target := S.target_read (U := []) (l := []) (B := l :: B) (F := F) (L := L)
    (G := m.globals) hx (by simp [System.isAssigned, System.above?_child he])
    (by simp [System.isQualified, System.above?_child he])
  rw [keep_used (used 0)] at target
  have first := operator_first he (fun _ _ _ => rfl) (by simp [Expr.children])
    [] (l :: B) F L m.globals
  obtain ⟨L', second, after⟩ := h.operand (B := l :: B)
    (operator_next (i := 0) he (fun _ _ _ => rfl) (by simp [Expr.children]))
    (by rw [System.at?_cons he]; rfl)
    (System.free_child (i := ((0 + 1 : Nat) : Int)) he (by simp) (by simp)) (used 1) agrees
  have last := S.assign_last (d := d) (l := l) (B := B) (F := F) (L := L') (G := m'.globals) he
    (U := Level.set (Level.set [] 0 (some (.known (.target (S.named r F d))))) 1 (some v))
    (by rw [Level.get_set_of_ne _ _ (by decide), Level.get_set])
  obtain ⟨globals, stored⟩ := written_named (S := S) (d := d) after.agrees v
  rw [Level.get_set, globals] at last
  exact ⟨_, first.then (target.then (second.snoc last)), after.trans stored⟩

theorem simulated_noTerms : Simulated S m m (.terms [] []) := by
  intro r k path used l B F L seg hes
  exact absurd rfl hes

theorem Simulated.moreTerms (first : Simulated S m m' (.term e v))
    (others : Simulated S m' m'' (.terms es vs)) (empty : es = [] → vs = [] ∧ m' = m'') :
    Simulated S m m'' (.terms (e :: es) (v :: vs)) := by
  intro r k path used l B F L seg _ agrees
  obtain ⟨L₁, reaches, after⟩ := first (l := l) (B := B) seg.head seg.head_free agrees
  have kept : used = true → S.keep r k path v l = l.set k (some v) :=
    fun h => keep_used (seg.head_used.trans h) v l
  cases es with
  | nil =>
      obtain ⟨rfl, rfl⟩ := empty rfl
      refine ⟨L₁, _, reaches, after, fun h => ?_⟩
      rw [kept h]
      refine ⟨fun j hj => Level.get_set_of_ne _ _ (by omega), fun j w hw => ?_⟩
      cases j with
      | zero =>
          obtain rfl := Option.some.inj hw
          exact Level.get_set _ _ _
      | succ j => cases hw
  | cons e' es =>
      have enters := seg.next 0 (by simp) (S.keep r k path v l) B F L₁ m'.globals
      obtain ⟨L₂, l', reaches', after', get⟩ := others (l := S.keep r k path v l) (B := B)
        seg.tail (by simp) after.agrees
      have last : k + 1 + (e' :: es).length - 1 = k + (e :: e' :: es).length - 1 := by
        simp only [List.length_cons]
        omega
      rw [last] at reaches'
      refine ⟨L₂, l', reaches.trans (enters.then reaches'), after.trans after', fun h => ?_⟩
      obtain ⟨before, later⟩ := get h
      rw [kept h] at before
      refine ⟨fun j hj => ?_, fun j w hw => ?_⟩
      · rw [before j (by omega), Level.get_set_of_ne _ _ (by omega)]
      · cases j with
        | zero =>
            obtain rfl := Option.some.inj hw
            rw [Nat.add_zero, before k (by omega), Level.get_set]
        | succ j =>
            rw [← later j w hw, Nat.add_assoc, Nat.add_comm 1]

end Structured

end DeltaSlice

/-!
Small steps on statements, loops and routines do what structured evaluation does.
-/

namespace DeltaSlice

namespace Structured

open Setting

variable {S : Setting} {m m' m'' m''' : Memory} {e : Expr} {es : List Expr} {v : Value}
  {o : Outcome} {id : Nat} {label : String}

theorem Simulated.expression (h : Simulated S m m' (.term e v)) :
    Simulated S m m' (.stmt e .normal) := by
  intro r i path l B F L he free unused agrees
  obtain ⟨L', reaches, after⟩ := h (l := l) (B := B) he free agrees
  exact ⟨L', _, reaches, after, _, rfl⟩

theorem simulated_exit : Simulated S m m (.stmt (.exit id label) (.exit label)) := by
  intro r i path l B F L he free unused agrees
  exact ⟨_, _, .refl _, .refl agrees, _, .start he⟩

theorem simulated_next : Simulated S m m (.stmt (.next id label) (.next label)) := by
  intro r i path l B F L he free unused agrees
  exact ⟨_, _, .refl _, .refl agrees, _, .start he⟩

theorem simulated_ret : Simulated S m m (.stmt (.ret id none) (.ret .unknown)) := by
  intro r i path l B F L he free unused agrees
  exact ⟨_, _, .refl _, .refl agrees, returns_plain he⟩

theorem Simulated.retValue (h : Simulated S m m' (.term e v)) :
    Simulated S m m' (.stmt (.ret id (some e)) (.ret v)) := by
  intro r i path l B F L he free unused agrees
  obtain ⟨L', reaches, after⟩ := h.operand (l := []) (B := l :: B) (ret_first he)
    (by rw [System.at?_cons he]; rfl) (System.free_child he (by simp) (by simp))
    (by rw [System.isUsed_child he]; rfl) agrees
  have returns := S.returns_value (l := Level.set [] 0 (some v)) (B := l :: B) he
  rw [Level.get_set] at returns
  exact ⟨L', _, reaches, after, returns⟩

theorem simulated_noStmts : Simulated S m m (.stmts [] .normal) := by
  intro r k path l B F L seg hes
  exact absurd rfl hes

theorem Simulated.moreStmts (first : Simulated S m m' (.stmt e .normal))
    (others : Simulated S m' m'' (.stmts es o)) (empty : es = [] → o = .normal ∧ m' = m'') :
    Simulated S m m'' (.stmts (e :: es) o) := by
  intro r k path l B F L seg _ agrees
  obtain ⟨L₁, f, reaches, after, l', rfl⟩ :=
    first (l := l) (B := B) seg.head seg.head_free seg.head_used agrees
  cases es with
  | nil =>
      obtain ⟨rfl, rfl⟩ := empty rfl
      exact ⟨L₁, _, reaches, after, l', rfl⟩
  | cons e' es =>
      have enters := seg.next 0 (by simp) l' B F L₁ m'.globals
      obtain ⟨L₂, f, reaches', after', arrives⟩ := others (l := l') (B := B) seg.tail (by simp)
        after.agrees
      have last : k + 1 + (e' :: es).length - 1 = k + (e :: e' :: es).length - 1 := by
        simp only [List.length_cons]
        omega
      exact ⟨L₂, f, reaches.trans (enters.then reaches'), after.trans after', last ▸ arrives⟩

theorem Simulated.leave (h : Simulated S m m' (.stmt e o)) (left : o ≠ .normal) :
    Simulated S m m' (.stmts (e :: es) o) := by
  intro r k path l B F L seg _ agrees
  obtain ⟨L', f, reaches, after, arrives⟩ :=
    h (l := l) (B := B) seg.head seg.head_free seg.head_used agrees
  exact ⟨L', f, reaches, after, arrives.elsewhere left⟩

/-- A list of statements below a node that is no loop, and then the way out of the node. -/
theorem Simulated.inside {r : Routine} {i k : Nat} {path : Path} {U l : Level} {B : List Level}
    {F : List Frame} {L : Store} {q : Expr} (h : Simulated S m m' (.stmts es o))
    (hq : S.sys.at? ⟨r, i :: path⟩ = some q) (seg : S.Segment r (i :: path) k false es)
    (hes : es ≠ []) (other : ∀ label exits, q.isTarget label exits = false)
    (leaves : S.Leaves r i path (k + es.length - 1 : Nat)) (agrees : Agrees m (callStack r F) L) :
    ∃ L' f, S.Reaches (S.point r (k :: i :: path) (-1) ([] :: U :: l :: B) F L m.globals)
        (.run f F L' m'.globals) ∧
      After m' (callStack r F) L L' ∧ Arrives S r path i B o f := by
  obtain ⟨L', f, reaches, after, arrives⟩ := h (l := U) (B := l :: B) seg hes agrees
  by_cases left : o = .normal
  · subst left
    obtain ⟨l', rfl⟩ := arrives
    exact ⟨L', _, reaches.snoc (leaves _ _ _ _ _ _), after, _, rfl⟩
  · exact ⟨L', f, reaches, after, arrives.up hq other left⟩

theorem Simulated.block (h : Simulated S m m' (.stmts es o)) (empty : es = [] → o = .normal ∧ m = m') :
    Simulated S m m' (.stmt (.block id es) o) := by
  intro r i path l B F L he free unused agrees
  by_cases hes : es = []
  · obtain ⟨rfl, rfl⟩ := empty hes
    have leaves := S.block_last (j := -1) he (by simp [hes])
    exact ⟨L, _, (leaves _ _ _ _ _ _).reaches, .refl agrees, _, rfl⟩
  · have first := operator_first he (fun _ _ _ => rfl) hes [] (l :: B) F L m.globals
    have hlen := List.length_pos_iff.2 hes
    have seg : S.Segment r (i :: path) 0 false es := by
      refine .of_children he (fun j x hx => ?_) (fun j _ => System.free_child he (by simp) (by simp))
        (fun _ _ => rfl) fun j hj => operator_next he (fun _ _ _ => rfl) (by simpa [Expr.children] using hj)
      rw [elementAt?_natCast, Expr.children, Nat.zero_add, hx]
    have leaves := S.block_last (j := (0 + es.length - 1 : Nat)) he (by omega)
    obtain ⟨L', f, reaches, after, arrives⟩ :=
      h.inside (U := []) (l := l) (B := B) he seg hes (fun _ _ => rfl) leaves agrees
    exact ⟨L', f, first.then reaches, after, arrives⟩

theorem Simulated.branch {c : Expr} {yes no : List Expr} {b : Bool}
    (condition : Simulated S m m' (.term c v)) (determined : v.truth? = some b)
    (taken : Simulated S m' m'' (.stmts (if b then yes else no) o))
    (empty : (if b then yes else no) = [] → o = .normal ∧ m' = m'') :
    Simulated S m m'' (.stmt (.branch id c yes no) o) := by
  intro r i path l B F L he free unused agrees
  obtain ⟨L₁, tested, after⟩ := condition.operand (l := []) (B := l :: B) (branch_first he)
    (by rw [System.at?_cons he]; rfl) (System.free_child he (by simp) (by simp))
    (by rw [System.isUsed_child he]; rfl) agrees
  have truth : (Level.get (Level.set [] 0 (some v)) 0).truth? = some b := by
    rw [Level.get_set, determined]
  by_cases hlist : (if b then yes else no) = []
  · obtain ⟨rfl, rfl⟩ := empty hlist
    have skips := branch_skips he b hlist _ l B F L₁ m'.globals truth
    exact ⟨L₁, _, tested.snoc skips, after, _, rfl⟩
  · have enters := branch_enters he b hlist _ (l :: B) F L₁ m'.globals truth
    have hlen := List.length_pos_iff.2 hlist
    have leaves := branch_last he b hlist
    have last : (if b then 0 else yes.length) + (if b then yes else no).length =
        (if b then 1 else yes.length + 1) + (if b then yes else no).length - 1 := by
      split <;> omega
    rw [last] at leaves
    obtain ⟨L₂, f, reaches, after', arrives⟩ := taken.inside (U := Level.set [] 0 (some v)) (l := l)
      (B := B) he (branch_segment he b) hlist (fun _ _ => rfl) leaves after.agrees
    exact ⟨L₂, f, tested.trans (enters.then reaches), after.trans after', arrives⟩

section Loops

variable {c : Expr} {body posts : List Expr}

/-- What is evaluated after the body of a loop, and then the way back to the condition. -/
theorem Simulated.posted {r : Routine} {path : Path} {w : Loop} {l : Level} {B : List Level}
    {F : List Frame} {L : Store} {vs : List Value} (h : Simulated S m m' (.terms w.posts vs))
    (hw : S.LoopAt r path e w) (hposts : w.posts ≠ []) (agrees : Agrees m (callStack r F) L) :
    ∃ L' l', S.Reaches (S.point r ((w.test + 1 + w.body.length : Nat) :: path) (-1) ([] :: l :: B)
        F L m.globals) (S.point r (w.test :: path) (-1) ([] :: l' :: B) F L' m'.globals) ∧
      After m' (callStack r F) L L' := by
  obtain ⟨L', l', reaches, after, -⟩ := h (l := l) (B := B) hw.parts.right hposts agrees
  have hlen := List.length_pos_iff.2 hposts
  have back := hw.back (by simp [Loop.parts, hposts]) l' B F L' m'.globals
  have last : w.test + 1 + w.body.length + w.posts.length - 1 = w.test + w.parts.length := by
    simp only [Loop.parts, List.length_append]
    omega
  rw [last] at reaches
  exact ⟨L', l', reaches.snoc back, after⟩

/-- From the end of the body of a loop, which is not empty, to its condition. -/
theorem Simulated.around {r : Routine} {path : Path} {w : Loop} {l : Level} {B : List Level}
    {F : List Frame} {L : Store} {vs : List Value} (h : Simulated S m m' (.terms w.posts vs))
    (empty : w.posts = [] → m = m') (hw : S.LoopAt r path e w) (hbody : w.body ≠ [])
    (agrees : Agrees m (callStack r F) L) :
    ∃ L' l', S.Reaches (S.point r path (w.test + w.body.length : Nat) (l :: B) F L m.globals)
        (S.point r (w.test :: path) (-1) ([] :: l' :: B) F L' m'.globals) ∧
      After m' (callStack r F) L L' := by
  have hlen := List.length_pos_iff.2 hbody
  by_cases hposts : w.posts = []
  · obtain rfl := empty hposts
    have back := hw.back (by simp [Loop.parts, hbody]) l B F L m.globals
    simp only [Loop.parts, hposts, List.append_nil] at back
    exact ⟨L, l, back.reaches, .refl agrees⟩
  · have hpos := List.length_pos_iff.2 hposts
    have enters := hw.parts.next (w.body.length - 1)
      (by simp only [Loop.parts, List.length_append]; omega) l B F L m.globals
    rw [show w.test + 1 + (w.body.length - 1) = w.test + w.body.length by omega] at enters
    obtain ⟨L', l', reaches, after⟩ := h.posted (l := l) (B := B) hw hposts agrees
    rw [Nat.add_right_comm] at reaches
    exact ⟨L', l', enters.then reaches, after⟩

theorem Simulated.passed {vs : List Value} (inner : Simulated S m m' (.stmts body o))
    (more : o.ofLoop label = none) (after : Simulated S m' m'' (.terms posts vs))
    (noBody : body = [] → m = m') (noPosts : posts = [] → m' = m'') :
    Simulated S m m'' (.pass label body posts none) := by
  rintro r path e w l B F L hw rfl rfl rfl agrees
  by_cases hbody : w.body = []
  · obtain rfl := noBody hbody
    by_cases hposts : w.posts = []
    · obtain rfl := noPosts hposts
      rw [if_pos (by simp [Loop.parts, hbody, hposts])]
      exact ⟨L, l, .refl _, .refl agrees⟩
    · rw [if_neg (by simp [Loop.parts, hposts])]
      have := after.posted (l := l) (B := B) hw hposts agrees
      simpa [hbody] using this
  · rw [if_neg (by simp [Loop.parts, hbody])]
    have hlen := List.length_pos_iff.2 hbody
    obtain ⟨L₁, f, reaches, first, arrives⟩ :=
      inner (l := l) (B := B) hw.parts.left hbody agrees
    have behind : ∃ l', S.Reaches (S.point r ((w.test + 1 : Nat) :: path) (-1) ([] :: l :: B) F L
        m.globals) (S.point r path (w.test + w.body.length : Nat) (l' :: B) F L₁ m'.globals) := by
      cases o with
      | normal =>
          obtain ⟨l', rfl⟩ := arrives
          rw [show w.test + 1 + w.body.length - 1 = w.test + w.body.length by omega] at reaches
          exact ⟨l', reaches⟩
      | next label =>
          obtain ⟨l', parked⟩ := arrives
          have hit : label = "" ∨ label = w.label :=
            or_iff_not_imp_left.2 (by simpa [Outcome.ofLoop] using more)
          have hpath : path ≠ [] := by
            rintro rfl
            exact absurd hw.at? (by simp [System.at?, Path.resolve?])
          exact ⟨l', reaches.snoc (parked.repeats hw.loop hit hpath hw.at?)⟩
      | exit | ret => cases more
    obtain ⟨l', behind⟩ := behind
    obtain ⟨L₂, l'', around, second⟩ := after.around noPosts hw hbody first.agrees
    exact ⟨L₂, l'', behind.trans around, first.trans second⟩

theorem Simulated.broken {o' : Outcome} (inner : Simulated S m m' (.stmts body o))
    (left : o.ofLoop label = some o') (noBody : body = [] → o = .normal) :
    Simulated S m m' (.pass label body posts (some o')) := by
  rintro r i path e w U l B F L hw rfl rfl rfl agrees
  have hbody : w.body ≠ [] := by
    intro hbody
    obtain rfl := noBody hbody
    cases left
  rw [if_neg (by simp [Loop.parts, hbody])]
  obtain ⟨L', f, reaches, after, arrives⟩ :=
    inner (l := U) (B := l :: B) hw.parts.left hbody agrees
  have target := Expr.isTarget_of_loop? hw.loop
  cases o with
  | normal => cases left
  | exit label =>
      obtain ⟨l', parked⟩ := arrives
      simp only [Outcome.ofLoop, Bool.or_eq_true, decide_eq_true_eq] at left
      split at left
      · rename_i hit
        obtain rfl := Option.some.inj left
        exact ⟨L', _, reaches.snoc (parked.leaves hw.loop hit hw.at?), after, _, rfl⟩
      · rename_i miss
        obtain rfl := Option.some.inj left
        exact ⟨L', f, reaches, after, l, parked.up hw.at? (by rw [target, decide_eq_false miss])⟩
  | next label =>
      obtain ⟨l', parked⟩ := arrives
      simp only [Outcome.ofLoop, Bool.or_eq_true, decide_eq_true_eq] at left
      split at left
      · cases left
      · rename_i miss
        obtain rfl := Option.some.inj left
        exact ⟨L', f, reaches, after, l, parked.up hw.at? (by rw [target, decide_eq_false miss])⟩
  | ret v =>
      obtain rfl := Option.some.inj left
      exact ⟨L', f, reaches, after, arrives⟩

/-- The condition of a loop has been evaluated. -/
theorem Simulated.tested {r : Routine} {path : Path} {w : Loop} {l : Level} {B : List Level}
    {F : List Frame} {L : Store} (h : Simulated S m m' (.term w.cond v)) (hw : S.LoopAt r path e w)
    (agrees : Agrees m (callStack r F) L) :
    ∃ L', S.Reaches (S.point r (w.test :: path) (-1) ([] :: l :: B) F L m.globals)
        (S.point r path w.test (l.set w.test (some v) :: B) F L' m'.globals) ∧
      After m' (callStack r F) L L' := by
  obtain ⟨L', reaches, after⟩ := h (l := l) (B := B) hw.cond hw.free agrees
  rw [keep_used hw.used] at reaches
  exact ⟨L', reaches, after⟩

theorem Simulated.done (condition : Simulated S m m' (.term c v)) (fails : v.truth? = some false) :
    Simulated S m m' (.rounds label c body posts .normal) := by
  intro r i path e w U l B F L hw parts unused agrees
  have hc : w.cond = c := congrArg Loop.cond parts
  obtain ⟨L', tested, after⟩ := Simulated.tested (l := U) (B := l :: B) (hc ▸ condition) hw agrees
  have leaves := hw.fails i path rfl (U.set w.test (some v)) l B F L' m'.globals
    (by rw [Level.get_set, fails])
  exact ⟨L', _, tested.snoc leaves, after, _, rfl⟩

theorem Simulated.again (condition : Simulated S m m' (.term c v)) (holds : v.truth? = some true)
    (round : Simulated S m' m'' (.pass label body posts none))
    (loop : Simulated S m'' m''' (.rounds label c body posts o)) :
    Simulated S m m''' (.rounds label c body posts o) := by
  intro r i path e w U l B F L hw parts unused agrees
  have hc : w.cond = c := congrArg Loop.cond parts
  obtain ⟨L₁, tested, after⟩ := Simulated.tested (l := U) (B := l :: B) (hc ▸ condition) hw agrees
  have enters := hw.holds (U.set w.test (some v)) (l :: B) F L₁ m'.globals
    (by rw [Level.get_set, holds])
  obtain ⟨L₂, l₂, passed, after₂⟩ := round (l := U.set w.test (some v)) (B := l :: B) hw
    (congrArg Loop.label parts) (congrArg Loop.body parts) (congrArg Loop.posts parts) after.agrees
  obtain ⟨L₃, f, reaches, after₃, arrives⟩ := loop (U := l₂) (l := l) (B := B) hw parts unused
    after₂.agrees
  exact ⟨L₃, f, tested.trans (enters.then (passed.trans reaches)),
    (after.trans after₂).trans after₃, arrives⟩

theorem Simulated.last (condition : Simulated S m m' (.term c v)) (holds : v.truth? = some true)
    (round : Simulated S m' m'' (.pass label body posts (some o))) :
    Simulated S m m'' (.rounds label c body posts o) := by
  intro r i path e w U l B F L hw parts unused agrees
  have hc : w.cond = c := congrArg Loop.cond parts
  obtain ⟨L₁, tested, after⟩ := Simulated.tested (l := U) (B := l :: B) (hc ▸ condition) hw agrees
  have enters := hw.holds (U.set w.test (some v)) (l :: B) F L₁ m'.globals
    (by rw [Level.get_set, holds])
  obtain ⟨L₂, f, reaches, after₂, arrives⟩ := round (U := U.set w.test (some v)) (l := l) (B := B)
    hw (congrArg Loop.label parts) (congrArg Loop.body parts) (congrArg Loop.posts parts) after.agrees
  exact ⟨L₂, f, tested.trans (enters.then reaches), after.trans after₂, arrives⟩

theorem Simulated.whileLoop (h : Simulated S m m' (.rounds label c body [] o)) :
    Simulated S m m' (.stmt (.whileLoop id label c body) o) := by
  intro r i path l B F L he free unused agrees
  have hw := loopAt_of_loop? he rfl
  obtain ⟨L', f, reaches, after, arrives⟩ := h (U := []) (l := l) (B := B) hw rfl unused agrees
  exact ⟨L', f, (while_first he _ _ _ _ _).then reaches, after, arrives⟩

theorem Simulated.doLoop (first : Simulated S m m' (.pass label body [] none))
    (loop : Simulated S m' m'' (.rounds label c body [] o)) :
    Simulated S m m'' (.stmt (.doLoop id label c body) o) := by
  intro r i path l B F L he free unused agrees
  have hw := loopAt_of_loop? he rfl
  obtain ⟨L₁, l₁, passed, after⟩ := first (l := []) (B := l :: B) hw rfl rfl rfl agrees
  obtain ⟨L₂, f, reaches, after₂, arrives⟩ := loop (U := l₁) (l := l) (B := B) hw rfl unused
    after.agrees
  have enters := do_first he [] (l :: B) F L m.globals
  simp only [Loop.parts, List.append_nil, Nat.zero_add] at passed
  exact ⟨L₂, f, enters.then (passed.trans reaches), after.trans after₂, arrives⟩

theorem Simulated.doOnce (first : Simulated S m m' (.pass label body [] (some o))) :
    Simulated S m m' (.stmt (.doLoop id label c body) o) := by
  intro r i path l B F L he free unused agrees
  have hw := loopAt_of_loop? he rfl
  obtain ⟨L', f, reaches, after, arrives⟩ := first (U := []) (l := l) (B := B) hw rfl rfl rfl agrees
  have enters := do_first he [] (l :: B) F L m.globals
  simp only [Loop.parts, List.append_nil, Nat.zero_add] at reaches
  exact ⟨L', f, enters.then reaches, after, arrives⟩

theorem Simulated.forLoop {init post : Expr} (start : Simulated S m m' (.term init v))
    (loop : Simulated S m' m'' (.rounds label c body [post] o)) :
    Simulated S m m'' (.stmt (.forLoop id label init c post body) o) := by
  intro r i path l B F L he free unused agrees
  have hinit : S.sys.at? ⟨r, (0 : Nat) :: (i : Int) :: path⟩ = some init := by
    rw [System.at?_cons he]
    rfl
  have hw := forAt he
  obtain ⟨L₁, started, after⟩ := start (l := []) (B := l :: B) hinit
    (System.free_child he (by simp) (by simp)) agrees
  have tests := for_test he (S.keep r 0 (i :: path) v []) (l :: B) F L₁ m'.globals
  obtain ⟨L₂, f, reaches, after₂, arrives⟩ := loop (U := S.keep r 0 (i :: path) v []) (l := l)
    (B := B) hw rfl unused after.agrees
  exact ⟨L₂, f, (for_first he _ _ _ _ _).then (started.trans (tests.then reaches)),
    after.trans after₂, arrives⟩

end Loops

end Structured

end DeltaSlice
