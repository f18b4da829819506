import DeltaSlice.Proofs.Dependence.Returns

/-!
Steps on operands. An expression with a value that is not the result of a member routine is evaluated
from left to right: a small step descends into the next part or leaves with a value. Only assignments
write, and they write to what their left side names.
-/

namespace DeltaSlice

namespace Expr

/-- Expressions with a value, except for calls of member routines. -/
def isTerm : Expr → Bool
  | const .. | var .. | event .. | unary .. | binary .. | bracket .. | access .. => true
  | call _ r _ => r.isBuiltin
  | _ => false

/-- What can be assigned to: a variable, or a field of what stands before it. -/
def isPlace : Expr → Bool
  | var .. | access _ _ (var ..) => true
  | _ => false

mutual

/-- Terms all parts of which are terms, and in which only places are assigned to. -/
def isOperand : Expr → Bool
  | const .. | var .. | event .. => true
  | unary _ _ x | bracket _ x => x.isOperand
  | binary _ op x y => (op ≠ .assign || x.isPlace) && x.isOperand && y.isOperand
  | access _ x m => x.isOperand && m.isOperand
  | call _ r args => r.isBuiltin && areOperands args
  | _ => false

def areOperands : List Expr → Bool
  | [] => true
  | e :: es => e.isOperand && areOperands es

end

theorem areOperands_iff {es : List Expr} : areOperands es = true ↔ ∀ e ∈ es, e.isOperand = true := by
  induction es with
  | nil => simp [areOperands]
  | cons e es ih => simp [areOperands, ih]

theorem isTerm_of_isOperand {e : Expr} (h : e.isOperand = true) : e.isTerm = true := by
  cases e with
  | const | var | event | unary | binary | bracket | access => rfl
  | call id r args =>
      rw [isOperand, Bool.and_eq_true] at h
      exact h.1
  | _ => simp [isOperand] at h

theorem isOperand_of_mem {e c : Expr} (h : e.isOperand = true) (hc : c ∈ e.children) :
    c.isOperand = true := by
  cases e with
  | const | var | event => simp [children] at hc
  | unary | bracket =>
      obtain rfl := List.mem_singleton.1 hc
      simpa [isOperand] using h
  | binary | access =>
      simp only [isOperand, Bool.and_eq_true] at h
      simp only [children, List.mem_cons, List.not_mem_nil, or_false] at hc
      rcases hc with rfl | rfl
      · tauto
      · tauto
  | call id r args =>
      rw [isOperand, Bool.and_eq_true] at h
      exact areOperands_iff.1 h.2 c hc
  | _ => simp [isOperand] at h

end Expr

theorem elementAt?_lt {α : Type} {l : List α} {i : Int} {a : α} (h : elementAt? l i = some a) :
    0 ≤ i ∧ i < l.length := by
  unfold elementAt? at h
  split at h
  · cases h
  · have := (List.getElem?_eq_some_iff.1 h).1
    omega

theorem elementAt?_natCast {α : Type} (l : List α) (k : Nat) : elementAt? l k = l[k]? := by
  simp [elementAt?]

theorem Level.slot_set (l : Level) (j : Nat) (r : Option Value) (c : Int) :
    (elementAt? (l.set j r) c).join = if c = j then r else (elementAt? l c).join := by
  unfold elementAt? Level.set
  split
  · rw [if_neg (by omega)]
  · rw [List.getElem?_set]
    by_cases hj : c = j
    · subst hj
      have hin : j < l.length + (j + 1 - l.length) := by omega
      simp [hin]
    · rw [if_neg (by omega), if_neg hj, List.getElem?_append]
      split
      · rfl
      · rename_i hlen
        rw [List.getElem?_eq_none (Nat.not_lt.1 hlen), List.getElem?_replicate]
        split <;> rfl

theorem Level.slot_put (l : Level) (i : Int) (r : Option Value) (c : Int) :
    (elementAt? (l.put i r) c).join = if 0 ≤ i ∧ c = i then r else (elementAt? l c).join := by
  unfold Level.put
  split
  · rw [if_neg (by omega)]
  · rw [Level.slot_set]
    exact if_congr (by omega) rfl rfl

namespace System

variable {sys : System} {r : Routine} {c : Int} {up : Path}

/-- What is assigned to is the left side of an assignment or its member. -/
theorem isAssigned_cases (h : sys.isAssigned ⟨r, c :: up⟩ = true) :
    (c = 0 ∧ ∃ id x y, sys.at? ⟨r, up⟩ = some (.binary id .assign x y)) ∨
    (c = 1 ∧ ∃ up' id x m id' a b, up = 0 :: up' ∧ sys.at? ⟨r, up⟩ = some (.access id x m) ∧
      sys.at? ⟨r, up'⟩ = some (.binary id' .assign a b)) := by
  unfold isAssigned at h
  have habove : sys.above? ⟨r, c :: up⟩ = sys.at? ⟨r, up⟩ := rfl
  split at h
  · rename_i i up₀ id op x y hpath hat
    obtain ⟨rfl, -⟩ := List.cons.inj hpath
    simp only [Bool.and_eq_true, decide_eq_true_eq] at h
    exact .inl ⟨h.2, id, x, y, h.1 ▸ hat⟩
  · rename_i i j up₀ id x m hpath hat
    obtain ⟨rfl, rfl⟩ := List.cons.inj hpath
    split at h
    · rename_i id' op a b hat'
      simp only [Bool.and_eq_true, decide_eq_true_eq] at h
      obtain ⟨⟨rfl, rfl⟩, rfl⟩ := h
      exact .inr ⟨rfl, up₀, id, x, m, id', a, b, rfl, hat, hat'⟩
    · cases h
  · cases h

theorem isAssigned_left {id : Nat} {x y : Expr}
    (h : sys.at? ⟨r, up⟩ = some (.binary id .assign x y)) : sys.isAssigned ⟨r, 0 :: up⟩ = true := by
  have habove : sys.above? ⟨r, 0 :: up⟩ = some (.binary id .assign x y) := h
  simp [isAssigned, habove]

theorem isAssigned_member {id id' : Nat} {x m a b : Expr}
    (hmember : sys.at? ⟨r, 0 :: up⟩ = some (.access id x m))
    (hassign : sys.at? ⟨r, up⟩ = some (.binary id' .assign a b)) :
    sys.isAssigned ⟨r, 1 :: 0 :: up⟩ = true := by
  have habove : sys.above? ⟨r, 1 :: 0 :: up⟩ = some (.access id x m) := hmember
  have hparent : sys.above? (Location.parent ⟨r, 1 :: 0 :: up⟩) = some (.binary id' .assign a b) :=
    hassign
  simp [isAssigned, habove, hparent]

end System

namespace Frame

variable {f : Frame} {i c : Int} {up : Path}

theorem slot?_enter_zero : (f.enter i).slot? 0 c = none := by
  simp [slot?, enter, elementAt?]

theorem slot?_enter_succ (k : Nat) : (f.enter i).slot? (k + 1 : Nat) c = f.slot? k c := by
  simp only [slot?, enter, elementAt?_natCast, List.getElem?_cons_succ]

/-- A result that is there after one was put was put there, or it was there before. -/
theorem slot?_put_cases {o : Option Value} {x : Value} (h : (f.put i o).slot? 0 c = some x) :
    (0 ≤ i ∧ c = i ∧ o = some x) ∨ f.slot? 0 c = some x := by
  unfold put at h
  split at h
  · rename_i l ls hlevels
    have hput : (elementAt? (l.put i o) c).join = some x := h
    rw [Level.slot_put] at hput
    split at hput
    · rename_i hc
      exact .inl ⟨hc.1, hc.2, hput⟩
    · refine .inr ?_
      simpa [slot?, hlevels, elementAt?] using hput
  · exact .inr h

theorem slot?_put_zero {j : Nat} {x y : Value} (h : (f.put j (some y)).slot? 0 c = some x) :
    (c = j ∧ x = y) ∨ f.slot? 0 c = some x :=
  (slot?_put_cases h).imp_left fun here => ⟨here.2.1, (Option.some.inj here.2.2).symm⟩

theorem slot?_put_succ (j : Int) (r : Option Value) (k : Nat) :
    (f.put j r).slot? (k + 1 : Nat) c = f.slot? (k + 1 : Nat) c := by
  unfold put
  split
  · rename_i l ls hlevels
    simp only [slot?, elementAt?_natCast, hlevels, List.getElem?_cons_succ]
  · rfl

theorem slot?_pop (k : Nat) : (f.pop 1).slot? k c = f.slot? (k + 1 : Nat) c := by
  simp only [slot?, pop, elementAt?_natCast, List.getElem?_drop, Nat.add_comm]

/-- Leaving an expression sets its own result at most. -/
theorem slot?_leave_zero (h : f.path = i :: up) (hi : 0 ≤ i) {v x : Value} {keep : Bool}
    (hx : (f.leave v keep).slot? 0 c = some x) : (c = i ∧ x = v) ∨ f.slot? 1 c = some x := by
  obtain ⟨j, rfl⟩ := Int.eq_ofNat_of_zero_le hi
  simp only [leave, h] at hx
  split at hx
  · exact (slot?_put_zero hx).imp_right fun hx => slot?_pop 0 ▸ hx
  · exact .inr (slot?_pop 0 ▸ hx)

theorem slot?_leave_succ (h : f.path = i :: up) (v : Value) (keep : Bool) (k : Nat) :
    (f.leave v keep).slot? (k + 1 : Nat) c = f.slot? (k + 2 : Nat) c := by
  simp only [leave, h]
  split
  · rw [slot?_put_succ]
    exact slot?_pop (k + 1)
  · exact slot?_pop (k + 1)

end Frame

namespace Simulator

variable {s : Simulator} {t r u : Transition} {ps : ProcessState} {top : Frame} {below : List Frame}
variable {e : Expr}

/-- What is known of the value with which a term is left: the target of an assignment names its
variable, and an access has the value of its member. -/
def Gives (s : Simulator) (ps : ProcessState) (top : Frame) (v : Value) : Expr → Prop
  | .var _ d => s.program.system.isAssigned top.location = true →
      v = .unknown ∨ v = .known (.target (s.referenced ps top d))
  | .access .. => v = top.value 0 1
  | _ => True

/-- The variable is assigned to when the expression is left. -/
def Assigns (top : Frame) (w : Variable) : Expr → Prop
  | .binary _ .assign _ _ => top.value 0 0 = .known (.target w)
  | _ => False

/-- What a step on a term can do. -/
inductive TermStep (s : Simulator) (ps : ProcessState) (top : Frame) (below : List Frame) (e : Expr)
    (t r : Transition) : Prop
  | descend (more : top.comingFrom < e.children.length - 1)
      (frames : r.frames = top.enter (top.comingFrom + 1) :: below)
      (written : r.scratch.written = t.scratch.written)
  | leave {v : Value} (done : e.children ≠ [] → e.children.length - 1 ≤ top.comingFrom)
      (frames : r.frames = s.program.system.finish v top :: below)
      (gives : s.Gives ps top v e)
      (written : ∀ w ∈ r.scratch.written, w ∈ t.scratch.written ∨ Assigns top w e)

theorem store_frames (t : Transition) (v : Variable) (x : Value) :
    (s.store t v x).frames = t.frames := by
  unfold store
  split
  · split
    · exact Transition.frames_mapRunning fun _ => rfl
    · rfl
  · rfl

theorem store_scratch (t : Transition) (v : Variable) (x : Value) :
    (s.store t v x).scratch = t.scratch := by
  unfold store
  split
  · split
    · exact Transition.scratch_mapRunning _ _
    · rfl
  · rfl

theorem descend_of_enter (hframes : t.frames = top :: below)
    (more : top.comingFrom < e.children.length - 1) :
    TermStep s ps top below e t (t.enter (top.comingFrom + 1)) :=
  .descend more (Transition.frames_mapTop hframes _)
    (congrArg Scratch.written (Transition.scratch_mapRunning _ _))

/-- A term is left with a value after a change that touches neither the frames nor the accesses but
for what is assigned to. -/
theorem leave_of_finish {v : Value}
    (done : e.children ≠ [] → e.children.length - 1 ≤ top.comingFrom)
    (hframes : u.frames = top :: below) (gives : s.Gives ps top v e)
    (written : ∀ w ∈ u.scratch.written, w ∈ t.scratch.written ∨ Assigns top w e) :
    TermStep s ps top below e t (u.finish s.program.system v) := by
  refine .leave done (Transition.frames_finish hframes _ _) gives ?_
  have hsame : (u.finish s.program.system v).scratch = u.scratch := Transition.scratch_editRunning _ _
  rw [hsame]
  exact written

/-- Of the expressions that evaluate all parts, only assignments write. -/
theorem aggregate_term (done : e.children.length - 1 ≤ top.comingFrom)
    (hframes : t.frames = top :: below) (hvar : ∀ id d, e ≠ .var id d) {v : Value}
    (h : s.aggregate t top e = .ok (v, u)) :
    TermStep s ps top below e t (u.finish s.program.system v) := by
  have unchanged : ∀ {x : Value}, s.Gives ps top x e →
      (.ok (x, t) : Except Halt (Value × Transition)) = .ok (v, u) →
      TermStep s ps top below e t (u.finish s.program.system v) := by
    intro x gives h
    obtain ⟨rfl, rfl⟩ := Prod.mk.inj (Except.ok.inj h)
    exact leave_of_finish (fun _ => done) hframes gives fun w hw => .inl hw
  unfold aggregate at h
  cases e with
  | var id d => exact absurd rfl (hvar id d)
  | access => exact unchanged rfl h
  | binary id op x y =>
      cases op with
      | assign =>
          simp only at h
          split at h
          · cases h
          · rename_i w hw
            obtain ⟨rfl, rfl⟩ := Prod.mk.inj (Except.ok.inj h)
            refine leave_of_finish (fun _ => done) ((store_frames _ _ _).trans hframes) trivial ?_
            rw [store_scratch]
            intro w' hw'
            have hadded : w' ∈ [w].foldl Transition.addVariable t.scratch.written := hw'
            rw [Dependence.mem_foldl_addVariable, List.mem_singleton] at hadded
            refine hadded.imp_right fun hsame => ?_
            rw [hsame]
            exact hw
          · cases h
      | _ =>
          simp only at h
          split at h
          · obtain ⟨rfl, rfl⟩ := Prod.mk.inj (Except.ok.inj h)
            exact leave_of_finish (fun _ => done) hframes trivial fun w hw => .inl hw
          · exact unchanged trivial h
  | _ => exact unchanged trivial h

theorem aggregateStep_term (hframes : t.frames = top :: below) (hvar : ∀ id d, e ≠ .var id d)
    {st : SmallStep} (hst : s.aggregateStep t top e = .ok st) (hr : r ∈ st.results) :
    TermStep s ps top below e t r := by
  obtain ⟨more, rfl⟩ | ⟨done, v, u, hagg, rfl⟩ := aggregateStep_cases hst
  · obtain rfl := List.mem_singleton.1 hr
    exact descend_of_enter hframes more
  · obtain rfl := List.mem_singleton.1 hr
    exact aggregate_term (Int.not_lt.1 done) hframes hvar hagg

theorem callStep_term {id : Nat} {f : Routine} {args : List Expr} (hframes : t.frames = top :: below)
    (hbuiltin : f.isBuiltin = true) {st : SmallStep}
    (hst : s.callStep t ps top (.call id f args) f args.length = .ok st) (hends : st.ends = false)
    (hr : r ∈ st.results) : TermStep s ps top below (.call id f args) t r := by
  have children : (Expr.call id f args).children.length = args.length := rfl
  cases callStep_cases hst with
  | argument more =>
      obtain rfl := List.mem_singleton.1 hr
      exact descend_of_enter hframes more
  | result returned =>
      obtain rfl := List.mem_singleton.1 hr
      exact leave_of_finish (fun _ => by omega) hframes trivial fun w hw => .inl hw
  | wait _ hst =>
      obtain ⟨_, _, _, -, -, -, rfl⟩ := waitStep_cases hst
      cases hends
  | request last =>
      obtain rfl := List.mem_singleton.1 hr
      exact leave_of_finish (fun _ => by omega) (u := t.mapGlobal _) hframes trivial fun w hw => .inl hw
  | call => cases hbuiltin

theorem exprStep_term (hframes : t.frames = top :: below) (hterm : e.isTerm = true) {st : SmallStep}
    (hst : (s.exprStep t ps top e).result = .ok st) (hends : st.ends = false) (hr : r ∈ st.results) :
    TermStep s ps top below e t r := by
  have left : ∀ {v : Value}, e.children = [] → s.Gives ps top v e →
      (pure (.one e top.comingFrom (t.finish s.program.system v)) : Step SmallStep).result = .ok st →
      TermStep s ps top below e t r := by
    intro v hnil gives hst
    obtain rfl := Run.pure_result_iff.1 hst
    obtain rfl := List.mem_singleton.1 hr
    exact leave_of_finish (absurd hnil) hframes gives fun w hw => .inl hw
  unfold exprStep at hst
  cases e with
  | const id l =>
      simp only at hst
      split at hst
      · cases hst
      · exact left rfl trivial hst
  | event => exact left rfl trivial hst
  | var id d =>
      unfold readVariable at hst
      by_cases hassigned : s.program.system.isAssigned top.location = true
      · simp only [hassigned, if_true] at hst
        refine left rfl (fun _ => ?_) hst
        split
        · exact .inr rfl
        · exact .inl rfl
      · simp only [hassigned, Bool.false_eq_true, if_false] at hst
        obtain rfl := Run.pure_result_iff.1 hst
        obtain rfl := List.mem_singleton.1 hr
        exact leave_of_finish (u := t.addRead _) (absurd rfl) hframes (fun h => absurd h hassigned)
          fun w hw => .inl hw
  | unary | binary | access | bracket =>
      exact aggregateStep_term hframes (fun _ _ h => by cases h) hst hr
  | call id f args => exact callStep_term hframes hterm hst hends hr
  | _ => cases hterm

end Simulator

end DeltaSlice
