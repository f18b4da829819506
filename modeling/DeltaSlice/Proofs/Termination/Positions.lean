import DeltaSlice.Proofs.Termination.Frames

/-!
Positions. Where running code stands is told by the indices of its frames, the outermost frame first, with odd
numbers for what was entered and even ones for where evaluation comes back. In the order of words every step goes
ahead, but for those whose results may be reached again.
-/

namespace DeltaSlice

namespace Frame

/-- The indices of what was entered, from the body down. -/
def trail (f : Frame) : List Nat := f.path.reverse.map fun i => 2 * i.toNat + 1

/-- How far evaluation has come at the current expression. -/
def progress (f : Frame) : Nat := 2 * (f.comingFrom + 1).toNat

theorem trail_unnumbered (f : Frame) : f.unnumbered.trail = f.trail := rfl

theorem progress_unnumbered (f : Frame) : f.unnumbered.progress = f.progress := rfl

theorem trail_of_drop {f g : Frame} {n : Nat} {i : Int} {rest : Path} (drop : f.path.drop n = i :: rest)
    (hg : g.path = rest) : ∃ more, f.trail = g.trail ++ (2 * i.toNat + 1) :: more := by
  refine ⟨(f.path.take n).reverse.map fun i => 2 * i.toNat + 1, ?_⟩
  unfold trail
  conv_lhs => rw [← List.take_append_drop n f.path, drop]
  rw [hg]
  simp

end Frame

namespace Simulator

/-- The positions of frames that wait for the results of calls. -/
def waiting (fs : List Frame) : List Nat := fs.reverse.flatMap fun f => f.trail ++ [f.progress + 1]

/-- The position of running code. -/
def position : List Frame → List Nat
  | [] => []
  | top :: below => waiting below ++ (top.trail ++ [top.progress])

theorem position_cons (top : Frame) (below : List Frame) :
    position (top :: below) = waiting below ++ (top.trail ++ [top.progress]) := rfl

theorem waiting_cons (f : Frame) (fs : List Frame) :
    waiting (f :: fs) = waiting fs ++ (f.trail ++ [f.progress + 1]) := by
  simp [waiting]

theorem position_unnumbered (fs : List Frame) : position (fs.map Frame.unnumbered) = position fs := by
  cases fs with
  | nil => rfl
  | cons top below =>
      simp only [List.map_cons, position, waiting, ← List.map_reverse, List.flatMap_map, Frame.trail_unnumbered,
        Frame.progress_unnumbered]

variable {s : Simulator} {t r : Transition} {ps : ProcessState} {f g top : Frame} {below fs : List Frame}
  {o : Option Expr} {n : Nat} {i : Int} {es : List Expr} {rest : Path} {st : SmallStep}

/-- Behind one of the children on the way to a frame, something is ahead of it. -/
theorem position_lt_of_drop (drop : f.path.drop n = i :: rest) (hg : g.path = rest)
    (later : i.toNat < (g.comingFrom + 1).toNat) : position (f :: below) < position (g :: below) := by
  obtain ⟨more, trail⟩ := Frame.trail_of_drop drop hg
  rw [position_cons, position_cons, trail, List.append_assoc]
  refine List.append_left_lt (List.append_left_lt ?_)
  refine List.cons_lt_cons_iff.2 (.inl ?_)
  unfold Frame.progress
  omega

/-- A child further on is ahead. -/
theorem position_lt_enter (later : (top.comingFrom + 1).toNat ≤ i.toNat) :
    position (top :: below) < position (top.enter i :: below) := by
  have trail : (top.enter i).trail = top.trail ++ [2 * i.toNat + 1] := by
    simp [Frame.trail, Frame.enter, Frame.path, Location.child]
  rw [position_cons, position_cons, trail, List.append_assoc]
  refine List.append_left_lt (List.append_left_lt (List.cons_lt_cons_iff.2 (.inl ?_)))
  unfold Frame.progress
  omega

/-- What is called is ahead of the call. -/
theorem position_lt_call (f top : Frame) (below : List Frame) :
    position (top :: below) < position (f :: top :: below) := by
  rw [position_cons, position_cons, waiting_cons, List.append_assoc, List.append_assoc]
  refine List.append_left_lt (List.append_left_lt (List.cons_lt_cons_iff.2 (.inl ?_)))
  omega

/-- What follows a call is ahead of what was called. -/
theorem position_lt_return (same : g.trail = f.trail) (later : f.progress + 1 < g.progress) :
    position (top :: f :: below) < position (g :: below) := by
  rw [position_cons, position_cons, waiting_cons, same, List.append_assoc, List.append_assoc]
  exact List.append_left_lt (List.append_left_lt (List.cons_lt_cons_iff.2 (.inl later)))

end Simulator

/-- A repetition may stand in the expression that ends the rounds of its own loop. -/
def System.RepeatsInPost (sys : System) : Prop :=
  ∃ r path id label levels loop l init cond post body, sys.at? ⟨r, path⟩ = some (.next id label) ∧
    sys.target? r label false 1 path.tail = some (levels, .forLoop loop l init cond post body) ∧
    path[levels - 1]? = some (body.length + 2 : Int)

/-- Above a place there are places. -/
theorem System.scope?_drop {sys : System} {r : Routine} {up : Path} {es : List Expr} (h : sys.scope? ⟨r, up⟩ = some es)
    (n : Nat) : ∃ es', sys.scope? ⟨r, up.drop n⟩ = some es' := by
  induction n generalizing up es with
  | zero => exact ⟨es, h⟩
  | succ n ih =>
      cases up with
      | nil => exact ⟨es, h⟩
      | cons i up =>
          obtain ⟨above, -, habove, -⟩ := System.scope?_cases h
          exact ih habove

namespace Simulator

variable {s : Simulator} {t r : Transition} {ps : ProcessState} {f g top : Frame} {below fs : List Frame}
  {o : Option Expr} {n : Nat} {i : Int} {es : List Expr} {rest : Path} {st : SmallStep}

/-- A repetition does not stand behind the end of a round. -/
theorem le_roundEnd {id : Nat} {label : String} {levels : Nat} {target : Expr}
    (here : s.program.system.at? top.location = some (.next id label))
    (htarget : s.program.system.target? top.location.routine label false 1 top.path.tail = some (levels + 1, target))
    (hes : s.program.system.scope? top.location = some es) (apart : ¬ s.program.system.RepeatsInPost) :
    ∃ i up, top.path.drop levels = i :: up ∧ top.path.drop (levels + 1) = up ∧ i ≤ roundEnd target := by
  obtain ⟨j, up, within, drop, found, -⟩ := System.target?_tail htarget
  have inner : top.path.drop levels = top.path[levels] :: j :: up := by
    rw [List.drop_eq_getElem_cons (by omega), drop]
  refine ⟨_, _, inner, drop, ?_⟩
  obtain ⟨es', hes'⟩ : ∃ es', s.program.system.scope? ⟨top.location.routine, top.path.drop levels⟩ = some es' :=
    System.scope?_drop hes levels
  rw [inner] at hes'
  obtain ⟨above, e, habove, he, -, -⟩ := System.scope?_cases hes'
  obtain rfl := Option.some.inj ((System.scope?_of_at? found).symm.trans habove)
  obtain ⟨low, high⟩ := elementAt?_lt he
  cases target with
  | forLoop loop l init cond post body =>
      have other : top.path[levels] ≠ (body.length + 2 : Int) := fun last => apart
        ⟨_, _, id, label, _, loop, l, init, cond, post, body, here, htarget, by
          rw [Nat.add_sub_cancel, ← last]
          exact List.getElem?_eq_getElem _⟩
      simp only [Expr.children, List.length_cons, List.length_append, List.length_nil] at high
      change top.path[levels] ≤ body.length + 1
      omega
  | _ => exact Int.le_sub_one_of_lt high

/-- Frames that shift go ahead, if this is not to happen again and the code does not end. -/
theorem Shifts.position_lt (h : s.Shifts t ps top below o es.length false fs)
    (seated : Seated s.program.system (top :: below))
    (body : o = none → top.path = []) (here : ∀ x, o = some x → s.program.system.at? top.location = some x)
    (hes : s.program.system.scope? top.location = some es) (apart : ¬ s.program.system.RepeatsInPost)
    (goes : below = [] → (∀ x, o = some x → x.isReturn = true) → ∃ f ∈ fs, f.path ≠ []) :
    position (top :: below) < position fs := by
  obtain ⟨es', hes', low, -⟩ := seated.first.scope
  have bounds := (System.path_bounded hes).2
  cases h with
  | enter j calls ahead =>
      obtain ⟨low, high⟩ := seated.first.comes_from hes body here calls
      obtain ⟨-, -, later⟩ := ahead low high
      have later := later.resolve_right (by simp)
      exact position_lt_enter (by omega)
  | @finish x v same left =>
      obtain ⟨i, up, path⟩ := Frame.index_of_at? (here x same)
      have listed : i ∈ top.path := by
        rw [path]
        exact List.mem_cons_self
      have := (bounds i listed).1
      refine position_lt_of_drop (n := 0) path ?_ ?_
      · rw [Frame.path, System.finish, Frame.leave_location path]
        exact congrArg List.tail path
      · rw [System.finish, Frame.leave_comingFrom path]
        omega
  | @exit id label levels target j same htarget hj =>
      obtain ⟨up, -, drop, outer, -⟩ := System.target?_index htarget hj
      have := (bounds j (List.mem_of_getElem? hj)).1
      refine position_lt_of_drop drop ?_ ?_
      · rw [Frame.path, Frame.put_location]
        exact outer
      · rw [Frame.put_comingFrom]
        dsimp only
        omega
  | @next id label levels target j same htarget last =>
      obtain ⟨levels, rfl⟩ : ∃ k, levels = k + 1 := by
        obtain ⟨k, -, -, rfl, -⟩ := System.target?_cases htarget
        exact ⟨k, Nat.add_comm 1 k⟩
      obtain ⟨i, up, inner, outer, before⟩ := le_roundEnd (here _ same) htarget hes apart
      have := (bounds i (List.mem_of_mem_drop (inner ▸ List.mem_cons_self))).1
      refine position_lt_of_drop inner outer ?_
      dsimp only
      omega
  | call => exact position_lt_call _ _ _
  | returns same returned =>
      cases returned with
      | @back caller rest v below hv =>
          subst below
          obtain ⟨-, -, low, -⟩ := seated.pop.first.scope
          refine position_lt_return ?_ ?_
          · rw [Frame.trail, Frame.path, Frame.put_location]
            rfl
          · unfold Frame.progress
            rw [Frame.put_comingFrom]
            dsimp only
            omega
      | ends empty ended =>
          obtain ⟨f, hf, inside⟩ := goes empty same
          rcases ended with rfl | ⟨p, -, rfl⟩
          · cases hf
          · exact absurd (congrArg Frame.path (List.mem_singleton.1 hf)) inside

/-- The last routine does not end unless the code does. -/
theorem ends_of_spent (hst : (s.advance t).result = .ok st) (hr : r ∈ st.results) (hframes : t.frames = [top])
    (returns : ∀ x, s.program.system.at? top.location = some x → x.isReturn = true)
    (spent : ∀ f ∈ r.frames, f.path = []) : st.ends = true := by
  have entered : ∀ {u : Transition} {o : Option Expr} {c j : Int}, u.frames = [top] →
      r ∈ (SmallStep.one o c (u.enter j)).results → False := by
    intro u o c j hu hr
    obtain rfl := List.mem_singleton.1 hr
    have frames : (u.enter j).frames = [top.enter j] := Transition.frames_mapTop hu _
    rw [frames] at spent
    cases spent _ List.mem_cons_self
  have left : ∀ {u : Transition} {o : Option Expr} {c : Int} {v : Value}, u.frames = [top] →
      (s.returnFrom u o c v).ends = true := by
    intro u o c v hu
    obtain ⟨ps, hps, stack⟩ := Transition.frames_eq_cons.1 hu
    have popped : (u.editRunning ProcessState.editPop).top? = none := by
      rw [Transition.editPop_eq]
      simp [Transition.top?, Transition.running?_mapRunning, hps, ProcessState.pop, ProcessState.top?, stack]
    unfold returnFrom
    dsimp only
    rw [popped]
    rfl
  have htop : t.top? = some top := by
    obtain ⟨ps, hps, stack⟩ := Transition.frames_eq_cons.1 hframes
    simp [Transition.top?, hps, ProcessState.top?, stack]
  obtain ⟨ps, top', hps, htop', step⟩ := advance_cases hst
  obtain rfl := Option.some.inj (htop.symm.trans htop')
  obtain ⟨-, rfl⟩ | ⟨i, up, e, sc, -, he, -, hst⟩ := step
  · unfold bodyStep at hr ⊢
    dsimp only at hr ⊢
    split at hr
    · exact (entered hframes hr).elim
    · rename_i last
      rw [if_neg last]
      exact left hframes
  · have isReturn := returns e he
    cases e with
    | ret id value =>
        unfold exprStep at hst
        dsimp only at hst
        split at hst
        · obtain rfl := Run.pure_result_iff.1 hst
          exact (entered (u := { t with scratch := sc }) hframes hr).elim
        · obtain rfl := Run.pure_result_iff.1 hst
          exact left (u := { t with scratch := sc }) hframes
    | _ => cases isReturn

end Simulator

end DeltaSlice
