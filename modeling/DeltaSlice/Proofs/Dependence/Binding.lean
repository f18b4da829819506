import DeltaSlice.Proofs.Dependence.Operands
import DeltaSlice.Proofs.Dependence.Results

/-!
Values on their way to a callee. An argument or a receiver is bound to a variable of the callee when
its evaluation ends, before the callee has a frame. What is evaluated from then on until the call is
made stays inside the call and leaves the binding alone, as long as it calls no member routine.
-/

namespace DeltaSlice

open Dependence Pdg

theorem Frame.slot?_of_value {f : Frame} {k c : Int} {x : Payload}
    (h : f.value k c = .known x) : f.slot? k c = some (.known x) := by
  unfold value at h
  cases hslot : f.slot? k c with
  | none => simp [hslot] at h
  | some y => simpa [hslot] using h

namespace Variable

theorem ofFrame_inj {r r' : Routine} {callers : List Routine} {n n' : LocalName}
    (h : ofFrame (r :: callers) n = ofFrame (r' :: callers) n') : r.text = r'.text ∧ n = n' := by
  obtain ⟨hscope, -, hname⟩ := Variable.frame.inj h
  refine ⟨?_, hname⟩
  rw [List.reverse_cons, List.reverse_cons, List.map_append, List.map_append] at hscope
  by_cases hnil : callers.reverse.map Routine.text = []
  · simpa [hnil] using hscope
  · rw [String.intercalate_append_of_ne_nil hnil (by simp),
      String.intercalate_append_of_ne_nil hnil (by simp)] at hscope
    simpa using hscope

end Variable

theorem Routine.text_ne {r : Routine} {m : Member} (h : r.isBuiltin = true) :
    r.text ≠ (Routine.member m).text := by
  intro heq
  have hpoint : '.' ∈ r.text.toList := by
    rw [heq]
    simp [text]
  cases r with
  | member => cases h
  | wait | requestUpdate => simp [text] at hpoint

namespace Dependence.Site

variable {p : Program} {s : Site} {v : Variable}

theorem mem_writes_of_isTerm (h : s.expr.isTerm = true) :
    v ∈ s.writes ↔ v ∈ s.after.scratch.written ∨ v ∈ s.bound := by
  unfold writes
  split
  · rename_i he
    rw [he] at h
    cases h
  · rename_i he
    rw [he] at h
    cases h
  · exact mem_foldl_addVariable _ _

/-- A step that does not come back from a call changes what it writes and, apart from that, results. -/
theorem write_of_changes (hopen : s.comingFrom ≠ s.arity) (hresult : ∀ st, v ≠ .ofFrame st .result)
    {x : Act} (hx : x ∈ s.accesses p) (hc : x.Changes v) :
    v ∈ s.writes ∧ x = .write v (s.owner p).key := by
  rcases changes_accesses hx hc with ⟨what, hwhat, -⟩ | hused | hwrite
  · unfold released at hwhat
    split at hwhat
    · rw [if_neg hopen] at hwhat
      cases hwhat
    · cases hwhat
  · obtain ⟨r, -, hr⟩ := Option.map_eq_some_iff.1 hused
    exact absurd hr.symm (hresult _)
  · exact hwrite

/-- The end of a term defines what the term is bound to. -/
theorem defines_of_bound (hterm : s.expr.isTerm = true) (hopen : s.comingFrom ≠ s.arity)
    (hresult : ∀ st, v ≠ .ofFrame st .result) (hv : v ∈ s.bound) (before : List Act) :
    Defines (before ++ s.accesses p) v (s.owner p).key := by
  have hmem : v ∈ s.writes := (mem_writes_of_isTerm hterm).2 (.inr hv)
  refine defines_append before ?_ ?_
  · simp [accesses, hmem]
  · intro x hx hc
    exact (write_of_changes hopen hresult hx hc).2

end Dependence.Site

namespace Simulator

variable {s : Simulator} {t r : Transition} {top : Frame} {below : List Frame} {e : Expr}
variable {st : SmallStep}

/-- The accesses of a small step on an expression are those of its site if the step is relevant. -/
theorem accesses_on (plain : s.setup.observer = .pdg false) (hframes : t.frames = top :: below)
    (he : s.program.at? top.location = some e) (hst : (s.smallStep t).result = .ok st)
    (hr : r ∈ st.results) (hret : ∀ id v, e = .ret id v → below ≠ []) :
    ∃ i, top.path.head? = some i ∧ Move.accesses s.program ⟨st, r⟩ =
      if s.program.isRelevant top.location.routine e i top.comingFrom then
        Site.accesses s.program ⟨r, e, top.comingFrom, i,
          s.program.parent? top.location.routine e, top.location, below.map (·.location)⟩
      else [] := by
  obtain ⟨i, up, ps, a, st₀, hpath, -, -, ha, hexpr, habout, hcoming, -, v, hv, hrv⟩ :=
    smallStep_on plain hframes he hst hr
  have hab := exprStep_about (by exact hframes) hexpr hret
  have hann : r.scratch.announced = a := by
    rw [hrv]
    exact (exprStep_keeps (silent_of_plain plain) hexpr hv).announced
  refine ⟨i, by simp [hpath], ?_⟩
  have hpath' : top.location.path = i :: up := hpath
  split
  · rename_i hrel
    rw [if_pos hrel] at ha
    refine accesses_of_site ?_
    simp [Move.site?, habout, hcoming, hab.1, hab.2, hann, ha, hpath']
  · rename_i hrel
    rw [if_neg hrel] at ha
    simp [Move.accesses, Move.acts, Move.site?, habout, hab.1, hann, ha]

/-- A small step that does not come back from a call leaves alone what its site does not write. -/
theorem unchanged_on (plain : s.setup.observer = .pdg false) (hframes : t.frames = top :: below)
    (he : s.program.at? top.location = some e) (hst : (s.smallStep t).result = .ok st)
    (hr : r ∈ st.results) (hret : ∀ id v, e = .ret id v → below ≠ []) (hopen : top.comingFrom ≠ e.children.length)
    {v : Variable} (hresult : ∀ stack, v ≠ .ofFrame stack .result)
    (hwrites : ∀ i, top.path.head? = some i → v ∉ Site.writes ⟨r, e, top.comingFrom, i,
      s.program.parent? top.location.routine e, top.location, below.map (·.location)⟩) :
    ∀ x ∈ Move.accesses s.program ⟨st, r⟩, ¬ x.Changes v := by
  obtain ⟨i, hi, hacc⟩ := accesses_on plain hframes he hst hr hret
  intro x hx hchanges
  rw [hacc] at hx
  split at hx
  · exact hwrites i hi (Site.write_of_changes hopen hresult hx hchanges).1
  · cases hx

end Simulator

/-- The callee of the call at `l`, made from a frame with the routines `callers`, gets `v`: a
parameter or, behind a receiver, the receiver. What is evaluated for the call after child `i` calls no
member routine and is bound to other variables. -/
structure Pending (p : Program) (callers : List Routine) (l : Location) (g : Member)
    (args : List Expr) (i : Int) (v : Variable) : Prop where
  call : ∃ id, p.at? l = some (.call id (.member g) args)
  later : ∀ j b, i < j → elementAt? args j = some b → b.isOperand = true
  name : ∃ n, v = .ofFrame (.member g :: callers) n ∧ ((∃ d, n = .decl d) ∨
    n = .receiver ∧ ∃ id x m up, l.path = 1 :: up ∧ p.at? ⟨l.routine, up⟩ = some (.access id x m))
  other : ∀ j, i < j → paramVariable callers (.member g) args j ≠ v

namespace Pending

variable {p : Program} {callers : List Routine} {l : Location} {g : Member} {args : List Expr}
variable {i c : Int} {v : Variable} {q : Path} {e : Expr}

theorem ne_result (h : Pending p callers l g args i v) (st : List Routine) :
    v ≠ .ofFrame st .result := by
  obtain ⟨n, rfl, hn⟩ := h.name
  intro heq
  have hname := (Variable.frame.inj heq).2.2
  rcases hn with ⟨d, rfl⟩ | ⟨rfl, -⟩ <;> cases hname

theorem ne_arg (h : Pending p callers l g args i v) (st : List Routine) (k : Int) :
    .ofFrame st (.arg k) ≠ v := by
  obtain ⟨n, rfl, hn⟩ := h.name
  intro heq
  have hname := (Variable.frame.inj heq).2.2
  rcases hn with ⟨d, rfl⟩ | ⟨rfl, -⟩ <;> cases hname

/-- Variables of the caller and of instances are not the callee's. -/
theorem referenced_ne (h : Pending p callers l g args i v) {s : Simulator} {ps : ProcessState}
    (hps : ps.routines = callers) (top : Frame) (d : Decl) : s.referenced ps top d ≠ v := by
  obtain ⟨n, rfl, -⟩ := h.name
  unfold Simulator.referenced
  split
  · simp only
    split <;> simp [Variable.ofOwner, Variable.ofFrame]
  · intro heq
    have hdepth := (Variable.frame.inj heq).2.1
    simp [hps] at hdepth

/-- What is evaluated for the call after child `i` consists of operands. -/
theorem isOperand (h : Pending p callers l g args i v) (hq : q ≠ [])
    (hlast : ∀ j, q.getLast? = some j → i < j)
    (he : p.at? ⟨l.routine, q ++ l.path⟩ = some e) : e.isOperand = true := by
  obtain ⟨id, hcall⟩ := h.call
  induction q generalizing e with
  | nil => exact absurd rfl hq
  | cons c q ih =>
      cases q with
      | nil =>
          have hchild : elementAt? args c = some e := (System.at?_cons hcall).symm.trans he
          exact h.later c e (hlast c rfl) hchild
      | cons c' q =>
          rcases Path.resolve?_cases he with ⟨hnil, -⟩ | ⟨e', he', hmem⟩
          · simp at hnil
          · refine Expr.isOperand_of_mem (ih (by simp) ?_ he') hmem
            intro j hj
            exact hlast j (by simpa using hj)

/-- The operands are not bound to the variable. -/
theorem notMem_bound (h : Pending p callers l g args i v) (indexed : p.WellIndexed)
    (hlast : ∀ j, (c :: q).getLast? = some j → i < j)
    (he : p.at? ⟨l.routine, c :: (q ++ l.path)⟩ = some e) {s : Site} (hroutines : s.routines = callers)
    (hparent : s.parent = p.parent? l.routine e) (hindex : s.index = c) : v ∉ s.bound := by
  have habove : s.parent = p.at? ⟨l.routine, q ++ l.path⟩ := hparent.trans (indexed.parent?_eq he)
  obtain ⟨id, hcall⟩ := h.call
  unfold Site.bound
  split
  · cases q with
    | nil =>
        have hsite : s.parent = some (.call id (.member g) args) := habove.trans hcall
        simp only [hsite, List.mem_singleton, hroutines, hindex]
        exact (h.other c (hlast c rfl)).symm
    | cons c' q =>
        have inner : ∀ {e'}, s.parent = some e' → e'.isOperand = true := by
          intro e' he'
          refine h.isOperand (q := c' :: q) (by simp) ?_ (habove.symm.trans he')
          intro j hj
          exact hlast j (by simpa using hj)
        split
        · rename_i id' f args' hcall'
          have hbuiltin := Expr.isTerm_of_isOperand (inner hcall')
          simp only [Expr.isTerm] at hbuiltin
          simp only [paramVariable, hbuiltin, Bool.true_or, if_true, List.mem_singleton]
          exact (h.ne_arg _ _).symm
        · rename_i id' x id'' f args' hcall'
          have hmember := Expr.isOperand_of_mem (inner hcall') (c := .call id'' f args')
            (by simp [Expr.children])
          have hbuiltin := Expr.isTerm_of_isOperand hmember
          simp only [Expr.isTerm] at hbuiltin
          split
          · obtain ⟨n, rfl, -⟩ := h.name
            rw [List.mem_singleton, hroutines]
            intro heq
            exact Routine.text_ne hbuiltin (Variable.ofFrame_inj heq).1.symm
          · simp
        · simp
  · simp

/-- The call itself writes to the receiver of its callee at most, and not even that behind a
receiver. -/
theorem notMem_writes (h : Pending p callers l g args i v) {id : Nat} (indexed : p.WellIndexed) {x : Site}
    (he : p.at? l = some (.call id (.member g) args)) (hexpr : x.expr = .call id (.member g) args)
    (hparent : x.parent = p.parent? l.routine x.expr) (hroutines : x.routines = callers)
    (hwritten : x.finished = false → v ∉ x.after.scratch.written) : v ∉ x.writes := by
  unfold Site.writes
  rw [hexpr]
  simp only
  split
  · split
    · exact List.not_mem_nil
    · rename_i hmember
      rw [List.mem_singleton, hroutines]
      obtain ⟨n, rfl, hn⟩ := h.name
      intro heq
      obtain rfl := (Variable.ofFrame_inj heq).2
      rcases hn with ⟨d, hd⟩ | ⟨-, id', y, m, up, hpath, habove⟩
      · cases hd
      · obtain ⟨routine, path⟩ := l
        obtain rfl : path = 1 :: up := hpath
        have hm : m = .call id (.member g) args :=
          Option.some.inj ((System.at?_cons habove).symm.trans he)
        have hsite : x.parent = some (.access id' y m) := by
          rw [hparent, hexpr]
          exact (indexed.parent?_eq he).trans habove
        simp [Site.isMember, hsite, hexpr, hm] at hmember
  · rename_i hopen
    have hopen : x.finished = false := by simpa using hopen
    rw [mem_foldl_addVariable]
    simp [Site.bound, hopen, hwritten hopen]

end Pending

/-- The frame evaluates the call at `l` beyond child `i`, at the path `q` below the call. No
assignment under way inside the call is to the variable `v`. -/
structure Inside (p : Program) (l : Location) (i : Int) (v : Variable) (f : Frame) (q : Path) :
    Prop where
  location : f.location = ⟨l.routine, q ++ l.path⟩
  later : ∀ j, q.getLast? = some j → i < j
  passed : q = [] → i ≤ f.comingFrom
  coming : ∀ e, p.at? f.location = some e → f.comingFrom < e.children.length
  targets : ∀ k : Nat, k < q.length → ∀ c,
    p.system.isAssigned ⟨l.routine, c :: (q.drop k ++ l.path)⟩ = true →
    ∀ w, f.slot? k c = some (.known (.target w)) → w ≠ v

namespace Inside

variable {p : Program} {callers : List Routine} {l : Location} {g : Member} {args : List Expr}
variable {i c : Int} {v : Variable} {f : Frame} {q : Path} {e : Expr}

theorem enter (h : Inside p l i v f q) :
    Inside p l i v (f.enter (f.comingFrom + 1)) ((f.comingFrom + 1) :: q) where
  location := by
    rw [Frame.enter, h.location]
    rfl
  later := by
    intro j hj
    cases q with
    | nil =>
        have hj : f.comingFrom + 1 = j := Option.some.inj hj
        have := h.passed rfl
        omega
    | cons c q => exact h.later j (by simpa using hj)
  passed := by simp
  coming := by
    intro e _
    simp only [Frame.enter]
    omega
  targets := by
    intro k hk c hc w hw
    cases k with
    | zero =>
        have hnone := Frame.slot?_enter_zero (f := f) (i := f.comingFrom + 1) (c := c)
        cases hnone.symm.trans hw
    | succ k =>
        rw [Frame.slot?_enter_succ] at hw
        exact h.targets k (by simpa using hk) c hc w hw

theorem path_eq (h : Inside p l i v f (c :: q)) : f.path = c :: (q ++ l.path) := by
  rw [Frame.path, h.location]
  rfl

theorem leave (h : Inside p l i v f (c :: q)) (he : p.at? f.location = some e) {x : Value}
    (hx : p.system.isAssigned f.location = true → ∀ w, x = .known (.target w) → w ≠ v) :
    Inside p l i v (p.system.finish x f) q where
  location := by
    rw [System.finish, Frame.leave_location h.path_eq, h.location]
    rfl
  later := by
    intro j hj
    refine h.later j ?_
    cases q with
    | nil => cases hj
    | cons c' q => simpa using hj
  passed := by
    rintro rfl
    rw [System.finish, Frame.leave_comingFrom h.path_eq]
    exact (h.later c rfl).le
  coming := by
    intro e' he'
    rw [System.finish, Frame.leave_comingFrom h.path_eq]
    rw [System.finish, Frame.leave_location h.path_eq, h.location] at he'
    rw [h.location] at he
    have hchild : elementAt? e'.children c = some e := (System.at?_cons he').symm.trans he
    exact (elementAt?_lt hchild).2
  targets := by
    intro k hk c' hc' w hw
    cases k with
    | zero =>
        have hc : 0 ≤ c := by
          rw [h.location] at he
          obtain ⟨l', hl', he'⟩ := Option.bind_eq_some_iff.1 he
          exact (elementAt?_lt he').1
        rcases Frame.slot?_leave_zero h.path_eq hc hw with ⟨rfl, hvalue⟩ | hold
        · refine hx ?_ w hvalue.symm
          rw [h.location]
          exact hc'
        · exact h.targets 1 (by simpa using hk) c' hc' w hold
    | succ k =>
        rw [System.finish, Frame.slot?_leave_succ h.path_eq] at hw
        exact h.targets (k + 2) (Nat.succ_lt_succ hk) c' hc' w hw

/-- The value with which the target of an assignment, or its member, is left names no variable of the
callee. -/
theorem target_ne (h : Inside p l i v f (c :: q)) (pending : Pending p callers l g args i v)
    (he : p.at? f.location = some e) {s : Simulator} (hs : s.program = p) {ps : ProcessState}
    (hps : ps.routines = callers) {x : Value} (gives : s.Gives ps f x e)
    (hassigned : p.system.isAssigned f.location = true) {w : Variable}
    (hx : x = .known (.target w)) : w ≠ v := by
  subst hs
  obtain ⟨id, hcall⟩ := pending.call
  -- A variable is named as the caller or an instance has it.
  have named : ∀ id d, e = .var id d → w ≠ v := by
    rintro id d rfl
    rcases gives hassigned with hunknown | hknown
    · rw [hunknown] at hx
      cases hx
    · rw [hknown] at hx
      obtain rfl := Payload.target.inj (Value.known.inj hx)
      exact pending.referenced_ne hps f d
  have operand : ∀ q' {e'}, q' ≠ [] → q' <:+ c :: q →
      s.program.at? ⟨l.routine, q' ++ l.path⟩ = some e' → e'.isOperand = true := by
    intro q' e' hne hsuffix he'
    refine pending.isOperand hne ?_ he'
    intro j hj
    refine h.later j ?_
    obtain ⟨q'', hq''⟩ := hsuffix
    rw [← hq'', List.getLast?_append, hj]
    rfl
  rw [h.location] at he hassigned
  rcases System.isAssigned_cases hassigned with ⟨rfl, id', x', y, habove⟩ |
    ⟨rfl, up, id', x', m, id'', a, b, hup, habove, hassign⟩
  · cases q with
    | nil => cases hcall.symm.trans habove
    | cons c' q =>
        have hop := operand (c' :: q) (by simp) (List.suffix_cons _ _) habove
        simp only [Expr.isOperand, Bool.and_eq_true, Bool.or_eq_true, decide_eq_true_eq, ne_eq,
          not_true_eq_false, false_or] at hop
        obtain rfl : x' = e := Option.some.inj ((System.at?_cons habove).symm.trans he)
        cases x' with
        | var id d => exact named id d rfl
        | access id x'' m =>
            cases m with
            | var id' d =>
                have hvalue : f.value 0 1 = .known (.target w) := gives.symm.trans hx
                exact h.targets 0 (by simp) 1 (System.isAssigned_member he habove) w
                  (Frame.slot?_of_value hvalue)
            | _ => simp [Expr.isPlace] at hop
        | _ => simp [Expr.isPlace] at hop
  · cases q with
    | nil => cases hcall.symm.trans habove
    | cons c' q =>
        obtain ⟨rfl, rfl⟩ := List.cons.inj hup
        cases q with
        | nil => cases hcall.symm.trans hassign
        | cons c' q =>
            have hop := operand (c' :: q) (by simp)
              ((List.suffix_cons _ _).trans (List.suffix_cons _ _)) hassign
            simp only [Expr.isOperand, Bool.and_eq_true, Bool.or_eq_true, decide_eq_true_eq, ne_eq,
              not_true_eq_false, false_or] at hop
            obtain rfl : a = .access id' x' m :=
              Option.some.inj ((System.at?_cons hassign).symm.trans habove)
            obtain rfl : m = e := Option.some.inj ((System.at?_cons habove).symm.trans he)
            cases m with
            | var id d => exact named id d rfl
            | _ => simp [Expr.isPlace] at hop

/-- Inside the call nothing assigns to the variable. -/
theorem not_assigns (h : Inside p l i v f (c :: q)) (he : p.at? f.location = some e) :
    ¬ Simulator.Assigns f v e := by
  intro hassigns
  cases e with
  | binary id op x y =>
      cases op with
      | assign =>
          rw [h.location] at he
          exact h.targets 0 (by simp) 0 (System.isAssigned_left he) v (Frame.slot?_of_value hassigns)
            rfl
      | _ => exact hassigns
  | _ => exact hassigns

end Inside

namespace Simulator

variable {s : Simulator} {t r : Transition} {f : Frame} {below : List Frame} {st : SmallStep}

/-- Code goes on where there is an expression. -/
theorem exists_at?_of_smallStep (hframes : t.frames = f :: below) {c : Int} {up : Path}
    (hpath : f.path = c :: up) (hst : (s.smallStep t).result = .ok st) :
    ∃ e, s.program.at? f.location = some e := by
  obtain ⟨ps, hps, -⟩ := Transition.frames_eq_cons.1 hframes
  obtain ⟨st₀, rs, hadv, -, -⟩ := smallStep_cases hst
  have hrunning : t.resetAccesses.running? = some ps := hps
  have htop : t.resetAccesses.top? = some f := Transition.top?_of_frames hframes
  unfold advance at hadv
  simp only [hrunning, htop, hpath] at hadv
  cases he : s.program.at? f.location with
  | none =>
      simp only [he] at hadv
      cases hadv
  | some e => exact ⟨e, rfl⟩

theorem bindParams_frames (stack : List Routine) (ds : List Decl) (xs : List Value) (t : Transition) :
    (s.bindParams stack t ds xs).frames = t.frames :=
  bindParams_induction (P := fun u => u.frames = t.frames) (fun _ h => h)
    (fun _ _ h => (store_frames _ _ _).trans h) rfl

/-- A call of a member routine that has not returned goes on to its next argument, or enters the
callee after the last one. -/
theorem callStep_member {ps : ProcessState} {e : Expr} {g : Member} {arity : Nat}
    (hframes : t.frames = f :: below) (hcoming : f.comingFrom < arity)
    (hst : s.callStep t ps f e (.member g) arity = .ok st) (hr : r ∈ st.results) :
    (r.frames = f.enter (f.comingFrom + 1) :: below ∧ r.scratch.written = t.scratch.written) ∨
      (f.comingFrom = arity - 1 ∧
        ∃ callee, r.frames = callee :: f :: below ∧ callee.location = ⟨.member g, []⟩) := by
  cases callStep_cases hst with
  | argument =>
      obtain rfl := List.mem_singleton.1 hr
      exact .inl ⟨Transition.frames_mapTop hframes _, congrArg Scratch.written (Transition.scratch_mapRunning _ _)⟩
  | result returned => omega
  | @call _ receiver last =>
      obtain rfl := List.mem_singleton.1 hr
      refine .inr ⟨last, .start (.member g) receiver, ?_, rfl⟩
      rw [bindParams_frames]
      exact Transition.frames_push hframes _

variable {l : Location} {g : Member} {args : List Expr} {i c : Int} {v : Variable} {q : Path}

/-- A step inside the call stays there and leaves the variable alone. -/
theorem smallStep_inside (plain : s.setup.observer = .pdg false) (indexed : s.program.WellIndexed)
    (pending : Pending s.program (Stack.routines (l :: below.map (·.location))) l g args i v)
    (h : Inside s.program l i v f (c :: q)) (hframes : t.frames = f :: below)
    (hst : (s.smallStep t).result = .ok st) (hends : st.ends = false) (hr : r ∈ st.results) :
    (∀ x ∈ Move.accesses s.program ⟨st, r⟩, ¬ x.Changes v) ∧
      ∃ f' q', r.frames = f' :: below ∧ Inside s.program l i v f' q' := by
  obtain ⟨e, he⟩ := exists_at?_of_smallStep hframes h.path_eq hst
  have hterm : e.isTerm = true :=
    Expr.isTerm_of_isOperand (pending.isOperand (by simp) h.later (h.location ▸ he))
  obtain ⟨_, _, ps, a, st₀, -, -, hstack, -, hexpr, -, -, hends₀, u, hu, hru⟩ :=
    smallStep_on plain hframes he hst hr
  have hstep := exprStep_term (t := t.announcing a) (by exact hframes) hterm hexpr
    (hends₀ ▸ hends) hu
  have hps : ps.routines = Stack.routines (l :: below.map (·.location)) := by
    simp [ProcessState.routines, hstack, h.location, Stack.routines]
  have hrframes : r.frames = u.frames := by
    rw [hru]
    rfl
  have hwritten : v ∉ r.scratch.written := by
    have hsame : r.scratch.written = u.scratch.written := by rw [hru]
    rw [hsame]
    cases hstep with
    | descend _ _ written =>
        rw [written]
        exact List.not_mem_nil
    | leave _ _ _ written =>
        intro hv
        exact (written v hv).elim List.not_mem_nil (h.not_assigns he)
  refine ⟨?_, ?_⟩
  · refine unchanged_on plain hframes he hst hr
      (fun id v hret => by rw [hret] at hterm; cases hterm) (h.coming e he).ne pending.ne_result ?_
    intro i' hi' hwrite
    obtain rfl : c = i' := by simpa [h.path_eq] using hi'
    rw [Site.mem_writes_of_isTerm (by exact hterm)] at hwrite
    refine hwrite.elim hwritten (pending.notMem_bound indexed h.later (h.location ▸ he) ?_ ?_ rfl)
    · simp [Site.routines, Site.stack, Stack.routines, h.location]
    · simp [h.location]
  · cases hstep with
    | descend _ frames _ => exact ⟨_, _, hrframes.trans frames, h.enter⟩
    | leave _ frames gives _ =>
        exact ⟨_, _, hrframes.trans frames, h.leave he fun hassigned w hx =>
          h.target_ne pending he rfl hps gives hassigned hx⟩

/-- A step on the call goes on to the next argument or enters the callee. It leaves the variable
alone. -/
theorem smallStep_calling (plain : s.setup.observer = .pdg false) (indexed : s.program.WellIndexed)
    (pending : Pending s.program (Stack.routines (l :: below.map (·.location))) l g args i v)
    (h : Inside s.program l i v f []) (hframes : t.frames = f :: below)
    (hst : (s.smallStep t).result = .ok st) (hr : r ∈ st.results) :
    (∀ x ∈ Move.accesses s.program ⟨st, r⟩, ¬ x.Changes v) ∧
      ((∃ f' q', r.frames = f' :: below ∧ Inside s.program l i v f' q') ∨
        ∃ callee, r.frames = callee :: f :: below ∧ callee.location = ⟨.member g, []⟩) := by
  obtain ⟨id, hcall⟩ := pending.call
  have hlocation : f.location = l := h.location
  have he : s.program.at? f.location = some (.call id (.member g) args) := hlocation ▸ hcall
  have hcoming : f.comingFrom < args.length := h.coming _ he
  obtain ⟨_, _, ps, a, st₀, -, -, -, -, hexpr, -, -, -, u, hu, hru⟩ :=
    smallStep_on plain hframes he hst hr
  have hrframes : r.frames = u.frames := by
    rw [hru]
    rfl
  have hsame : r.scratch.written = u.scratch.written := by rw [hru]
  have hstep := callStep_member (t := t.announcing a) (by exact hframes) hcoming hexpr hu
  refine ⟨?_, ?_⟩
  · refine unchanged_on plain hframes he hst hr (by simp) hcoming.ne pending.ne_result ?_
    intro i' _
    refine pending.notMem_writes indexed hcall rfl (by rw [hlocation]) ?_ ?_
    · simp [Site.routines, Site.stack, Stack.routines, hlocation]
    · intro hopen
      rcases hstep with ⟨-, hwritten⟩ | ⟨hlast, -⟩
      · rw [hsame, hwritten]
        exact List.not_mem_nil
      · simp [Site.finished, Site.arity, Expr.children, hlast] at hopen
  · rw [hrframes]
    exact hstep.imp (fun hnext => ⟨_, _, hnext.1, h.enter⟩) fun hcalled => hcalled.2

section Run

variable {start u : Transition} {pre rest : List Move}

/-- A step of a call that is being prepared. -/
theorem smallStep_pending (plain : s.setup.observer = .pdg false) (indexed : s.program.WellIndexed)
    (pending : Pending s.program (Stack.routines (l :: below.map (·.location))) l g args i v)
    (h : Inside s.program l i v f q) (hframes : t.frames = f :: below)
    (hst : (s.smallStep t).result = .ok st) (hends : st.ends = false) (hr : r ∈ st.results) :
    (∀ x ∈ Move.accesses s.program ⟨st, r⟩, ¬ x.Changes v) ∧
      ((∃ f' q', r.frames = f' :: below ∧ Inside s.program l i v f' q') ∨
        r.frames.map (·.location) = ⟨.member g, []⟩ :: l :: below.map (·.location)) := by
  cases q with
  | nil =>
      refine (smallStep_calling plain indexed pending h hframes hst hr).imp_right fun hstep => ?_
      refine hstep.imp_right fun hcalled => ?_
      obtain ⟨callee, hcallee, hlocation⟩ := hcalled
      have hcaller : f.location = l := h.location
      simp [hcallee, hlocation, hcaller]
  | cons c q =>
      exact (smallStep_inside plain indexed pending h hframes hst hends hr).imp_right .inl

/-- While no frame is added, a call that is being prepared stays so. -/
theorem Walk.inside (plain : s.setup.observer = .pdg false) (indexed : s.program.WellIndexed)
    (pending : Pending s.program (Stack.routines (l :: below.map (·.location))) l g args i v)
    (hw : s.Walk start pre t) (h : Inside s.program l i v f q) (hframes : t.frames = f :: below)
    (hrest : s.Walk start (pre ++ rest) u)
    (level : ∀ m ∈ rest, m.result.frames.length = below.length + 1) :
    (∀ x ∈ traceOf s.program rest, ¬ x.Changes v) ∧
      ∃ f' q', u.frames = f' :: below ∧ Inside s.program l i v f' q' := by
  induction rest using List.reverseRecOn generalizing u with
  | nil =>
      rw [List.append_nil] at hrest
      obtain rfl : t = u := hw.endOf_eq.symm.trans hrest.endOf_eq
      exact ⟨by simp [traceOf], f, q, hframes, h⟩
  | append_singleton rest m ih =>
      rw [← List.append_assoc] at hrest
      obtain ⟨t', hw', hst, hends, hr, rfl⟩ := Route.snoc_cases (b := false) hrest
      obtain ⟨hkept, f', q', hframes', h'⟩ := ih hw' fun m hm => level m (by simp [hm])
      obtain ⟨hstep, hnext⟩ := smallStep_pending plain indexed pending h' hframes' hst hends hr
      refine ⟨?_, ?_⟩
      · intro x hx
        rw [traceOf, List.flatMap_append, List.mem_append] at hx
        refine hx.elim (hkept x) fun hx => hstep x ?_
        simpa using hx
      · refine hnext.resolve_right fun hcalled => ?_
        have hlength := congrArg List.length hcalled
        rw [List.length_map, level m (by simp)] at hlength
        simp at hlength

/-- The next frame that is added is that of the callee. -/
theorem Walk.enters (plain : s.setup.observer = .pdg false) (indexed : s.program.WellIndexed)
    (pending : Pending s.program (Stack.routines (l :: below.map (·.location))) l g args i v)
    (hw : s.Walk start pre t) (h : Inside s.program l i v f q) (hframes : t.frames = f :: below)
    (hrest : s.Walk start (pre ++ rest) u)
    (level : ∀ m ∈ rest.dropLast, m.result.frames.length = below.length + 1)
    (hentered : u.frames.length = below.length + 2) :
    (∀ x ∈ traceOf s.program rest, ¬ x.Changes v) ∧
      u.frames.map (·.location) = ⟨.member g, []⟩ :: l :: below.map (·.location) := by
  induction rest using List.reverseRecOn with
  | nil =>
      rw [List.append_nil] at hrest
      obtain rfl : t = u := hw.endOf_eq.symm.trans hrest.endOf_eq
      rw [hframes, List.length_cons] at hentered
      omega
  | append_singleton rest m _ =>
      rw [← List.append_assoc] at hrest
      obtain ⟨t', hw', hst, hends, hr, rfl⟩ := Route.snoc_cases (b := false) hrest
      rw [List.dropLast_concat] at level
      obtain ⟨hkept, f', q', hframes', h'⟩ :=
        hw.inside plain indexed pending h hframes hw' level
      obtain ⟨hstep, hnext⟩ := smallStep_pending plain indexed pending h' hframes' hst hends hr
      refine ⟨?_, hnext.resolve_left ?_⟩
      · intro x hx
        rw [traceOf, List.flatMap_append, List.mem_append] at hx
        refine hx.elim (hkept x) fun hx => hstep x ?_
        simpa using hx
      · rintro ⟨f', q', hframes', -⟩
        rw [hframes', List.length_cons] at hentered
        omega

end Run

end Simulator

end DeltaSlice
