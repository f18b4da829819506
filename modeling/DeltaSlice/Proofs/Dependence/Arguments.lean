import DeltaSlice.Proofs.Dependence.Binding

/-!
Arguments and receivers in plain dependence graphs. When a member routine is entered, each parameter
whose argument was evaluated on the way has that argument as its only definition, and so has the
receiver. The graph leads from there to what reads the parameter.
-/

namespace DeltaSlice

open Dependence Pdg

theorem Program.formsOwnNode_argument {p : Program} {r f : Routine} {e : Expr} {id : Nat}
    {args : List Expr} (h : p.parent? r e = some (.call id f args)) :
    p.formsOwnNode r (some e) = true := by
  unfold formsOwnNode
  cases e <;> simp only [h]

theorem Program.formsOwnNode_receiver {p : Program} {r : Routine} {e m : Expr} {id : Nat}
    (h : p.parent? r e = some (.access id e m)) (hm : m.isCall = true) :
    p.formsOwnNode r (some e) = true := by
  unfold formsOwnNode
  cases e <;> simp [h, hm]

theorem paramVariable_eq {callers : List Routine} {g : Member} {args : List Expr} {i : Nat} {d : Decl}
    (hlength : g.params.length = args.length) (hd : g.params[i]? = some d) :
    paramVariable callers (.member g) args i = .ofFrame (.member g :: callers) (.decl d) := by
  simp [paramVariable, Routine.isBuiltin, Routine.params, hlength, elementAt?_natCast, hd]

theorem paramVariable_ne_receiver (callers : List Routine) (g : Member) (args : List Expr) (j : Int) :
    paramVariable callers (.member g) args j ≠ .ofFrame (.member g :: callers) .receiver := by
  intro heq
  unfold paramVariable at heq
  simp only at heq
  split at heq
  · cases (Variable.frame.inj heq).2.2
  · split at heq <;> cases (Variable.frame.inj heq).2.2

/-- Different parameters are different variables. -/
theorem paramVariable_ne {callers : List Routine} {g : Member} {args : List Expr} {i : Nat} {d : Decl}
    {j : Int} (hlength : g.params.length = args.length) (hdistinct : g.params.Nodup)
    (hd : g.params[i]? = some d) (hj : i < j) :
    paramVariable callers (.member g) args j ≠ .ofFrame (.member g :: callers) (.decl d) := by
  obtain ⟨k, rfl⟩ := Int.eq_ofNat_of_zero_le (by omega : 0 ≤ j)
  intro heq
  cases hd' : g.params[k]? with
  | none =>
      simp only [paramVariable, Routine.isBuiltin, Routine.params, hlength, elementAt?_natCast, hd',
        Bool.false_or, ne_eq, not_true_eq_false, decide_false, Bool.false_eq_true, if_false] at heq
      cases (Variable.frame.inj heq).2.2
  | some d' =>
      rw [paramVariable_eq hlength hd'] at heq
      obtain rfl := LocalName.decl.inj (Variable.frame.inj heq).2.2
      have hik := List.getElem?_inj (List.getElem?_eq_some_iff.1 hd).1 hdistinct |>.1 (hd.trans hd'.symm)
      omega

theorem Expr.isOperand_of_drop {args : List Expr} {i : Nat} {j : Int} {b : Expr}
    (h : Expr.areOperands (args.drop (i + 1)) = true) (hj : i < j) (hb : elementAt? args j = some b) :
    b.isOperand = true := by
  obtain ⟨k, rfl⟩ := Int.eq_ofNat_of_zero_le (by omega : 0 ≤ j)
  refine Expr.areOperands_iff.1 h b (List.mem_of_getElem? (i := k - (i + 1)) ?_)
  rw [List.getElem?_drop, ← hb, elementAt?_natCast]
  congr 1
  omega

/-- What stands at a location is handed over to the routine that the call at `l` enters, as the given
variable: as an argument for a parameter, or as the receiver. What the call evaluates after it calls no
member routine, and it is no such call itself. -/
inductive HandedOver (p : Program) (callers : List Routine) (l : Location) (g : Member) :
    Location → Variable → Prop
  | argument {id i : Nat} {args : List Expr} {a : Expr} {d : Decl} :
      p.at? l = some (.call id (.member g) args) → g.params.length = args.length →
      g.params.Nodup → args[i]? = some a → g.params[i]? = some d → a.isTerm = true →
      Expr.areOperands (args.drop (i + 1)) = true →
      HandedOver p callers l g (l.child i) (.ofFrame (.member g :: callers) (.decl d))
  | receiver {id id' : Nat} {args : List Expr} {x : Expr} {up : Path} :
      l.path = 1 :: up → p.at? ⟨l.routine, up⟩ = some (.access id' x (.call id (.member g) args)) →
      x.isTerm = true → Expr.areOperands args = true →
      HandedOver p callers l g ⟨l.routine, 0 :: up⟩ (.ofFrame (.member g :: callers) .receiver)

namespace HandedOver

variable {p : Program} {callers : List Routine} {l source : Location} {g : Member} {v : Variable}

theorem ne_result (h : HandedOver p callers l g source v) (st : List Routine) :
    v ≠ .ofFrame st .result := by
  intro heq
  cases h with
  | argument | receiver => cases (Variable.frame.inj heq).2.2

/-- What is handed over is a term at a place of its own, the end of which matters for the graph. -/
theorem term (h : HandedOver p callers l g source v) (indexed : p.WellIndexed) :
    ∃ e, p.at? source = some e ∧ e.isTerm = true ∧
      p.formsOwnNode source.routine (p.at? source) = true ∧ ∀ i, source.path.head? = some i →
        p.isRelevant source.routine e i (e.children.length - 1) = true := by
  cases h with
  | @argument id i args a d hcall hlength hdistinct ha hd hterm hlater =>
      have he : p.at? ⟨l.routine, i :: l.path⟩ = some a := by
        refine (System.at?_cons hcall).trans ?_
        rw [Expr.children, elementAt?_natCast, ha]
      have hparent : p.parent? l.routine a = some (.call id (.member g) args) :=
        (indexed.parent?_eq he).trans hcall
      refine ⟨a, he, hterm, ?_, ?_⟩
      · have he' : p.at? (l.child i) = some a := he
        rw [he']
        exact Program.formsOwnNode_argument hparent
      · intro j _
        unfold Program.isRelevant
        simp only [Location.child, hparent, decide_true]
        cases a with
        | ret => cases hterm
        | _ => simp
  | @receiver id id' args x up hpath haccess hterm hoperands =>
      have he : p.at? ⟨l.routine, 0 :: up⟩ = some x := System.at?_cons haccess
      have hparent : p.parent? l.routine x = some (.access id' x (.call id (.member g) args)) :=
        (indexed.parent?_eq he).trans haccess
      refine ⟨x, he, hterm, ?_, ?_⟩
      · rw [he]
        exact Program.formsOwnNode_receiver hparent rfl
      · intro j hj
        obtain rfl : 0 = j := Option.some.inj hj
        unfold Program.isRelevant
        simp only [hparent, Expr.isCall, decide_true]
        cases x with
        | ret => cases hterm
        | _ => simp

/-- The end of its evaluation is a step that binds it. -/
theorem mem_bound (h : HandedOver p callers l g source v) (indexed : p.WellIndexed) {e : Expr}
    (he : p.at? source = some e) {x : Site} (hroutines : x.routines = callers)
    (hparent : x.parent = p.parent? source.routine e) (hindex : source.path.head? = some x.index)
    (hfinished : x.finished = true) : v ∈ x.bound := by
  unfold Site.bound
  rw [if_pos hfinished]
  cases h with
  | @argument id i args a d hcall hlength hdistinct ha hd hterm hlater =>
      have habove : x.parent = some (.call id (.member g) args) :=
        hparent.trans ((indexed.parent?_eq he).trans hcall)
      have hi : x.index = i := (Option.some.inj hindex).symm
      simp [habove, hi, hroutines, paramVariable_eq hlength hd]
  | @receiver id id' args y up hpath haccess hterm hoperands =>
      have habove : x.parent = some (.access id' y (.call id (.member g) args)) :=
        hparent.trans ((indexed.parent?_eq he).trans haccess)
      have hzero : x.index = 0 := (Option.some.inj hindex).symm
      simp [habove, hzero, hroutines]

/-- After what is handed over the call goes on with its next argument, or begins with the first. -/
theorem pending (h : HandedOver p callers l g source v) : ∃ args i, Pending p callers l g args i v ∧
    ((source = l.child i ∧ i < args.length) ∨ (i = -1 ∧ ∃ id x m up, l.path = 1 :: up ∧
      source = ⟨l.routine, 0 :: up⟩ ∧ p.at? ⟨l.routine, up⟩ = some (.access id x m))) := by
  cases h with
  | @argument id i args a d hcall hlength hdistinct ha hd hterm hlater =>
      refine ⟨args, i, ⟨⟨id, hcall⟩, ?_, ⟨_, rfl, .inl ⟨d, rfl⟩⟩, ?_⟩, .inl ⟨rfl, ?_⟩⟩
      · intro j b hj hb
        exact Expr.isOperand_of_drop hlater hj hb
      · intro j hj
        exact paramVariable_ne hlength hdistinct hd hj
      · exact_mod_cast (List.getElem?_eq_some_iff.1 ha).1
  | @receiver id id' args x up hpath haccess hterm hoperands =>
      refine ⟨args, -1, ⟨⟨id, ?_⟩, ?_, ⟨_, rfl, .inr ⟨rfl, id', x, _, up, hpath, haccess⟩⟩, ?_⟩,
        .inr ⟨rfl, id', x, _, up, hpath, rfl, haccess⟩⟩
      · have hl : l = ⟨l.routine, 1 :: up⟩ := by rw [← hpath]
        rw [hl]
        exact System.at?_cons haccess
      · intro j b _ hb
        exact Expr.areOperands_iff.1 hoperands b (mem_of_elementAt? hb)
      · intro j _
        exact paramVariable_ne_receiver _ _ _ _

end HandedOver

theorem Pending.inside_of_argument {p : Program} {callers : List Routine} {l : Location} {g : Member}
    {args : List Expr} {i : Int} {v : Variable} (h : Pending p callers l g args i v) {f : Frame}
    (hf : f.location = l.child i) (hi : i < args.length) (x : Value) :
    Inside p l i v (p.system.finish x f) [] where
  location := by
    rw [System.finish, Frame.leave_location (congrArg Location.path hf), hf]
    rfl
  later := by simp
  passed := by
    rw [System.finish, Frame.leave_comingFrom (congrArg Location.path hf)]
    exact fun _ => le_rfl
  coming := by
    intro e he
    obtain ⟨id, hcall⟩ := h.call
    rw [System.finish, Frame.leave_location (congrArg Location.path hf), hf] at he
    obtain rfl := Option.some.inj (hcall.symm.trans he)
    rw [System.finish, Frame.leave_comingFrom (congrArg Location.path hf)]
    exact hi
  targets := by simp

namespace Simulator

variable {s : Simulator} {start t r u : Transition} {f : Frame} {below : List Frame} {st : SmallStep}
variable {l source : Location} {g : Member} {v : Variable} {e : Expr}

/-- The last step on what is handed over binds it, and leaves it. -/
theorem smallStep_binds (plain : s.setup.observer = .pdg false) (indexed : s.program.WellIndexed)
    (h : HandedOver s.program (Stack.routines (source :: below.map (·.location))) l g source v)
    (hframes : t.frames = f :: below) (hsource : f.location = source)
    (he : s.program.at? source = some e) (hdone : f.comingFrom = e.children.length - 1)
    (hst : (s.smallStep t).result = .ok st) (hends : st.ends = false) (hr : r ∈ st.results)
    (before : List Act) :
    Defines (before ++ Move.accesses s.program ⟨st, r⟩) v
        (StatementId.point t.origin (source :: below.map (·.location))).key ∧
      ∃ x, r.frames = s.program.system.finish x f :: below := by
  subst hsource
  obtain ⟨e', he', hterm, hown, hrelevant⟩ := h.term indexed
  obtain rfl : e = e' := Option.some.inj (he.symm.trans he')
  obtain ⟨_, _, ps, a, st₀, -, -, -, -, hexpr, -, -, hends₀, w, hw, hrw⟩ :=
    smallStep_on plain hframes he hst hr
  refine ⟨?_, ?_⟩
  · obtain ⟨i, hi, hacc⟩ := accesses_on plain hframes he hst hr
      (fun id v hret => by rw [hret] at hterm; cases hterm)
    rw [hacc, hdone, if_pos (hrelevant i hi)]
    have hdefines := Site.defines_of_bound (p := s.program) (s := ⟨r, e, e.children.length - 1, i,
      s.program.parent? f.location.routine e, f.location, below.map (·.location)⟩) hterm
      (by simp [Site.arity]) h.ne_result
      (h.mem_bound indexed he rfl rfl hi (by simp [Site.finished, Site.arity])) before
    rw [Site.owner, Site.stack, Program.trim_of_formsOwnNode hown] at hdefines
    rw [← smallStep_origin plain hst hr]
    exact hdefines
  · have hstep := exprStep_term (t := t.announcing a) (by exact hframes) hterm hexpr
      (hends₀ ▸ hends) hw
    have hsame : r.frames = w.frames := by
      rw [hrw]
      rfl
    cases hstep with
    | descend more _ _ =>
        rw [hdone] at more
        exact absurd more (lt_irrefl _)
    | leave _ frames _ _ => exact ⟨_, hsame.trans frames⟩

/-- After the receiver comes the call, with its first argument. -/
theorem smallStep_approaches (plain : s.setup.observer = .pdg false) {args : List Expr}
    (pending : Pending s.program (Stack.routines (l :: below.map (·.location))) l g args (-1) v)
    {id : Nat} {x m : Expr} {up : Path} (hpath : l.path = 1 :: up)
    (haccess : s.program.at? ⟨l.routine, up⟩ = some (.access id x m))
    (hframes : t.frames = f :: below) (hlocation : f.location = ⟨l.routine, up⟩)
    (hcoming : f.comingFrom = 0) (hst : (s.smallStep t).result = .ok st) (hends : st.ends = false)
    (hr : r ∈ st.results) :
    (∀ y ∈ Move.accesses s.program ⟨st, r⟩, ¬ y.Changes v) ∧
      ∃ f', r.frames = f' :: below ∧ Inside s.program l (-1) v f' [] := by
  have he : s.program.at? f.location = some (.access id x m) := hlocation ▸ haccess
  obtain ⟨_, _, ps, a, st₀, -, -, -, -, hexpr, -, -, hends₀, w, hw, hrw⟩ :=
    smallStep_on plain hframes he hst hr
  have hstep := exprStep_term (t := t.announcing a) (by exact hframes) rfl hexpr (hends₀ ▸ hends) hw
  cases hstep with
  | leave done _ _ _ =>
      have := done (by simp [Expr.children])
      simp [Expr.children, hcoming] at this
  | descend _ frames written =>
      have hwritten : r.scratch.written = [] := by
        rw [hrw]
        exact written
      refine ⟨?_, f.enter (f.comingFrom + 1), ?_, ?_, by simp, ?_, ?_, by simp⟩
      · refine unchanged_on plain hframes he hst hr (by simp) ?_ pending.ne_result ?_
        · simp [Expr.children, hcoming]
        · intro i _
          rw [Site.mem_writes_of_isTerm rfl]
          simp [hwritten, Site.bound, Site.finished, Site.arity, Expr.children, hcoming]
      · rw [hrw]
        exact frames
      · rw [Frame.enter, hlocation, hcoming, List.nil_append, hpath]
        rfl
      · intro _
        exact le_rfl
      · intro e _
        simp only [Frame.enter]
        omega

/-- From the end of the evaluation of what stands at `source` in the frame above `below`, the sequence
`rest` enters and leaves no routine until its last step, which enters one. -/
structure Enters (s : Simulator) (start : Transition) (pre rest : List Move) (source : Location)
    (below : List Frame) (u : Transition) : Prop where
  walk : s.Walk start (pre ++ rest) u
  ending : ∃ f e, (endOf start pre).frames = f :: below ∧ f.location = source ∧
    s.program.at? source = some e ∧ f.comingFrom = e.children.length - 1
  level : ∀ m ∈ rest.dropLast, m.result.frames.length = below.length + 1
  entered : u.frames.length = below.length + 2

/-- The routine that is entered is the callee, and what was handed over is the definition of its
variable. -/
theorem Enters.defines (plain : s.setup.observer = .pdg false) (indexed : s.program.WellIndexed)
    {pre rest : List Move} (h : s.Enters start pre rest source below u)
    (handed : HandedOver s.program (Stack.routines (source :: below.map (·.location))) l g source v) :
    Defines (traceOf s.program (pre ++ rest)) v
        (StatementId.point start.origin (source :: below.map (·.location))).key ∧
      u.frames.map (·.location) = ⟨.member g, []⟩ :: l :: below.map (·.location) := by
  obtain ⟨f, e, hframes, hsource, he, hdone⟩ := h.ending
  have hwalk := h.walk
  cases rest with
  | nil =>
      rw [List.append_nil] at hwalk
      have hlength := h.entered
      rw [← hwalk.endOf_eq, hframes, List.length_cons] at hlength
      omega
  | cons m rest =>
      rw [List.append_cons] at hwalk ⊢
      have hw₁ := hwalk.of_append
      obtain ⟨t, hw, hst, hends, hr, hm⟩ := Route.snoc_cases (b := false) hw₁
      rw [hm] at hw₁
      rw [hw.endOf_eq] at hframes
      obtain ⟨hdefines, x, hleft⟩ := smallStep_binds plain indexed handed hframes hsource he hdone hst
        hends hr (traceOf s.program pre)
      rw [hw.origin plain] at hdefines
      have hne : rest ≠ [] := by
        rintro rfl
        have hlength := h.entered
        rw [List.append_nil] at hwalk
        rw [← hwalk.endOf_eq, hw₁.endOf_eq, hleft, List.length_cons] at hlength
        omega
      have hlevel := h.level
      rw [List.dropLast_cons_of_ne_nil hne] at hlevel
      replace hlevel := fun k hk => hlevel k (List.mem_cons_of_mem m hk)
      have kept : ∀ {ms}, (∀ y ∈ traceOf s.program ms, ¬ y.Changes v) →
          Defines (traceOf s.program (pre ++ [m] ++ ms)) v
            (StatementId.point start.origin (source :: below.map (·.location))).key := by
        intro ms hms
        have htrace : traceOf s.program (pre ++ [m] ++ ms) =
            traceOf s.program pre ++ m.accesses s.program ++ traceOf s.program ms := by
          simp [traceOf]
        rw [htrace]
        exact defines_append_of_unchanged hdefines hms
      obtain ⟨args, i, pending, hplace⟩ := handed.pending
      rcases hplace with ⟨rfl, hi⟩ | ⟨rfl, id, y, n, up, hpath, rfl, haccess⟩
      · obtain ⟨hkept, hlocations⟩ := hw₁.enters plain indexed pending
          (pending.inside_of_argument hsource hi x) hleft hwalk hlevel h.entered
        exact ⟨kept hkept, hlocations⟩
      · obtain ⟨m', rest, rfl⟩ := List.exists_cons_of_ne_nil hne
        have hf : f.path = 0 :: up := congrArg Location.path hsource
        rw [List.append_cons] at hwalk
        have hw₂ := hwalk.of_append
        obtain ⟨t', hw', hst', hends', hr', hm'⟩ := Route.snoc_cases (b := false) hw₂
        obtain rfl : m.result = t' := hw₁.endOf_eq.symm.trans hw'.endOf_eq
        rw [hm'] at hw₂
        obtain ⟨happroach, f', hframes', hinside⟩ := smallStep_approaches plain pending hpath haccess
          hleft (by rw [System.finish, Frame.leave_location hf, hsource]; rfl)
          (by rw [System.finish, Frame.leave_comingFrom hf]) hst' hends' hr'
        have hlast : rest.dropLast ⊆ (m' :: rest).dropLast := by
          cases rest <;> simp
        obtain ⟨hkept, hlocations⟩ := hw₂.enters plain indexed pending hinside hframes' hwalk
          (fun k hk => hlevel k (hlast hk)) h.entered
        refine ⟨kept ?_, hlocations⟩
        intro z hz
        rw [traceOf, List.flatMap_cons, List.mem_append] at hz
        exact hz.elim (happroach z) (hkept z)

/-- When the callee is entered, the graph of the sequence knows no other definition of what was handed
over. -/
theorem Enters.definitionsOf (plain : s.setup.observer = .pdg false) (indexed : s.program.WellIndexed)
    {g₀ : Pdg} (hstart : Carries start g₀) {pre rest : List Move}
    (h : s.Enters start pre rest source below u)
    (handed : HandedOver s.program (Stack.routines (source :: below.map (·.location))) l g source v) :
    ∃ k, u.info = .pdg k ∧ k.definitionsOf v =
      ([.statement (StatementId.point start.origin (source :: below.map (·.location))).key], false) := by
  obtain ⟨k, hk⟩ := h.walk.occurs.carries plain hstart
  have hflows := Route.flows plain hstart (b := false) h.walk
  have hdefines := (h.defines plain indexed handed).1
  refine ⟨k, hk.info, hk.valid.definitionsOf_eq fun d => ?_⟩
  rw [← reaches_of_defines (flows start.info.facts) hdefines d, ← hflows, hk.facts]
  exact ⟨fun hd => ⟨hd, trivial⟩, fun hd => hd.1⟩

/-- In every transition, whatever sequence of small steps of its code enters a member routine after it
has evaluated an argument or the receiver: the only definition of the parameter or receiver is then
the statement of what was handed over, and the completed graph leads from there to what reads it on
the sequence before it is written or forgotten. An edge from an input node comes from a sequence on
which the variable is read with no definition of it. -/
theorem handedOver_of_transition (plain : s.setup.observer = .pdg false)
    (indexed : s.program.WellIndexed) {st : State} {ts : List Transition}
    (hstep : (∃ p, (s.makeStep p st).result = .ok ts) ∨ (s.endEvaluation st).result = .ok ts)
    (hr : r ∈ ts) :
    (∃ runs, s.Consists st runs r) ∧ ∀ runs, s.Consists st runs r → ∃ k, r.info = .pdg k ∧
      (∀ start e, (start, e) ∈ runs → ∀ pre rest source below u l g v,
        s.Enters start pre rest source below u →
        HandedOver s.program (Stack.routines (source :: below.map (·.location))) l g source v →
        let a := (StatementId.point start.origin (source :: below.map (·.location))).key
        u.frames.map (·.location) = ⟨.member g, []⟩ :: l :: below.map (·.location) ∧
        (∃ k', u.info = .pdg k' ∧ k'.definitionsOf v = ([.statement a], false)) ∧
        ∀ post before b after, s.KeysDecide start (Move.accesses s.program) →
          s.Leads start (pre ++ rest ++ post) e →
          traceOf s.program post = before ++ .read v b :: after →
          (∀ x ∈ before, ¬ x.Changes v) →
          k.edge? .data (.statement a) (.statement b) = .ok true) ∧
      ((∀ start e, (start, e) ∈ runs → s.KeysDecide start (Move.accesses s.program)) →
        ∀ v b, k.edge? .data (.input v) (.statement b) = .ok true → s.ReadsInput runs v b) := by
  refine ⟨?_, ?_⟩
  · cases hstep with
    | inl hstep =>
        obtain ⟨p, hstep⟩ := hstep
        exact consists_of_makeStep hstep hr
    | inr hstep => exact consists_of_endEvaluation hstep hr
  · intro runs hruns
    obtain ⟨k, hinfo, hk, hcontributes⟩ := hruns.contributes plain
    refine ⟨k, hinfo, ?_, fun keys v b hedge => hruns.input plain keys hinfo hedge⟩
    intro start e hmem pre rest source below u l g v henters handed
    obtain ⟨⟨g₀, hstart⟩, ⟨ended, hended, he⟩, hedges⟩ := hcontributes start e hmem
    obtain ⟨hdefines, hlocations⟩ := henters.defines plain indexed handed
    refine ⟨hlocations, henters.definitionsOf plain indexed hstart handed, ?_⟩
    intro post before b after keys hleads htrace hkept
    obtain ⟨taken, hx⟩ := explored_of_run (merging_facts plain hstart) hended
    rw [hk.edge?_eq_true]
    refine hedges _ _ ((flows_of_ended plain hstart keys hx he _).2 ⟨_, hleads, ?_⟩).1
    have htrace' : traceOf s.program (pre ++ rest ++ post) =
        traceOf s.program (pre ++ rest) ++ before ++ .read v b :: after := by
      simp [traceOf, ← htrace]
    rw [htrace']
    exact edge_of_defines _ (defines_append_of_unchanged hdefines hkept)

end Simulator

instance (x : Act) (v : Variable) : Decidable (x.Changes v) :=
  match x with
  | .make _ => isFalse changes_make
  | .read _ _ => isFalse changes_read
  | .write _ _ => decidable_of_iff _ changes_write.symm
  | .forget _ => decidable_of_iff _ changes_forget.symm

/-- The node that reads a variable before it is written or forgotten. -/
def Dependence.firstRead? (v : Variable) : List Act → Option String
  | [] => none
  | x :: xs =>
    match x with
    | .read w b => if w = v then some b else firstRead? v xs
    | x => if x.Changes v then none else firstRead? v xs

theorem Dependence.exists_of_firstRead? {v : Variable} {xs : List Act} {b : String}
    (h : firstRead? v xs = some b) :
    ∃ before after, xs = before ++ .read v b :: after ∧ ∀ x ∈ before, ¬ x.Changes v := by
  induction xs with
  | nil => cases h
  | cons x xs ih =>
      have later : ¬ x.Changes v → firstRead? v xs = some b → ∃ before after,
          x :: xs = before ++ .read v b :: after ∧ ∀ y ∈ before, ¬ y.Changes v := by
        intro hx h
        obtain ⟨before, after, rfl, hbefore⟩ := ih h
        refine ⟨x :: before, after, rfl, ?_⟩
        intro y hy
        cases List.mem_cons.1 hy with
        | inl hy => exact hy ▸ hx
        | inr hy => exact hbefore y hy
      unfold firstRead? at h
      split at h
      · split at h
        · rename_i hw
          obtain rfl := Option.some.inj h
          subst hw
          exact ⟨[], xs, rfl, by simp⟩
        · exact later changes_read h
      · split at h
        · cases h
        · rename_i hx
          exact later hx h

namespace Simulator

variable {s : Simulator}

/-- Whether the small steps of the given numbers lead to a completed transition of the process, where
`n` of them after the first `k` enter a routine after what stands at `source`, and the variable is read
later, such that the start passes a check. -/
def entersAt (s : Simulator) (p : Process) (x : State) (l : List Nat) (k n : Nat)
    (source : Location) (below : List Location) (v : Variable) (c : Transition → Bool) : Bool :=
  s.arrives p x l fun start ms _ =>
    match (endOf start (ms.take k)).frames, s.program.at? source, ms.drop (k + n) with
    | f :: rest, some e, _ :: _ => f.location = source && rest.map (·.location) = below &&
        f.comingFrom = e.children.length - 1 &&
        ((ms.drop k).take n).dropLast.all (fun m => m.result.frames.length = rest.length + 1) &&
        (endOf start (ms.take (k + n))).frames.length = rest.length + 2 &&
        (firstRead? v (traceOf s.program (ms.drop (k + n)))).isSome && c start
    | _, _, _ => false

theorem exists_of_entersAt {p : Process} {x : State} {l : List Nat} {k n : Nat} {source : Location}
    {stack : List Location} {v : Variable} {c : Transition → Bool}
    (h : s.entersAt p x l k n source stack v c = true) :
    ∃ start ts r g pre rest post below u before b after, s.begin? p x = .ok start ∧
      (s.makeStep p x).result = .ok ts ∧ r ∈ ts ∧ r.info = .pdg g ∧
      s.Enters start pre rest source below u ∧ below.map (·.location) = stack ∧
      s.Leads start (pre ++ rest ++ post) r ∧
      traceOf s.program post = before ++ .read v b :: after ∧ (∀ x ∈ before, ¬ x.Changes v) ∧
      c start = true := by
  obtain ⟨start, ts, r, g, ms, hbegin, hts, hr, hg, hleads, h⟩ := exists_of_arrives h
  split at h
  · rename_i f rest e m post hframes he hdrop
    simp only [Bool.and_eq_true, decide_eq_true_eq, List.all_eq_true] at h
    obtain ⟨⟨⟨⟨⟨⟨hsource, hbelow⟩, hdone⟩, hlevel⟩, hentered⟩, hread⟩, hc⟩ := h
    obtain ⟨b, hb⟩ := Option.isSome_iff_exists.1 hread
    obtain ⟨before, after, htrace, hbefore⟩ := exists_of_firstRead? hb
    have htake : ms.take k ++ (ms.drop k).take n = ms.take (k + n) := List.take_add.symm
    have hms : ms.take k ++ (ms.drop k).take n ++ ms.drop (k + n) = ms := by
      rw [htake, List.take_append_drop]
    rw [← hms] at hleads
    have hwalk : s.Walk start (ms.take k ++ (ms.drop k).take n) _ := (hdrop ▸ hleads).walk
    rw [htake] at hwalk
    exact ⟨start, ts, r, g, ms.take k, (ms.drop k).take n, ms.drop (k + n), rest, _, before, b, after,
      hbegin, hts, hr, hg, ⟨htake ▸ hwalk, ⟨f, e, hframes, hsource, he, hdone⟩, hlevel, hentered⟩,
      hbelow, hleads, htrace, hbefore, hc⟩
  · cases h

end Simulator

namespace Examples

def runRoutine : Routine := .member ⟨0, "Top", "run", [], false⟩

/-- A parameter by position. -/
def param (index : Nat) : Decl := ⟨index, "p" ++ toString index, .param⟩

/-- The routine `f` with the given number of parameters. -/
def callee (arity : Nat) : Member := ⟨1, "Top", "f", (List.range arity).map param, false⟩

/-- The first parameter of `f`, called from `run`. -/
def handed (arity : Nat) : Variable := .ofFrame [.member (callee arity), runRoutine] (.decl (param 0))

/-- A thread with the given body, which may call `f` with arguments, and `g` for a value; `f` does what
is given and then `y = p0;`. -/
def passing (arity : Nat) (first : List Expr) (body : (List Expr → Expr) → Expr → List Expr) :
    System :=
  let g := Routine.member ⟨2, "Top", "g", [], true⟩
  let names := ["x", "y", "z", "w", "u", "c"]
  System.numbered {
    classes := [⟨"Top", names.zipIdx.map fun (n, i) => ⟨field i n, none⟩, [],
      [runRoutine, .member (callee arity), g]⟩]
    instances := [⟨top, some 0⟩]
    globals := []
    processes := [⟨"run", some top, some runRoutine, .thread, [], false⟩]
    bodies := [body (call (.member (callee arity))) (call g []),
      first ++ [assign (field 1 "y") (ref (param 0))], [.ret 0 (some (ref (field 3 "w")))]] }

/-- `top.f(x, w = z);` -/
def handing : System := passing 2 [] fun f _ =>
  [.access 0 (const (.inst top)) (f [ref (field 0 "x"), assign (field 3 "w") (ref (field 2 "z"))])]

/-- The place of `x`. -/
def argument : Location := ⟨runRoutine, [0, 1, 0]⟩

end Examples

open Examples Simulator in
theorem handedOver_of_transition_assigning :
    ∃ ts r runs start e pre rest post u before b after,
      ((untracked handing (.pdg false)).makeStep runner atStart).result = .ok ts ∧ r ∈ ts ∧
      (untracked handing (.pdg false)).Consists atStart runs r ∧ (start, e) ∈ runs ∧
      (untracked handing (.pdg false)).KeysDecide start (Move.accesses (.ofSystem handing)) ∧
      (untracked handing (.pdg false)).Enters start pre rest argument [] u ∧
      HandedOver (.ofSystem handing) [runRoutine] ⟨runRoutine, [1, 0]⟩ (callee 2) argument (handed 2) ∧
      (untracked handing (.pdg false)).Leads start (pre ++ rest ++ post) e ∧
      traceOf (.ofSystem handing) post = before ++ .read (handed 2) b :: after ∧
      (∀ x ∈ before, ¬ x.Changes (handed 2)) ∧
      (∃ k, u.info = .pdg k ∧ k.definitionsOf (handed 2) =
        ([.statement (StatementId.point start.origin [argument]).key], false)) ∧
      ∃ k, r.info = .pdg k ∧ k.edge? .data
        (.statement (StatementId.point start.origin [argument]).key) (.statement b) = .ok true := by
  have h : (untracked handing (.pdg false)).entersAt runner atStart (List.replicate 30 0) 5 8 argument
      [] (handed 2) (fun start => (untracked handing (.pdg false)).surveys
        (Move.accesses (.ofSystem handing)) start
        ((untracked handing (.pdg false)).survey 100 [] [(false, start)])) = true := by
    decide +kernel
  obtain ⟨start, ts, r, g, pre, rest, post, below, u, before, b, after, hbegin, hts, hr, hg, henters,
    hbelow, hleads, htrace, hbefore, h⟩ := exists_of_entersAt h
  obtain rfl := List.map_eq_nil_iff.1 hbelow
  have keys := keysDecide_of_surveys h
  have hhanded : HandedOver (.ofSystem handing) [runRoutine] ⟨runRoutine, [1, 0]⟩ (callee 2) argument
      (handed 2) :=
    .argument (i := 0) rfl rfl (by decide) rfl rfl rfl rfl
  obtain ⟨start', ended, hbegin', hrun, hfin⟩ := makeStep_cases hts
  obtain rfl : start = start' := by
    rw [hbegin] at hbegin'
    injection hbegin'
  obtain ⟨e, he, hstate, hinfo⟩ := finalize_mem hfin hr
  have hruns : (untracked handing (.pdg false)).Consists atStart [(start, e)] r :=
    .step hbegin ⟨ended, hrun, he⟩ ⟨hstate, hinfo⟩
  have hleads' : (untracked handing (.pdg false)).Leads start (pre ++ rest ++ post) e := by
    obtain ⟨u, hc, hkey⟩ := hleads
    exact ⟨u, hc, by rw [hkey, hstate]⟩
  obtain ⟨k, hk, hall, -⟩ := (handedOver_of_transition (s := untracked handing (.pdg false)) rfl
    (Program.wellIndexed_numbered _) (.inl ⟨runner, hts⟩) hr).2 _ hruns
  obtain ⟨-, hdefined, hedge⟩ := hall start e (by simp) pre rest argument [] u _ _ _ henters hhanded
  exact ⟨ts, r, _, start, e, pre, rest, post, u, before, b, after, hts, hr, hruns, by simp, keys,
    henters, hhanded, hleads', htrace, hbefore, hdefined, k, hk,
    hedge post before b after keys hleads' htrace hbefore⟩

namespace Simulator

/-- The frame above `caller` was just added by a call with as many arguments as the routine has
parameters. -/
structure Entered (p : Program) (u : Transition) (caller : Frame) (below : List Frame) (g : Member)
    (args : List Expr) : Prop where
  frames : ∃ top, u.frames = top :: caller :: below ∧ top.location = ⟨.member g, []⟩ ∧
    top.comingFrom = -1
  call : ∃ id, p.at? caller.location = some (.call id (.member g) args)
  arity : g.params.length = args.length

def entered? (p : Program) (u : Transition) : Option (Frame × List Frame × Member × List Expr) :=
  match u.frames with
  | top :: caller :: below =>
    match p.at? caller.location with
    | some (.call _ (.member g) args) =>
      if top.location = ⟨.member g, []⟩ ∧ top.comingFrom = -1 ∧ g.params.length = args.length then
        some (caller, below, g, args)
      else none
    | _ => none
  | _ => none

theorem entered_of_entered? {p : Program} {u : Transition} {caller : Frame} {below : List Frame}
    {g : Member} {args : List Expr} (h : entered? p u = some (caller, below, g, args)) :
    Entered p u caller below g args := by
  unfold entered? at h
  split at h
  · rename_i hframes
    split at h
    · rename_i hcall
      split at h
      · rename_i hsame
        simp only [Option.some.injEq, Prod.mk.injEq] at h
        obtain ⟨rfl, rfl, rfl, rfl⟩ := h
        exact ⟨⟨_, hframes, hsame.1, hsame.2.1⟩, ⟨_, hcall⟩, hsame.2.2⟩
      · cases h
    · cases h
  · cases h

/-- The variable of the parameter for argument `i`, and the node of the argument. -/
def bindingOf (start : Transition) (caller : Frame) (below : List Frame) (g : Member) (i : Nat)
    (d : Decl) : Variable × NodeId :=
  (.ofFrame (.member g :: Stack.routines ((caller :: below).map (·.location))) (.decl d),
    .statement (StatementId.point start.origin
      (caller.location.child i :: below.map (·.location))).key)

open Examples in
/-- A sequence of small steps of the thread enters a routine, and the statement of argument `i` is not
the only definition of its parameter. -/
def Misbinds (s : Simulator) (x : State) (i : Nat) : Prop :=
  ∃ start ts r ms post u caller below g args d k, s.begin? runner x = .ok start ∧
    (s.makeStep runner x).result = .ok ts ∧ r ∈ ts ∧ s.Leads start (ms ++ post) r ∧
    s.Walk start ms u ∧ Entered s.program u caller below g args ∧ g.params[i]? = some d ∧
    u.info = .pdg k ∧ k.definitionsOf (bindingOf start caller below g i d).1 ≠
      ([(bindingOf start caller below g i d).2], false)

open Examples in
/-- A sequence of small steps of the thread enters a routine and reads the first parameter before it
is written or forgotten, and still there is an edge from before the transition to what reads it. -/
def ReadsOuter (s : Simulator) (x : State) : Prop :=
  ∃ start ts r ms post u caller below g args d k before b after, s.begin? runner x = .ok start ∧
    (s.makeStep runner x).result = .ok ts ∧ r ∈ ts ∧ r.info = .pdg k ∧ s.Leads start (ms ++ post) r ∧
    s.Walk start ms u ∧ Entered s.program u caller below g args ∧ g.params[0]? = some d ∧
    traceOf s.program post = before ++ .read (bindingOf start caller below g 0 d).1 b :: after ∧
    (∀ y ∈ before, ¬ y.Changes (bindingOf start caller below g 0 d).1) ∧
    k.edge? .data (.input (bindingOf start caller below g 0 d).1) (.statement b) = .ok true

/-- Whether `n` small steps of a completed transition of the thread enter a routine, such that the
sequence, its graph and the call pass a check. -/
def calledAt (s : Simulator) (x : State) (l : List Nat) (n : Nat)
    (c : Transition → List Move → Pdg → Frame → List Frame → Member → Bool) : Bool :=
  s.arrives Examples.runner x l fun start ms k =>
    match ms.drop n, entered? s.program (endOf start (ms.take n)) with
    | _ :: _, some (caller, below, g, _) => c start ms k caller below g
    | _, _ => false

theorem exists_of_calledAt {s : Simulator} {x : State} {l : List Nat} {n : Nat}
    {c : Transition → List Move → Pdg → Frame → List Frame → Member → Bool}
    (h : s.calledAt x l n c = true) :
    ∃ start ts r ms k caller below g args, s.begin? Examples.runner x = .ok start ∧
      (s.makeStep Examples.runner x).result = .ok ts ∧ r ∈ ts ∧ r.info = .pdg k ∧
      s.Leads start (ms.take n ++ ms.drop n) r ∧
      s.Walk start (ms.take n) (endOf start (ms.take n)) ∧
      Entered s.program (endOf start (ms.take n)) caller below g args ∧
      c start ms k caller below g = true := by
  obtain ⟨start, ts, r, k, ms, hbegin, hts, hr, hk, hleads, h⟩ := exists_of_arrives h
  split at h
  · rename_i m post caller below g args hdrop hentered
    rw [← List.take_append_drop n ms] at hleads
    exact ⟨start, ts, r, ms, k, caller, below, g, args, hbegin, hts, hr, hk, hleads,
      (hdrop ▸ hleads).walk, entered_of_entered? hentered, h⟩
  · cases h

/-- Whether the graph after `n` small steps has another definition of the parameter for argument `i`
than the argument. -/
def misbound (start : Transition) (ms : List Move) (n i : Nat) (caller : Frame) (below : List Frame)
    (g : Member) : Bool :=
  match g.params[i]?, (endOf start (ms.take n)).info with
  | some d, .pdg k => k.definitionsOf (bindingOf start caller below g i d).1 ≠
      ([(bindingOf start caller below g i d).2], false)
  | _, _ => false

theorem misbinds_of_calledAt {s : Simulator} {x : State} {l : List Nat} {n i : Nat}
    (h : s.calledAt x l n (fun start ms _ => misbound start ms n i) = true) : s.Misbinds x i := by
  obtain ⟨start, ts, r, ms, k, caller, below, g, args, hbegin, hts, hr, -, hleads, hwalk, hentered, h⟩ :=
    exists_of_calledAt h
  unfold misbound at h
  split at h
  · rename_i d k' hd hinfo
    exact ⟨start, ts, r, _, _, _, caller, below, g, args, d, k', hbegin, hts, hr, hleads, hwalk,
      hentered, hd, hinfo, by simpa using h⟩
  · cases h

/-- Whether the first parameter is read after `n` small steps before it is written or forgotten, and
the graph has an edge from before the transition to there. -/
def readOuter (p : Program) (start : Transition) (ms : List Move) (k : Pdg) (n : Nat) (caller : Frame)
    (below : List Frame) (g : Member) : Bool :=
  match g.params[0]? with
  | none => false
  | some d =>
    match firstRead? (bindingOf start caller below g 0 d).1 (traceOf p (ms.drop n)) with
    | none => false
    | some b => Success.yields
        (k.edge? .data (.input (bindingOf start caller below g 0 d).1) (.statement b)) id

theorem readsOuter_of_calledAt {s : Simulator} {x : State} {l : List Nat} {n : Nat}
    (h : s.calledAt x l n (fun start ms k => readOuter s.program start ms k n) = true) :
    s.ReadsOuter x := by
  obtain ⟨start, ts, r, ms, k, caller, below, g, args, hbegin, hts, hr, hk, hleads, hwalk, hentered,
    h⟩ := exists_of_calledAt h
  unfold readOuter at h
  split at h
  · cases h
  · rename_i d hd
    split at h
    · cases h
    · rename_i b hb
      obtain ⟨before, after, htrace, hbefore⟩ := exists_of_firstRead? hb
      obtain ⟨y, hedge, hy⟩ := Success.exists_of_yields h
      obtain rfl : y = true := hy
      exact ⟨start, ts, r, _, _, _, caller, below, g, args, d, k, before, b, after, hbegin, hts, hr, hk,
        hleads, hwalk, hentered, hd, htrace, hbefore, hedge⟩

end Simulator

namespace Examples

/-- `f(g());` -/
def nested : System := passing 1 [] fun f g => [f [g]]

/-- `f(x, g());` -/
def followed : System := passing 2 [] fun f g => [f [ref (field 0 "x"), g]]

def shortly : Expr := wait [number 1, const (.unit .ns)]

/-- `f(x, wait(1, SC_NS));` -/
def waiting : System := passing 2 [] fun f _ => [f [ref (field 0 "x"), shortly]]

/-- `while (u) f(x);` where `f` does `if (c) wait(1, SC_NS);` first. -/
def looping : System := passing 1 [.branch 0 (ref (field 5 "c")) [shortly] []] fun f _ =>
  [.whileLoop 0 "" (ref (field 4 "u")) [f [ref (field 0 "x")]]]

/-- The thread goes on with the given frames. -/
def resuming (frames : List Frame) : State := ⟨.start, [.start none frames], none, 0⟩

/-- After the wait in the second argument. -/
def afterWait : State :=
  resuming [⟨⟨runRoutine, [0]⟩, 1, [[some .unknown, some .unknown], []], .lit (.inst top)⟩]

/-- After the wait in `f`. -/
def inCallee : State :=
  resuming [⟨⟨.member (callee 1), [0]⟩, 1, [[some .unknown], []], .lit (.inst top)⟩,
    ⟨⟨runRoutine, [1, 0]⟩, 0, [[some .unknown], [some .unknown], []], .lit (.inst top)⟩]

end Examples

open Examples Simulator in
/-- A parameter lacks its argument where the argument is a call or a call follows it in the arguments,
and where the argument was evaluated in an earlier transition. A read of a parameter may also have an
edge from before the transition where the code resumes in the callee and calls it again. -/
theorem handedOver_missing :
    (untracked nested (.pdg false)).Misbinds atStart 0 ∧
      (untracked followed (.pdg false)).Misbinds atStart 0 ∧
      (untracked waiting (.pdg false)).Misbinds afterWait 0 ∧
      (untracked looping (.pdg false)).ReadsOuter inCallee := by
  refine ⟨?_, ?_, ?_, ?_⟩
  · exact misbinds_of_calledAt (l := List.replicate 18 0) (n := 9) (by decide +kernel)
  · exact misbinds_of_calledAt (l := List.replicate 20 0) (n := 11) (by decide +kernel)
  · exact misbinds_of_calledAt (l := List.replicate 10 0) (n := 1) (by decide +kernel)
  · exact readsOuter_of_calledAt (l := List.replicate 18 0 ++ [1] ++ List.replicate 30 0) (n := 15)
      (by decide +kernel)

end DeltaSlice
